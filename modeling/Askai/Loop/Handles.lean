import Askai.Library.Chain
import Askai.Library.Trace
import Askai.Util.Room

/-!
# Handles

The table of what the handles of a loop name (`loop_handle`, `loop_lookup` and `loop_forget` of
`loop.c`).
-/

namespace Askai

open List

namespace Handles

/-- `SLOTS_MIN`. -/
abbrev slotsMin : Nat := 64

/-- `SLOTS_MAX`. -/
abbrev slotsMax : Nat := 2 ^ 24

/-- `struct loop_slot`: `word` is `kind` while in use, and `vacant` while free. -/
structure LoopSlot (α : Type*) where
  obj : Option α
  gen : UInt32
  word : UInt32

/-- What a loop has of its handles: `slots` are the ones ever used. -/
structure HandleTable (α : Type*) where
  id : UInt64
  slots : List (LoopSlot α) := []
  slotsCap : Nat := 0
  /-- The last slot freed + 1, or 0. -/
  vacant : UInt32 := 0

variable {α : Type*}

/-- The handle of a slot. -/
def handleBits (id : UInt64) (i : Nat) (gen : UInt32) : UInt64 :=
  id <<< 56 ||| UInt64.ofNat i <<< 32 ||| gen.toUInt64

/-- The slot that a handle's bits have the index of. -/
def handleSlot (h : UInt64) : Nat :=
  ((h >>> 32).toUInt32 &&& 0xffffff).toNat

/-- `loop_slot_of`: the index of the slot. -/
def loopSlotOf (t : HandleTable α) (h : UInt64) : Option Nat :=
  let i := handleSlot h
  if h >>> 56 ≠ t.id then none
  else
    match t.slots[i]? with
    | some slot => if slot.gen = h.toUInt32 ∧ slot.obj.isSome then some i else none
    | none => none

/-- `loop_slots_grow`: the room for slots, none for `ENOMEM`. -/
def loopSlotsGrow (memory : Bool) (t : HandleTable α) : Option Nat :=
  if slotsMax ≤ t.slots.length then none
  else
    let n := if t.slots.length < slotsMin then slotsMin else t.slots.length + 1
    utilGrow memory 16 t.slotsCap n

/-- `loop_handle`: the handle, none for `ENOMEM`. -/
def loopHandle (memory : Bool) (t : HandleTable α) (obj : α) (kind : UInt32) : HandleTable α × Option UInt64 :=
  if t.vacant ≠ 0 then
    let i := (t.vacant - 1).toNat
    match t.slots[i]? with
    | some slot =>
      ({ t with
          slots := t.slots.set i { slot with obj := some obj, word := kind }
          vacant := slot.word }, some (handleBits t.id i slot.gen))
    | none => (t, none)
  else
    match loopSlotsGrow memory t with
    | none => (t, none)
    | some cap =>
      ({ t with
          slots := t.slots ++ [{ obj := some obj, gen := 1, word := kind }]
          slotsCap := cap }, some (handleBits t.id t.slots.length 1))

/-- `loop_lookup`. -/
def loopLookup (t : HandleTable α) (h : UInt64) (kind : UInt32) : Option α :=
  match loopSlotOf t h with
  | some i => (t.slots[i]?).bind fun slot => if slot.word = kind then slot.obj else none
  | none => none

/-- `loop_forget`. -/
def loopForget (t : HandleTable α) (h : UInt64) : HandleTable α :=
  match loopSlotOf t h with
  | none => t
  | some i =>
    match t.slots[i]? with
    | some slot =>
      { t with
        slots := t.slots.set i
          { obj := none
            gen := slot.gen + (1 + if slot.gen = 0xffffffff then 1 else 0)
            word := t.vacant }
        vacant := UInt32.ofNat i + 1 }
    | none => t

/-! ## The parts of a handle -/

theorem toNat_handleBits {id : UInt64} {i : Nat} (gen : UInt32) (small : id.toNat < 256) (inside : i < slotsMax) :
    (handleBits id i gen).toNat = id.toNat * 2 ^ 56 + i * 2 ^ 32 + gen.toNat := by
  change i < 2 ^ 24 at inside
  have low := gen.toNat_lt
  have slot : (UInt64.ofNat i <<< 32).toNat = i <<< 32 := by
    rw [UInt64.toNat_shiftLeft, UInt64.toNat_ofNat', Nat.mod_eq_of_lt (by omega : i < 2 ^ 64)]
    change i <<< 32 % 2 ^ 64 = i <<< 32
    rw [Nat.shiftLeft_eq, Nat.mod_eq_of_lt (by omega)]
  have top : (id <<< 56).toNat = id.toNat <<< 56 := by
    rw [UInt64.toNat_shiftLeft]
    change id.toNat <<< 56 % 2 ^ 64 = id.toNat <<< 56
    rw [Nat.shiftLeft_eq, Nat.mod_eq_of_lt (by omega)]
  have within : i <<< 32 < 2 ^ 56 := by
    rw [Nat.shiftLeft_eq]
    omega
  have split : id.toNat <<< 56 + i <<< 32 = (id.toNat <<< 24 + i) <<< 32 := by
    simp only [Nat.shiftLeft_eq]
    omega
  rw [handleBits, UInt64.toNat_or, UInt64.toNat_or, slot, top, UInt32.toNat_toUInt64,
    ← Nat.shiftLeft_add_eq_or_of_lt within, split, ← Nat.shiftLeft_add_eq_or_of_lt low]
  simp only [Nat.shiftLeft_eq]
  omega

theorem handleSlot_toNat (h : UInt64) : handleSlot h = h.toNat / 2 ^ 32 % 2 ^ 24 := by
  have small := h.toNat_lt
  rw [handleSlot, UInt32.toNat_and, UInt64.toNat_toUInt32, UInt64.toNat_shiftRight]
  change h.toNat >>> 32 % 2 ^ 32 &&& 2 ^ 24 - 1 = _
  rw [Nat.and_two_pow_sub_one_eq_mod, Nat.shiftRight_eq_div_pow,
    Nat.mod_eq_of_lt (by omega : h.toNat / 2 ^ 32 < 2 ^ 32)]

/-- A handle's bits are its parts. -/
theorem handleBits_iff {id h : UInt64} {i : Nat} {gen : UInt32} (small : id.toNat < 256) (inside : i < slotsMax) :
    h = handleBits id i gen ↔ h >>> 56 = id ∧ handleSlot h = i ∧ h.toUInt32 = gen := by
  have bits := toNat_handleBits gen small inside
  change i < 2 ^ 24 at inside
  have bound := h.toNat_lt
  have low := gen.toNat_lt
  have top : (h >>> 56).toNat = h.toNat / 2 ^ 56 := by
    rw [UInt64.toNat_shiftRight]
    exact Nat.shiftRight_eq_div_pow ..
  rw [← UInt64.toNat_inj, bits, ← UInt64.toNat_inj, top, handleSlot_toNat, ← UInt32.toNat_inj, UInt64.toNat_toUInt32]
  omega

variable {h : UInt64} {t : HandleTable α}

/-- The slot of a handle is one that is in use and has its generation. -/
theorem loopSlotOf_iff (small : t.id.toNat < 256)
    (bound : t.slots.length ≤ slotsMax) {i : Nat} : loopSlotOf t h = some i ↔
      ∃ slot o, t.slots[i]? = some slot ∧ slot.obj = some o ∧ h = handleBits t.id i slot.gen := by
  have inside : ∀ {i slot}, t.slots[i]? = some slot → i < slotsMax := fun found =>
    Nat.lt_of_lt_of_le (List.getElem?_eq_some_iff.mp found).1 bound
  rw [loopSlotOf]
  constructor
  · intro same
    split_ifs at same with own
    split at same
    · rename_i slot found
      split_ifs at same with used
      obtain rfl := Option.some.inj same
      obtain ⟨o, names⟩ := Option.isSome_iff_exists.mp used.2
      exact ⟨slot, o, found, names, (handleBits_iff small (inside found)).mpr ⟨not_not.mp own, rfl, used.1.symm⟩⟩
    · cases same
  · rintro ⟨slot, o, found, names, same⟩
    obtain ⟨own, index, gen⟩ := (handleBits_iff small (inside found)).mp same
    rw [if_neg (not_not.mpr own), index, found]
    dsimp only
    rw [if_pos ⟨gen.symm, by rw [names]; rfl⟩]

/-! ## What handles name -/

/-- A table and what its handles name, how often each slot was freed. -/
structure HandleStory (α : Type*) where
  table : HandleTable α
  named : UInt64 → Option (α × UInt32) := fun _ => none
  frees : Nat → Nat := fun _ => 0

/-- What a call did: a handle was given, the table was full, or a handle was forgotten. -/
inductive HandleEvent (α : Type*) where
  | given (h : UInt64) (obj : α) (kind : UInt32)
  | full
  | forgotten (h : UInt64)

/-- A call of `loop_handle` or `loop_forget`. -/
inductive HandleStep : HandleStory α → HandleEvent α → HandleStory α → Prop
  | handle {s : HandleStory α} {memory : Bool} {obj : α} {kind : UInt32} {t : HandleTable α}
      {h : UInt64} (named : loopHandle memory s.table obj kind = (t, some h)) :
      HandleStep s (.given h obj kind)
        { s with table := t, named := Function.update s.named h (some (obj, kind)) }
  | full {s : HandleStory α} {memory : Bool} {obj : α} {kind : UInt32} {t : HandleTable α}
      (none_ : loopHandle memory s.table obj kind = (t, none)) : HandleStep s .full { s with table := t }
  | forget {s : HandleStory α} (h : UInt64) :
      HandleStep s (.forgotten h)
        { table := loopForget s.table h
          named := Function.update s.named h none
          frees :=
            if (s.named h).isSome then
              Function.update s.frees (handleSlot h) (s.frees (handleSlot h) + 1)
            else s.frees }

/-- The link of a free slot. -/
def vacantLink (word : UInt32) : Option Nat :=
  if word = 0 then none else some (word - 1).toNat

/-- What follows a slot in the chain of free ones. -/
def vacantNext (slots : List (LoopSlot α)) (i : Nat) : Option Nat :=
  (slots[i]?).bind fun slot => vacantLink slot.word

/-- The table is what the handles name, and the chain of what was freed. -/
structure Sound (s : HandleStory α) : Prop where
  id : s.table.id.toNat < 256
  bound : s.table.slots.length ≤ slotsMax
  gen : ∀ i slot, s.table.slots[i]? = some slot → slot.gen.toNat = s.frees i % (2 ^ 32 - 1) + 1
  fresh : ∀ i, s.table.slots.length ≤ i → s.frees i = 0
  named : ∀ h o kind, s.named h = some (o, kind) ↔ ∃ i slot, s.table.slots[i]? = some slot ∧
    slot.obj = some o ∧ slot.word = kind ∧ h = handleBits s.table.id i slot.gen
  free : ∃ l, Library.Chain (vacantNext s.table.slots) (vacantLink s.table.vacant) l ∧
    ∀ i, i ∈ l ↔ ∃ slot, s.table.slots[i]? = some slot ∧ slot.obj = none

theorem Sound.start {id : UInt64} (small : id.toNat < 256) : Sound ({ table := { id } } : HandleStory α) where
  id := small
  bound := Nat.zero_le _
  gen i slot found := by simp at found
  fresh _ _ := rfl
  named h o kind := by simp
  free := ⟨[], rfl, by simp⟩

variable {s : HandleStory α} {slot : LoopSlot α}

/-- A generation is never 0. -/
theorem Sound.gen_ne (sound : Sound s) {i : Nat} (found : s.table.slots[i]? = some slot) : slot.gen ≠ 0 := by
  intro zero
  have gen := sound.gen i slot found
  rw [zero] at gen
  cases gen

/-- A handle that names something is the one of a slot in use. -/
theorem Sound.slotOf (sound : Sound s) {i : Nat} : loopSlotOf s.table h = some i ↔
      ∃ slot o, s.table.slots[i]? = some slot ∧ slot.obj = some o ∧ s.named h = some (o, slot.word) ∧
        h = handleBits s.table.id i slot.gen := by
  rw [loopSlotOf_iff sound.id sound.bound]
  constructor
  · rintro ⟨slot, o, found, names, same⟩
    exact ⟨slot, o, found, names, (sound.named h o slot.word).mpr ⟨i, slot, found, names, rfl, same⟩, same⟩
  · rintro ⟨slot, o, found, names, -, same⟩
    exact ⟨slot, o, found, names, same⟩

theorem Sound.inside (sound : Sound s) {i : Nat} (found : s.table.slots[i]? = some slot) : i < slotsMax :=
  Nat.lt_of_lt_of_le (List.getElem?_eq_some_iff.mp found).1 sound.bound

/-- The index of the slot of a handle. -/
theorem Sound.index (sound : Sound s) {i : Nat}
    (found : s.table.slots[i]? = some slot) : handleSlot (handleBits s.table.id i slot.gen) = i :=
  ((handleBits_iff sound.id (sound.inside found)).mp rfl).2.1

/-- A handle resolves to what it names. -/
theorem Sound.lookup (sound : Sound s) (h : UInt64) (kind : UInt32) : loopLookup s.table h kind =
      (s.named h).bind fun (o, k) => if k = kind then some o else none := by
  rw [loopLookup]
  cases found : loopSlotOf s.table h with
  | some i =>
    obtain ⟨slot, o, here, names, named, -⟩ := sound.slotOf.mp found
    dsimp only
    rw [here, named, Option.bind_some, Option.bind_some, names]
  | none =>
    cases named : s.named h with
    | none => rfl
    | some pair =>
      obtain ⟨i, slot, here, names, -, same⟩ := (sound.named h pair.1 pair.2).mp named
      have again := (loopSlotOf_iff sound.id sound.bound).mpr ⟨slot, pair.1, here, names, same⟩
      cases found.symm.trans again

/-- Two handles that name something have different slots. -/
theorem Sound.distinct (sound : Sound s) {h h' : UInt64} (names : s.named h ≠ none)
    (names' : s.named h' ≠ none) (same : handleSlot h = handleSlot h') : h = h' := by
  obtain ⟨pair, named⟩ := Option.ne_none_iff_exists'.mp names
  obtain ⟨pair', named'⟩ := Option.ne_none_iff_exists'.mp names'
  obtain ⟨i, slot, here, -, -, rfl⟩ := (sound.named h pair.1 pair.2).mp named
  obtain ⟨j, slot', here', -, -, rfl⟩ := (sound.named h' pair'.1 pair'.2).mp named'
  rw [sound.index here, sound.index here'] at same
  subst same
  rw [Option.some.inj (here.symm.trans here')]

/-- Forgetting what names nothing changes nothing. -/
theorem Sound.forget_none (sound : Sound s) (none_ : s.named h = none) : loopForget s.table h = s.table := by
  rw [loopForget]
  cases found : loopSlotOf s.table h with
  | none => rfl
  | some i =>
    obtain ⟨slot, o, -, -, named, -⟩ := sound.slotOf.mp found
    cases none_.symm.trans named

/-! ## Calls keep it so -/

theorem loopHandle_id (memory : Bool) (t : HandleTable α) (obj : α) (kind : UInt32) :
    (loopHandle memory t obj kind).1.id = t.id := by
  rw [loopHandle]
  dsimp only
  split_ifs
  · split <;> rfl
  · split <;> rfl

theorem loopForget_id (t : HandleTable α) (h : UInt64) : (loopForget t h).id = t.id := by
  rw [loopForget]
  split
  · rfl
  · split <;> rfl

variable {s' : HandleStory α}

theorem HandleStep.id {e : HandleEvent α} (step : HandleStep s e s') : s'.table.id = s.table.id := by
  cases step with
  | @handle memory obj kind t h named =>
    have same := loopHandle_id memory s.table obj kind
    rwa [named] at same
  | @full memory obj kind t none_ =>
    have same := loopHandle_id memory s.table obj kind
    rwa [none_] at same
  | forget h => exact loopForget_id s.table h

variable {kind : UInt32}

theorem loopHandle_none {memory : Bool} {t t' : HandleTable α} {obj : α}
    (none_ : loopHandle memory t obj kind = (t', none)) : t' = t := by
  rw [loopHandle] at none_
  dsimp only at none_
  split_ifs at none_
  · split at none_
    · cases none_
    · exact (Prod.mk.inj none_).1.symm
  · split at none_
    · exact (Prod.mk.inj none_).1.symm
    · cases none_

/-- A new handle is one of a free slot or of one never used; the table grows only where none is
free. -/
theorem Sound.handle_cases (sound : Sound s) {memory : Bool} {obj : α}
    (named : loopHandle memory s.table obj kind = (t, some h)) :
    (∃ i slot, vacantLink s.table.vacant = some i ∧ s.table.slots[i]? = some slot ∧ slot.obj = none ∧
      h = handleBits s.table.id i slot.gen ∧
      t = { s.table with
        slots := s.table.slots.set i { slot with obj := some obj, word := kind }
        vacant := slot.word }) ∨ (vacantLink s.table.vacant = none ∧ s.table.slots.length < slotsMax ∧
      h = handleBits s.table.id s.table.slots.length 1 ∧
      ∃ cap, t = { s.table with
        slots := s.table.slots ++ [{ obj := some obj, gen := 1, word := kind }]
        slotsCap := cap }) := by
  rw [loopHandle] at named
  dsimp only at named
  split_ifs at named with some_
  · refine .inl ?_
    have link : vacantLink s.table.vacant = some (s.table.vacant - 1).toNat := if_neg some_
    obtain ⟨l, chain, members⟩ := sound.free
    have head := chain.head
    rw [link] at head
    obtain ⟨slot, found, free⟩ := (members _).mp (mem_of_mem_head? head.symm)
    rw [found] at named
    obtain ⟨rfl, same⟩ := Prod.mk.inj named
    exact ⟨_, slot, link, found, free, (Option.some.inj same).symm, rfl⟩
  · refine .inr ?_
    have link : vacantLink s.table.vacant = none := if_pos (not_not.mp some_)
    split at named
    · cases named
    · rename_i cap grown
      obtain ⟨rfl, same⟩ := Prod.mk.inj named
      rw [loopSlotsGrow] at grown
      split_ifs at grown with full
      · exact ⟨link, Nat.not_le.mp full, (Option.some.inj same).symm, cap, rfl⟩
      · exact ⟨link, Nat.not_le.mp full, (Option.some.inj same).symm, cap, rfl⟩

/-- A slot that was not in use is one for a new handle. -/
theorem Sound.named_update (sound : Sound s) {slots : List (LoopSlot α)} {i : Nat} {new : LoopSlot α}
    {obj : α} (inside : i < slotsMax) (here : slots[i]? = some new) (names : new.obj = some obj)
    (other : ∀ j ≠ i, slots[j]? = s.table.slots[j]?)
    (was : ∀ slot, s.table.slots[i]? = some slot → slot.obj = none) (h : UInt64) (o : α) (kind : UInt32) :
    Function.update s.named (handleBits s.table.id i new.gen) (some (obj, new.word)) h = some (o, kind) ↔
      ∃ j slot, slots[j]? = some slot ∧ slot.obj = some o ∧ slot.word = kind ∧
        h = handleBits s.table.id j slot.gen := by
  have index := ((handleBits_iff sound.id inside).mp (rfl : _ = handleBits s.table.id i new.gen)).2.1
  by_cases same : h = handleBits s.table.id i new.gen
  · subst same
    rw [Function.update_self]
    constructor
    · intro equal
      obtain ⟨rfl, rfl⟩ := Prod.mk.inj (Option.some.inj equal)
      exact ⟨i, new, here, names, rfl, rfl⟩
    · rintro ⟨j, slot, at_, is_, rfl, bits⟩
      have alike : j = i := by
        by_contra ne
        have found := (other j ne).symm.trans at_
        rw [bits, sound.index found] at index
        exact ne index
      subst alike
      obtain rfl := Option.some.inj (here.symm.trans at_)
      rw [Option.some.inj (names.symm.trans is_)]
  · rw [Function.update_of_ne same, sound.named]
    constructor
    · rintro ⟨j, slot, at_, is_, kind, bits⟩
      have ne : j ≠ i := by
        rintro rfl
        cases (was slot at_).symm.trans is_
      exact ⟨j, slot, (other j ne).trans at_, is_, kind, bits⟩
    · rintro ⟨j, slot, at_, is_, kind, bits⟩
      have ne : j ≠ i := by
        rintro rfl
        obtain rfl := Option.some.inj (here.symm.trans at_)
        exact same bits
      exact ⟨j, slot, (other j ne).symm.trans at_, is_, kind, bits⟩

/-- A free slot in use for a new handle. -/
theorem Sound.handle_vacant (sound : Sound s) {i : Nat} {obj : α}
    (link : vacantLink s.table.vacant = some i) (found : s.table.slots[i]? = some slot) (free : slot.obj = none) :
    Sound { s with
      table := { s.table with
        slots := s.table.slots.set i { slot with obj := some obj, word := kind }
        vacant := slot.word }
      named := Function.update s.named (handleBits s.table.id i slot.gen) (some (obj, kind)) } := by
  have inside := (List.getElem?_eq_some_iff.mp found).1
  have here : (s.table.slots.set i { slot with obj := some obj, word := kind })[i]? =
      some { slot with obj := some obj, word := kind } := List.getElem?_set_self inside
  have other : ∀ j ≠ i, (s.table.slots.set i { slot with obj := some obj, word := kind })[j]? =
      s.table.slots[j]? := fun j ne => List.getElem?_set_ne ne.symm
  refine ⟨sound.id, by simpa using sound.bound, ?_, ?_, ?_, ?_⟩
  · intro j later at_
    by_cases same : j = i
    · subst same
      obtain rfl := Option.some.inj (here.symm.trans at_)
      exact sound.gen j slot found
    · exact sound.gen j later ((other j same).symm.trans at_)
  · intro j beyond
    exact sound.fresh j (by simpa using beyond)
  · refine sound.named_update (sound.inside found) here rfl other fun old at_ => ?_
    rwa [← Option.some.inj (found.symm.trans at_)]
  · obtain ⟨l, chain, members⟩ := sound.free
    rw [link] at chain
    obtain ⟨m, rfl, behind⟩ := Library.Chain.some_iff.mp chain
    have outside := (nodup_cons.mp chain.nodup).1
    have next : vacantNext s.table.slots i = vacantLink slot.word := by
      rw [vacantNext, found, Option.bind_some]
    rw [next] at behind
    refine ⟨m, behind.congr fun j mem => ?_, fun j => ?_⟩
    · have ne : j ≠ i := by
        rintro rfl
        exact outside mem
      rw [vacantNext, vacantNext]
      exact congrArg (Option.bind · _) (other j ne)
    · have before := members j
      rw [mem_cons] at before
      by_cases same : j = i
      · subst same
        constructor
        · exact fun mem => absurd mem outside
        · rintro ⟨later, at_, none_⟩
          obtain rfl := Option.some.inj (here.symm.trans at_)
          cases none_
      · change j ∈ m ↔ ∃ slot', (s.table.slots.set i _)[j]? = some slot' ∧ _
        rw [other j same, ← before, or_iff_right same]

/-- A slot never used before, for a new handle. -/
theorem Sound.handle_fresh (sound : Sound s) {obj : α} {cap : Nat} (room : s.table.slots.length < slotsMax) :
    Sound { s with
      table := { s.table with
        slots := s.table.slots ++ [{ obj := some obj, gen := 1, word := kind }]
        slotsCap := cap }
      named := Function.update s.named (handleBits s.table.id s.table.slots.length 1) (some (obj, kind)) } := by
  have here : (s.table.slots ++ [{ obj := some obj, gen := 1, word := kind }])[s.table.slots.length]? =
      some { obj := some obj, gen := 1, word := kind } := by simp
  have none_ : s.table.slots[s.table.slots.length]? = none := List.getElem?_eq_none (Nat.le_refl _)
  have other : ∀ j ≠ s.table.slots.length,
      (s.table.slots ++ [{ obj := some obj, gen := 1, word := kind }])[j]? = s.table.slots[j]? := by
    intro j ne
    rcases Nat.lt_or_ge j s.table.slots.length with less | more
    · exact List.getElem?_append_left less
    · rw [List.getElem?_eq_none more, List.getElem?_eq_none]
      rw [length_append, length_singleton]
      omega
  refine ⟨sound.id, ?_, ?_, ?_, ?_, ?_⟩
  · change (s.table.slots ++ [_]).length ≤ slotsMax
    rw [length_append, length_singleton]
    exact room
  · intro j later at_
    by_cases same : j = s.table.slots.length
    · subst same
      obtain rfl := Option.some.inj (here.symm.trans at_)
      change 1 = s.frees s.table.slots.length % _ + 1
      rw [sound.fresh _ (Nat.le_refl _)]
      rfl
    · exact sound.gen j later ((other j same).symm.trans at_)
  · intro j beyond
    apply sound.fresh j
    change (s.table.slots ++ [_]).length ≤ j at beyond
    rw [length_append] at beyond
    omega
  · refine sound.named_update room here rfl other fun old at_ => ?_
    cases none_.symm.trans at_
  · obtain ⟨l, chain, members⟩ := sound.free
    change Library.Chain (vacantNext s.table.slots) _ l at chain
    refine ⟨l, chain.congr fun j mem => ?_, fun j => ?_⟩
    · obtain ⟨slot, found, -⟩ := (members j).mp mem
      have ne : j ≠ s.table.slots.length := by
        rintro rfl
        cases none_.symm.trans found
      rw [vacantNext, vacantNext]
      exact congrArg (Option.bind · _) (other j ne)
    · by_cases same : j = s.table.slots.length
      · subst same
        constructor
        · intro mem
          obtain ⟨slot, found, -⟩ := (members _).mp mem
          cases none_.symm.trans found
        · rintro ⟨later, at_, free⟩
          obtain rfl := Option.some.inj (here.symm.trans at_)
          cases free
      · change j ∈ l ↔ ∃ slot, (s.table.slots ++ [_])[j]? = some slot ∧ _
        rw [other j same]
        exact members j

theorem toNat_nextGen {gen : UInt32} {n : Nat} (counts : gen.toNat = n % (2 ^ 32 - 1) + 1) :
    (gen + (1 + if gen = 0xffffffff then 1 else 0)).toNat = (n + 1) % (2 ^ 32 - 1) + 1 := by
  by_cases last : gen = 0xffffffff
  · subst last
    have whole : n % (2 ^ 32 - 1) = 2 ^ 32 - 2 := by
      change 2 ^ 32 - 1 = _ at counts
      omega
    rw [if_pos rfl, Nat.add_mod, whole]
    rfl
  · have less : gen.toNat ≠ 2 ^ 32 - 1 := fun same => last (UInt32.toNat_inj.mp same)
    have bound := gen.toNat_lt
    rw [if_neg last, UInt32.add_zero, UInt32.toNat_add]
    change (gen.toNat + 1) % 2 ^ 32 = _
    omega

/-- What `loop_forget` makes of a slot. -/
def LoopSlot.freed (slot : LoopSlot α) (vacant : UInt32) : LoopSlot α :=
  { obj := none, gen := slot.gen + (1 + if slot.gen = 0xffffffff then 1 else 0), word := vacant }

theorem loopForget_of_slotOf {i : Nat}
    (slotOf : loopSlotOf t h = some i) (found : t.slots[i]? = some slot) : loopForget t h =
      { t with slots := t.slots.set i (slot.freed t.vacant), vacant := UInt32.ofNat i + 1 } := by
  rw [loopForget, slotOf]
  dsimp only
  rw [found]
  rfl

theorem vacantLink_succ {i : Nat} (inside : i < slotsMax) : vacantLink (UInt32.ofNat i + 1) = some i := by
  change i < 2 ^ 24 at inside
  have value : (UInt32.ofNat i + 1).toNat = i + 1 := by
    rw [UInt32.toNat_add, UInt32.toNat_ofNat']
    change (i % 2 ^ 32 + 1) % 2 ^ 32 = i + 1
    omega
  have some_ : UInt32.ofNat i + 1 ≠ 0 := by
    intro zero
    rw [zero] at value
    cases value
  have back : UInt32.ofNat i + 1 - 1 = UInt32.ofNat i := by simp
  rw [vacantLink, if_neg some_, back, UInt32.toNat_ofNat', Nat.mod_eq_of_lt (by omega)]

/-- The slot of a handle freed. -/
theorem Sound.forget_some (sound : Sound s) {i : Nat} (slotOf : loopSlotOf s.table h = some i) :
    Sound {
      table := loopForget s.table h
      named := Function.update s.named h none
      frees := Function.update s.frees i (s.frees i + 1) } := by
  obtain ⟨slot, o, found, names, named, bits⟩ := sound.slotOf.mp slotOf
  have inside := (List.getElem?_eq_some_iff.mp found).1
  rw [loopForget_of_slotOf slotOf found]
  have here : (s.table.slots.set i (slot.freed s.table.vacant))[i]? =
      some (slot.freed s.table.vacant) := List.getElem?_set_self inside
  have other : ∀ j ≠ i, (s.table.slots.set i (slot.freed s.table.vacant))[j]? = s.table.slots[j]? :=
    fun j ne => List.getElem?_set_ne ne.symm
  refine ⟨sound.id, by simpa using sound.bound, ?_, ?_, ?_, ?_⟩
  · intro j later at_
    by_cases same : j = i
    · subst same
      obtain rfl := Option.some.inj (here.symm.trans at_)
      change _ = Function.update s.frees j (s.frees j + 1) j % _ + 1
      rw [Function.update_self]
      exact toNat_nextGen (sound.gen j slot found)
    · change later.gen.toNat = Function.update s.frees i (s.frees i + 1) j % _ + 1
      rw [Function.update_of_ne same]
      exact sound.gen j later ((other j same).symm.trans at_)
  · intro j beyond
    have ne : j ≠ i := by
      rintro rfl
      simp only [length_set] at beyond
      omega
    change Function.update s.frees i (s.frees i + 1) j = 0
    rw [Function.update_of_ne ne]
    exact sound.fresh j (by simpa using beyond)
  · intro g p k
    change Function.update s.named h none g = _ ↔
      ∃ j later, (s.table.slots.set i (slot.freed s.table.vacant))[j]? = some later ∧
        later.obj = some p ∧ later.word = k ∧ g = handleBits s.table.id j later.gen
    by_cases same : g = h
    · subst same
      rw [Function.update_self]
      constructor
      · intro none_
        cases none_
      · rintro ⟨j, later, at_, is_, -, equal⟩
        have ne : j ≠ i := by
          rintro rfl
          obtain rfl := Option.some.inj (here.symm.trans at_)
          cases is_
        have before := (other j ne).symm.trans at_
        have index := sound.index before
        rw [← equal, bits, sound.index found] at index
        exact absurd index.symm ne
    · rw [Function.update_of_ne same, sound.named]
      constructor
      · rintro ⟨j, later, at_, is_, kind, equal⟩
        have ne : j ≠ i := by
          rintro rfl
          obtain rfl := Option.some.inj (found.symm.trans at_)
          exact same (equal.trans bits.symm)
        exact ⟨j, later, (other j ne).trans at_, is_, kind, equal⟩
      · rintro ⟨j, later, at_, is_, kind, equal⟩
        have ne : j ≠ i := by
          rintro rfl
          obtain rfl := Option.some.inj (here.symm.trans at_)
          cases is_
        exact ⟨j, later, (other j ne).symm.trans at_, is_, kind, equal⟩
  · obtain ⟨l, chain, members⟩ := sound.free
    have outside : i ∉ l := by
      intro mem
      obtain ⟨again, at_, free⟩ := (members i).mp mem
      obtain rfl := Option.some.inj (found.symm.trans at_)
      cases free.symm.trans names
    refine ⟨i :: l, ?_, fun j => ?_⟩
    · rw [vacantLink_succ (sound.inside found)]
      refine ⟨rfl, ?_⟩
      have next : vacantNext (s.table.slots.set i (slot.freed s.table.vacant)) i = vacantLink s.table.vacant := by
        rw [vacantNext, here]
        rfl
      change Library.Chain _ (vacantNext (s.table.slots.set i (slot.freed s.table.vacant)) i) l
      rw [next]
      refine chain.congr fun j mem => ?_
      have ne : j ≠ i := by
        rintro rfl
        exact outside mem
      rw [vacantNext, vacantNext]
      exact congrArg (Option.bind · _) (other j ne)
    · rw [mem_cons]
      by_cases same : j = i
      · subst same
        exact iff_of_true (.inl rfl) ⟨_, here, rfl⟩
      · rw [or_iff_right same]
        change j ∈ l ↔ ∃ later, (s.table.slots.set i (slot.freed s.table.vacant))[j]? = some later ∧ _
        rw [other j same]
        exact members j

/-- Each call keeps the table sound. -/
theorem Sound.step (sound : Sound s) {e : HandleEvent α} (step : HandleStep s e s') : Sound s' := by
  cases step with
  | handle named =>
    rcases sound.handle_cases named with ⟨i, slot, link, found, free, rfl, rfl⟩ | ⟨-, room, rfl, cap, rfl⟩
    · exact sound.handle_vacant link found free
    · exact sound.handle_fresh room
  | full none_ =>
    rw [loopHandle_none none_]
    exact sound
  | forget h =>
    cases slotOf : loopSlotOf s.table h with
    | some i =>
      obtain ⟨slot, o, found, -, named, bits⟩ := sound.slotOf.mp slotOf
      have index : handleSlot h = i := bits ▸ sound.index found
      rw [if_pos (by rw [named]; rfl), index]
      exact sound.forget_some slotOf
    | none =>
      have names : s.named h = none := by
        by_contra some_
        obtain ⟨pair, named⟩ := Option.ne_none_iff_exists'.mp some_
        obtain ⟨i, slot, here, names, -, same⟩ := (sound.named h pair.1 pair.2).mp named
        have again := (loopSlotOf_iff sound.id sound.bound).mpr ⟨slot, pair.1, here, names, same⟩
        cases slotOf.symm.trans again
      have still : Function.update s.named h none = s.named := by
        rw [← names, Function.update_eq_self]
      rw [names, still, if_neg (by simp), sound.forget_none names]
      exact sound

/-- A new handle named nothing. -/
theorem Sound.given_none (sound : Sound s) {memory : Bool} {obj : α}
    (given : loopHandle memory s.table obj kind = (t, some h)) : s.named h = none := by
  by_contra some_
  obtain ⟨pair, named⟩ := Option.ne_none_iff_exists'.mp some_
  obtain ⟨j, slot', at_, is_, -, bits⟩ := (sound.named h pair.1 pair.2).mp named
  have index : handleSlot h = j := bits ▸ sound.index at_
  rcases sound.handle_cases given with ⟨i, slot, -, found, free, rfl, -⟩ | ⟨-, room, rfl, -, -⟩
  · rw [sound.index found] at index
    subst index
    obtain rfl := Option.some.inj (found.symm.trans at_)
    cases free.symm.trans is_
  · have fresh := ((handleBits_iff sound.id room).mp (rfl : _ = handleBits s.table.id _ 1)).2.1
    rw [fresh] at index
    subst index
    cases (List.getElem?_eq_none (Nat.le_refl _)).symm.trans at_

variable {es : List (HandleEvent α)}

theorem Sound.run (sound : Sound s) (run : Library.Trace HandleStep s es s') : Sound s' :=
  run.invariant sound fun _ _ _ sound step => sound.step step

/-- A handle names what it was given for until it is forgotten. -/
theorem Sound.stays (sound : Sound s) {pair : α × UInt32} (named : s.named h = some pair)
    (run : Library.Trace HandleStep s es s') (kept : .forgotten h ∉ es) : s'.named h = some pair := by
  induction run with
  | nil => exact named
  | snoc run step ih =>
    rw [mem_append, not_or, mem_singleton] at kept
    have before := ih kept.1
    cases step with
    | @handle _ _ _ _ g given =>
      have ne : h ≠ g := by
        rintro rfl
        cases before.symm.trans ((sound.run run).given_none given)
      exact (Function.update_of_ne ne ..).trans before
    | full => exact before
    | forget g =>
      have ne : h ≠ g := by
        rintro rfl
        exact kept.2 rfl
      exact (Function.update_of_ne ne ..).trans before

theorem HandleStep.frees_le {e : HandleEvent α} (step : HandleStep s e s') (i : Nat) : s.frees i ≤ s'.frees i := by
  cases step with
  | handle | full => exact Nat.le_refl _
  | forget h =>
    dsimp only
    split
    · by_cases same : i = handleSlot h
      · rw [same, Function.update_self]
        exact Nat.le_succ _
      · rw [Function.update_of_ne same]
    · exact Nat.le_refl _

/-- A handle that was forgotten names nothing until its slot's generation went through all values. -/
theorem Sound.forgotten (sound : Sound s) (named : s.named h ≠ none) {t s' : HandleStory α}
    (step : HandleStep s (.forgotten h) t) (run : Library.Trace HandleStep t es s')
    (less : s'.frees (handleSlot h) < s.frees (handleSlot h) + (2 ^ 32 - 1)) : s'.named h = none := by
  by_contra some_
  have later := (sound.step step).run run
  obtain ⟨pair, before⟩ := Option.ne_none_iff_exists'.mp named
  obtain ⟨pair', after⟩ := Option.ne_none_iff_exists'.mp some_
  obtain ⟨i, slot, found, -, -, bits⟩ := (sound.named h pair.1 pair.2).mp before
  obtain ⟨j, slot', found', -, -, bits'⟩ := (later.named h pair'.1 pair'.2).mp after
  have index := (handleBits_iff sound.id (sound.inside found)).mp bits
  have index' := (handleBits_iff later.id (later.inside found')).mp bits'
  have gen := sound.gen i slot found
  have gen' := later.gen j slot' found'
  rw [← index.2.2, ← index.2.1] at gen
  rw [← index'.2.2, ← index'.2.1] at gen'
  have more : s.frees (handleSlot h) + 1 ≤ s'.frees (handleSlot h) := by
    have grows : t.frees (handleSlot h) ≤ s'.frees (handleSlot h) := by
      apply run.invariant (Nat.le_refl _)
      exact fun _ _ _ bound step => Nat.le_trans bound (step.frees_le _)
    cases step with
    | forget =>
      rw [before] at grows
      simpa using grows
  omega

/-- The chain of free slots is of those that no handle names, each once. -/
theorem Sound.vacant (sound : Sound s) :
    ∃ l, Library.Chain (vacantNext s.table.slots) (vacantLink s.table.vacant) l ∧ l.Nodup ∧
      ∀ i, i ∈ l ↔ i < s.table.slots.length ∧ ∀ h, s.named h ≠ none → handleSlot h ≠ i := by
  obtain ⟨l, chain, members⟩ := sound.free
  refine ⟨l, chain, chain.nodup, fun i => (members i).trans ?_⟩
  constructor
  · rintro ⟨slot, found, free⟩
    refine ⟨(List.getElem?_eq_some_iff.mp found).1, ?_⟩
    rintro h some_ rfl
    obtain ⟨pair, named⟩ := Option.ne_none_iff_exists'.mp some_
    obtain ⟨j, slot', at_, is_, -, bits⟩ := (sound.named h pair.1 pair.2).mp named
    have index : handleSlot h = j := bits ▸ sound.index at_
    rw [index] at found
    obtain rfl := Option.some.inj (found.symm.trans at_)
    cases free.symm.trans is_
  · rintro ⟨inside, unnamed⟩
    obtain ⟨slot, found⟩ : ∃ slot, s.table.slots[i]? = some slot :=
      ⟨_, List.getElem?_eq_getElem inside⟩
    refine ⟨slot, found, ?_⟩
    by_contra some_
    obtain ⟨o, names⟩ := Option.ne_none_iff_exists'.mp some_
    have named := (sound.named (handleBits s.table.id i slot.gen) o slot.word).mpr ⟨i, slot, found, names, rfl, rfl⟩
    exact unnamed _ (by simp [named]) (sound.index found)

/-- Handles, after any calls: a handle resolves to the object it was given for, of its kind alone, from
then until it is forgotten, and from there on to nothing unless its slot was freed as often as there are
generations; handles that name something have slots of their own; forgetting another changes nothing; the
chain of free slots is of those that no handle names; the table grows only where there is none; no
generation is 0; and no other loop's handle resolves. -/
theorem handles_resolve {id : UInt64} (small : id.toNat < 256) {es : List (HandleEvent α)}
    {s : HandleStory α} (run : Library.Trace HandleStep { table := { id } } es s) :
    (∀ h kind, loopLookup s.table h kind = (s.named h).bind fun (o, k) => if k = kind then some o else none) ∧
      (∀ h obj kind t fs s', HandleStep s (.given h obj kind) t → Library.Trace HandleStep t fs s' → .forgotten h ∉ fs →
        ∀ k, loopLookup s'.table h k = if kind = k then some obj else none) ∧
      (∀ h t fs s', s.named h ≠ none → HandleStep s (.forgotten h) t → Library.Trace HandleStep t fs s' →
        s'.frees (handleSlot h) < s.frees (handleSlot h) + (2 ^ 32 - 1) →
        (∀ kind, loopLookup s'.table h kind = none) ∧ loopForget s'.table h = s'.table) ∧
      (∀ h h', s.named h ≠ none → s.named h' ≠ none → handleSlot h = handleSlot h' → h = h') ∧
      (∀ h, s.named h = none → loopForget s.table h = s.table) ∧
      (∃ l, Library.Chain (vacantNext s.table.slots) (vacantLink s.table.vacant) l ∧ l.Nodup ∧
        (∀ i, i ∈ l ↔ i < s.table.slots.length ∧ ∀ h, s.named h ≠ none → handleSlot h ≠ i) ∧ ∀ memory obj kind,
          s.table.slots.length < (loopHandle memory s.table obj kind).1.slots.length → l = []) ∧
      (∀ slot ∈ s.table.slots, slot.gen ≠ 0) ∧ ∀ h : UInt64, h >>> 56 ≠ id →
        (∀ kind, loopLookup s.table h kind = none) ∧ loopForget s.table h = s.table := by
  have start : Sound ({ table := { id } } : HandleStory α) := .start small
  have sound := start.run run
  have own : s.table.id = id := by
    apply run.invariant
    · rfl
    · exact fun _ _ _ same step => step.id.trans same
  refine ⟨sound.lookup, ?_, ?_, fun h h' => sound.distinct, fun h => sound.forget_none, ?_, ?_, ?_⟩
  · intro h obj kind t fs s' step rest kept k
    have named : t.named h = some (obj, kind) := by
      cases step with
      | handle => exact Function.update_self ..
    rw [((sound.step step).run rest).lookup, (sound.step step).stays named rest kept]
    rfl
  · intro h t fs s' named step rest less
    have later := (sound.step step).run rest
    have none_ := sound.forgotten named step rest less
    refine ⟨fun kind => ?_, later.forget_none none_⟩
    rw [later.lookup, none_]
    rfl
  · obtain ⟨l, chain, distinct, members⟩ := sound.vacant
    refine ⟨l, chain, distinct, members, fun memory obj kind grows => ?_⟩
    cases answer : loopHandle memory s.table obj kind with
    | mk t given =>
      rw [answer] at grows
      cases given with
      | none =>
        rw [loopHandle_none answer] at grows
        exact absurd grows (Nat.lt_irrefl _)
      | some h =>
        rcases sound.handle_cases answer with ⟨i, slot, -, -, -, -, rfl⟩ | ⟨link, -⟩
        · simp at grows
        · exact chain.eq_nil_iff.mpr link
  · intro slot mem
    obtain ⟨i, found⟩ := mem_iff_getElem?.mp mem
    exact sound.gen_ne found
  · intro h other
    have none_ : loopSlotOf s.table h = none := by
      rw [loopSlotOf]
      exact if_pos (own.symm ▸ other)
    refine ⟨fun kind => ?_, ?_⟩
    · rw [loopLookup, none_]
    · rw [loopForget, none_]

/-- A handle of the only slot, forgotten and given again with the next generation. -/
theorem handles_resolve_again :
    (∀ k, loopLookup (loopHandle true ({ id := 7 } : HandleTable Nat) 5 1).1 (handleBits 7 0 1) k =
      if 1 = k then some 5 else none) ∧
      (loopHandle true (loopForget (loopHandle true ({ id := 7 } : HandleTable Nat) 5 1).1
        (handleBits 7 0 1)) 6 1).2 = some (handleBits 7 0 2) := by
  have small : (7 : UInt64).toNat < 256 := by decide
  let s : HandleStory Nat := { table := { id := 7 } }
  have none_ : Library.Trace HandleStep s [] s := .nil
  have given := handles_resolve small none_
  refine ⟨fun k => ?_, by decide⟩
  have step := HandleStep.handle (show loopHandle true s.table 5 1 = (_, some (handleBits 7 0 1)) from rfl)
  exact given.2.1 _ 5 1 _ [] _ step .nil (by simp) k

end Handles

end Askai
