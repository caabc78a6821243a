import Askai.Util.DstrText

/-!
# Any calls on any dynamic strings

A `struct dstr` is a byte string, whatever the calls and whichever allocations fail.
-/

namespace Askai

open Library List

/-- Text that has a size. -/
abbrev SizedText := { text : Bytes // text.length < sizeTop }

/-- Objects, and the memory that they own blocks of. -/
structure Dstrs where
  objs : Nat → Bytes
  arena : Arena

/-- A call of one of the functions. -/
inductive DstrCall where
  | dstr (i : Nat) (src : Option SizedText)
  | catN (i : Nat) (text : SizedText)
  | catNull (i len : Nat)
  | cat (i : Nat) (src : Option SizedText)
  | printf (i : Nat) (print : DstrPrint)
  | reserve (i : Nat) (len : Fin sizeTop)
  | erase (i pos len : Nat)
  | clear (i : Nat)
  | move (i j : Nat)
  | cleanup (i : Nat)
  | resize (i blocks : Nat)

/-- A source as `dstr` and `dstr_cat` read it, up to its first NUL. -/
def srcText (src : Option SizedText) : Option Bytes :=
  src.map Subtype.val

namespace DstrCall

variable (A : Allocator sizeTop) (S : DstrSize)

/-- The objects after the `i`th has changed. -/
def put (w : Dstrs) (i : Nat) (r : Bytes × Arena) : Dstrs :=
  ⟨Function.update w.objs i r.1, r.2⟩

/-- What a call leaves, and whether it succeeds. -/
def run (w : Dstrs) : DstrCall → Bool × Dstrs
  | .dstr i src =>
    ((dstrInitN A (dstrInit S.size) (((srcText src).map cstr).getD []) w.arena).1.isNone,
      put w i (Askai.dstr A S.size (srcText src) w.arena))
  | .catN i text => (dstrCatN A (w.objs i) (some text.1) text.1.length w.arena).map id (put w i)
  | .catNull i len => (dstrCatN A (w.objs i) none len w.arena).map id (put w i)
  | .cat i src => (dstrCat A (w.objs i) (srcText src) w.arena).map id (put w i)
  | .printf i print => (dstrVprintf A (w.objs i) print w.arena).map Option.isNone (put w i)
  | .reserve i len => (dstrReserve A (w.objs i) len w.arena).map id (put w i)
  | .erase i pos len => (dstrErase (w.objs i) pos len w.arena).map id (put w i)
  | .clear i => (dstrClear (w.objs i) w.arena).map id (put w i)
  | .move i j =>
    (true, ⟨Function.update (Function.update w.objs i (dstrMove (w.objs i)).2) j (dstrMove (w.objs i)).1, w.arena⟩)
  | .cleanup i => (true, put w i (dstrCleanup (w.objs i) w.arena))
  | .resize i blocks => (dstrResize A (w.objs i) blocks w.arena).map Option.isNone (put w i)

/-- What the call does to strings that are lists of bytes, where `ok` is whether it succeeds. -/
def spec (strings : Nat → Bytes) (ok : Bool) : DstrCall → Nat → Bytes
  | .dstr i src => Function.update strings i (if ok then ((srcText src).map cstr).getD [] else [])
  | .catN i text => if ok then Function.update strings i (strings i ++ text.1) else strings
  | .catNull _ _ => strings
  | .cat i src => if ok then Function.update strings i (strings i ++ ((srcText src).map cstr).getD []) else strings
  | .printf i print => if ok then Function.update strings i (strings i ++ print.text.getD []) else strings
  | .reserve _ _ => strings
  | .erase i pos len => if ok then Function.update strings i (erased (strings i) pos len) else strings
  | .clear i => Function.update strings i []
  | .move i j => Function.update (Function.update strings i []) j (strings i)
  | .cleanup i => Function.update strings i []
  | .resize i blocks => if ok then Function.update strings i ((strings i).take (dstrFit S.size blocks)) else strings

/-- Why a call can fail. -/
def Fails (w : Dstrs) (strings : Nat → Bytes) : DstrCall → Prop
  | .dstr _ src =>
    dstrBlkCountMask < (((srcText src).map cstr).getD []).length / 256 + 1 ∨
      A.place w.arena.memory w.arena.calls (((((srcText src).map cstr).getD []).length / 256 + 1) * dstrBlkSize) = none
  | .catN i text => DstrFull A w.arena.calls (w.objs i) text.1.length false
  | .catNull _ len => len ≠ 0
  | .cat i src => DstrFull A w.arena.calls (w.objs i) (((srcText src).map cstr).getD []).length false
  | .printf i print => print.text = none ∨ ∃ len ∈ print.measured, DstrFull A w.arena.calls (w.objs i) len false
  | .reserve i len => DstrFull A w.arena.calls (w.objs i) len true
  | .erase i pos _ => (strings i).length < pos
  | .clear _ => False
  | .move _ _ => False
  | .cleanup _ => False
  | .resize _ blocks => dstrBlkCountMask < blocks ∨ ∃ m, A.place m w.arena.calls (blocks * dstrBlkSize) = none

end DstrCall

/-- The objects are those of the strings: each is legal, and no two own one block. -/
structure DstrsOf (S : DstrSize) (w : Dstrs) (strings : Nat → Bytes) : Prop where
  settled : w.arena.memory.Settled sizeTop
  owned : ∃ owns : Nat → Option Nat, (∀ i, DstrLegal S w.arena.memory (strings i) (w.objs i) (owns i)) ∧
    ∀ i j p, i ≠ j → owns i = some p → owns j ≠ some p

section Runs

variable {A : Allocator sizeTop} {S : DstrSize} {w : Dstrs} {strings : Nat → Bytes}

theorem DstrLeads.unowned {m m' : RawMemory} {own : Option Nat} {raw s : Bytes} (leads : DstrLeads S m none m' raw s) :
    DstrLeads S m own m' raw s := by
  obtain ⟨own', legal, change⟩ := leads
  refine ⟨own', legal, change.settled, fun q k is _ => change.kept q k is nofun, fun p mine => .inr ?_⟩
  exact (change.fresh p mine).resolve_left nofun

/-- What one object does keeps the others. -/
theorem DstrsOf.put (sound : DstrsOf S w strings) (i : Nat) {raw s' : Bytes} {after : Arena}
    (leads : ∀ own, DstrLegal S w.arena.memory (strings i) (w.objs i) own →
      DstrLeads S w.arena.memory own after.memory raw s') :
    DstrsOf S (DstrCall.put w i (raw, after)) (Function.update strings i s') := by
  obtain ⟨settled, owns, legal, apart⟩ := sound
  obtain ⟨own', legal', change⟩ := leads _ (legal i)
  refine ⟨change.settled, Function.update owns i own', fun j => ?_, fun j k p differ mine theirs => ?_⟩
  · by_cases same : j = i
    · rw [same, DstrCall.put]
      dsimp only
      rw [Function.update_self, Function.update_self, Function.update_self]
      exact legal'
    · rw [DstrCall.put]
      dsimp only
      rw [Function.update_of_ne same, Function.update_of_ne same, Function.update_of_ne same]
      exact (legal j).kept change fun p is => apart j i p same is
  · have other : ∀ j, j ≠ i → owns j = some p → own' ≠ some p := by
      intro j differ is mine
      obtain before | none_ := change.fresh p mine
      · exact apart j i p differ is before
      · have held := legal j
        rw [is] at held
        generalize w.objs j = raw at held
        cases held with
        | onHeap buf blocks n least most holds => exact nomatch holds.block.symm.trans none_
    by_cases mineIs : j = i
    · rw [mineIs, Function.update_self] at mine
      rw [Function.update_of_ne (fun is => differ (mineIs.trans is.symm))] at theirs
      exact other k (fun is => differ (mineIs.trans is.symm)) theirs mine
    · rw [Function.update_of_ne mineIs] at mine
      by_cases theirsIs : k = i
      · rw [theirsIs, Function.update_self] at theirs
        exact other j mineIs mine theirs
      · rw [Function.update_of_ne theirsIs] at theirs
        exact apart j k p differ mine theirs

/-- A call that leaves a string as it is. -/
theorem DstrsOf.same (sound : DstrsOf S w strings) (i : Nat) {raw : Bytes} {after : Arena}
    (leads : ∀ own, DstrLegal S w.arena.memory (strings i) (w.objs i) own →
      DstrLeads S w.arena.memory own after.memory raw (strings i)) :
    DstrsOf S (DstrCall.put w i (raw, after)) strings := by
  have put := sound.put i leads
  rw [Function.update_eq_self] at put
  exact put

/-- A call that makes another string of one, or fails and leaves it. -/
theorem DstrsOf.does (sound : DstrsOf S w strings) (i : Nat) {r : Bool × Bytes × Arena} {s' : Bytes} {why : Prop}
    (leads : ∀ own, DstrLegal S w.arena.memory (strings i) (w.objs i) own →
      match r with
      | (true, raw, after) => DstrLeads S w.arena.memory own after.memory raw s'
      | (false, raw, after) => DstrLeads S w.arena.memory own after.memory raw (strings i) ∧ why) :
    DstrsOf S (DstrCall.put w i r.2) (if r.1 then Function.update strings i s' else strings) ∧ (r.1 = false → why) := by
  obtain ⟨ok, raw, after⟩ := r
  cases ok with
  | true => exact ⟨sound.put i leads, nofun⟩
  | false =>
    obtain ⟨owns, legal, -⟩ := sound.owned
    exact ⟨sound.same i fun own legal => (leads own legal).1, fun _ => (leads _ (legal i)).2⟩

theorem DstrsOf.cats (sound : DstrsOf S w strings) (i : Nat) (text : Bytes) (size : text.length < sizeTop) :
    DstrsOf S (DstrCall.put w i (dstrCatN A (w.objs i) (some text) text.length w.arena).2)
        (if (dstrCatN A (w.objs i) (some text) text.length w.arena).1 then
          Function.update strings i (strings i ++ text) else strings) ∧
      ((dstrCatN A (w.objs i) (some text) text.length w.arena).1 = false →
        DstrFull A w.arena.calls (w.objs i) text.length false) := by
  apply sound.does i
  intro own legal
  have spec := dstrCatN_spec (A := A) sound.settled legal size
  rcases given : dstrCatN A (w.objs i) (some text) text.length w.arena with ⟨_ | _, raw, after⟩ <;>
    rw [given] at spec
  · obtain ⟨rfl, memory, -, full⟩ := spec
    dsimp only
    rw [memory]
    exact ⟨legal.stays sound.settled, full⟩
  · exact spec

/-- A string that moves takes its block with it. -/
theorem DstrsOf.move (sound : DstrsOf S w strings) (i j : Nat) :
    DstrsOf S ⟨Function.update (Function.update w.objs i (dstrMove (w.objs i)).2) j (dstrMove (w.objs i)).1, w.arena⟩
      (Function.update (Function.update strings i []) j (strings i)) := by
  obtain ⟨settled, owns, legal, apart⟩ := sound
  have least := S.least
  have other : ∀ k l p, k ≠ l → Function.update (Function.update owns i none) j (owns i) k = some p →
      (k = j ∧ owns i = some p) ∨ (k ≠ j ∧ k ≠ i ∧ owns k = some p) := by
    intro k l p differ is
    by_cases last : k = j
    · rw [last, Function.update_self] at is
      exact .inl ⟨last, is⟩
    · rw [Function.update_of_ne last] at is
      by_cases first : k = i
      · rw [first, Function.update_self] at is
        exact nomatch is
      · rw [Function.update_of_ne first] at is
        exact .inr ⟨last, first, is⟩
  refine ⟨settled, Function.update (Function.update owns i none) j (owns i), fun k => ?_, fun k l p differ is is' => ?_⟩
  · dsimp only
    by_cases last : k = j
    · rw [last, Function.update_self, Function.update_self, Function.update_self, dstrMove]
      exact legal i
    · rw [Function.update_of_ne last, Function.update_of_ne last, Function.update_of_ne last]
      by_cases first : k = i
      · rw [first, Function.update_self, Function.update_self, Function.update_self, dstrMove, (legal i).length]
        exact .inPlace (by rw [length_nil]; omega)
      · rw [Function.update_of_ne first, Function.update_of_ne first, Function.update_of_ne first]
        exact legal k
  · obtain ⟨last, mine⟩ | ⟨last, first, mine⟩ := other k l p differ is
    · obtain ⟨last', -⟩ | ⟨-, first', theirs⟩ := other l k p differ.symm is'
      · exact differ (last.trans last'.symm)
      · exact apart i l p first'.symm mine theirs
    · obtain ⟨-, theirs⟩ | ⟨-, -, theirs⟩ := other l k p differ.symm is'
      · exact apart k i p first mine theirs
      · exact apart k l p differ mine theirs

theorem dstrCleanup_leads {own : Option Nat} {s raw : Bytes} {arena : Arena} (settled : arena.memory.Settled sizeTop)
    (legal : DstrLegal S arena.memory s raw own) :
    DstrLeads S arena.memory own (dstrCleanup raw arena).2.memory (dstrCleanup raw arena).1 [] := by
  have least := S.least
  rw [dstrCleanup, legal.length]
  refine ⟨none, .inPlace (by rw [length_nil]; omega), ?_⟩
  dsimp only
  cases legal with
  | inPlace short =>
    rw [dstrIsPtr_inPlace, if_neg nofun]
    exact .refl settled
  | onHeap buf blocks n _ most holds =>
    have nonnull := holds.nonnull settled
    have below := holds.below settled
    have inside := holds.inside
    rw [dstrIsPtr_onHeap, if_pos rfl, dstrUptr_zero_onHeap (by omega), dstrUptr_one_onHeap below, dstrFree,
      if_neg (by omega), if_pos (by omega), Nat.add_sub_cancel_left]
    have wiped := RawMemory.Change.write (i := 0) (b := zeros s.length) settled holds.block
      (by rw [length_replicate]; omega)
    exact wiped.trans (.release wiped.settled buf)

end Runs

/-- The text that was printed is the one that is appended, or none is. -/
theorem DstrPrint.printed (print : DstrPrint) {text : Bytes}
    (printed : print.text = some text ∨ print.measured = some 0 ∧ text = []) : print.text.getD [] = text := by
  obtain is | ⟨none_, rfl⟩ := printed
  · rw [is]
    rfl
  · rw [DstrPrint.text, none_]
    cases print.again with
    | none => rfl
    | some text =>
      dsimp only
      split
      · next empty => exact length_eq_zero_iff.mp empty
      · rfl

namespace DstrCall

variable {A : Allocator sizeTop} {S : DstrSize} {w : Dstrs} {strings : Nat → Bytes}

theorem length_cstr_le (src : Option SizedText) : (((srcText src).map cstr).getD []).length < sizeTop := by
  cases src with
  | none => exact Nat.two_pow_pos 64
  | some text =>
    change (cstr text.1).length < sizeTop
    exact Nat.lt_of_le_of_lt ( takeWhile_prefix _).length_le text.2

/-- What a call does, and why it can fail. -/
theorem run_spec (sound : DstrsOf S w strings) (call : DstrCall) :
    DstrsOf S (call.run A S w).2 (call.spec S strings (call.run A S w).1) ∧
      ((call.run A S w).1 = false → call.Fails A w strings) := by
  have settled := sound.settled
  have least := S.least
  cases call with
  | dstr i src =>
    cases src with
    | none =>
      refine ⟨sound.put i fun own legal => .unowned ⟨none, .inPlace ?_, .refl settled⟩, by rintro ⟨⟩⟩
      change 0 < S.size
      omega
    | some text =>
      obtain ⟨r, rIs⟩ : ∃ r, r = dstrInitN A (dstrInit S.size) (cstr text.1) w.arena := ⟨_, rfl⟩
      have spec := dstrInitN_spec (S := S) (A := A) settled (cstr text.1)
      change DstrsOf S (put w i (dstrInitN A (dstrInit S.size) (cstr text.1) w.arena).2) (Function.update strings i
        (if (dstrInitN A (dstrInit S.size) (cstr text.1) w.arena).1.isNone then cstr text.1 else [])) ∧
          ((dstrInitN A (dstrInit S.size) (cstr text.1) w.arena).1.isNone = false → _)
      rw [← rIs] at spec ⊢
      obtain ⟨e, raw, after⟩ := r
      cases e with
      | none => exact ⟨sound.put i fun own legal => .unowned spec, by simp⟩
      | some e =>
        obtain ⟨rfl, memory, full⟩ := spec
        refine ⟨sound.put i fun own legal => .unowned ?_, fun _ => full⟩
        rw [memory]
        exact ⟨none, .inPlace (by change 0 < S.size; omega), .refl settled⟩
  | catN i text => exact sound.cats i text.1 text.2
  | catNull i len =>
    refine ⟨?_, ?_⟩
    · change DstrsOf S (put w i (dstrCatN A (w.objs i) none len w.arena).2) strings
      rw [dstrCatN]
      split
      · exact sound.same i fun own legal => legal.stays settled
      · exact sound.same i fun own legal => legal.stays settled
    · change (dstrCatN A (w.objs i) none len w.arena).1 = false → len ≠ 0
      rintro fails rfl
      cases fails
  | cat i src =>
    cases src with
    | none =>
      refine ⟨?_, by rintro ⟨⟩⟩
      have same := sound.put i fun own legal => legal.stays settled
      change DstrsOf S (put w i (w.objs i, w.arena)) (Function.update strings i (strings i ++ []))
      rw [append_nil]
      exact same
    | some text => exact sound.cats i (cstr text.1) (length_cstr_le (some text))
  | printf i print =>
    obtain ⟨r, rIs⟩ : ∃ r, r = dstrVprintf A (w.objs i) print w.arena := ⟨_, rfl⟩
    change DstrsOf S (put w i (dstrVprintf A (w.objs i) print w.arena).2)
      (if (dstrVprintf A (w.objs i) print w.arena).1.isNone then
        Function.update strings i (strings i ++ print.text.getD []) else strings) ∧
      ((dstrVprintf A (w.objs i) print w.arena).1.isNone = false → _)
    have spec own (legal : DstrLegal S w.arena.memory (strings i) (w.objs i) own) :=
      dstrVprintf_spec (A := A) settled legal print
    rw [← rIs] at spec ⊢
    obtain ⟨e, raw, after⟩ := r
    cases e with
    | none =>
      refine ⟨sound.put i fun own legal => ?_, by simp⟩
      obtain ⟨text, printed, leads⟩ := spec own legal
      rw [print.printed printed]
      exact leads
    | some e =>
      refine ⟨sound.same i fun own legal => (spec own legal).1, fun _ => ?_⟩
      obtain ⟨owns, legal, -⟩ := sound.owned
      refine (spec _ (legal i)).2.imp_right ?_
      rintro ⟨len, measured, _, full⟩
      exact ⟨len, measured, full⟩
  | reserve i len =>
    obtain ⟨r, rIs⟩ : ∃ r, r = dstrReserve A (w.objs i) len w.arena := ⟨_, rfl⟩
    change DstrsOf S (put w i (dstrReserve A (w.objs i) len w.arena).2) strings ∧
      ((dstrReserve A (w.objs i) len w.arena).1 = false → _)
    have spec own (legal : DstrLegal S w.arena.memory (strings i) (w.objs i) own) :=
      dstrReserve_room (A := A) settled legal len.isLt true
    rw [← dstrReserve, ← rIs] at spec
    rw [← rIs]
    obtain ⟨ok, raw, after⟩ := r
    cases ok with
    | true => exact ⟨sound.same i fun own legal => (spec own legal).1, by simp⟩
    | false =>
      refine ⟨sound.same i fun own legal => ?_, fun _ => ?_⟩
      · obtain ⟨rfl, memory, -⟩ := spec own legal
        rw [memory]
        exact legal.stays settled
      · obtain ⟨owns, legal, -⟩ := sound.owned
        exact (spec _ (legal i)).2.2.2
  | erase i pos len =>
    obtain ⟨r, rIs⟩ : ∃ r, r = dstrErase (w.objs i) pos len w.arena := ⟨_, rfl⟩
    change DstrsOf S (put w i (dstrErase (w.objs i) pos len w.arena).2)
      (if (dstrErase (w.objs i) pos len w.arena).1 then Function.update strings i (erased (strings i) pos len)
        else strings) ∧ ((dstrErase (w.objs i) pos len w.arena).1 = false → _)
    have spec own (legal : DstrLegal S w.arena.memory (strings i) (w.objs i) own) :=
      dstrErase_spec settled legal pos len
    rw [← rIs] at spec ⊢
    obtain ⟨ok, raw, after⟩ := r
    obtain ⟨owns, legals, -⟩ := sound.owned
    have oks := (spec _ (legals i)).1
    dsimp only at oks
    by_cases inside : pos ≤ (strings i).length
    · rw [decide_eq_true inside] at oks
      rw [oks]
      refine ⟨sound.put i fun own legal => ?_, by simp⟩
      have leads := (spec own legal).2
      rw [if_pos inside] at leads
      exact leads
    · rw [decide_eq_false inside] at oks
      rw [oks]
      refine ⟨sound.same i fun own legal => ?_, fun _ => Nat.not_le.mp inside⟩
      have leads := (spec own legal).2
      rw [if_neg inside] at leads
      exact leads
  | clear i =>
    have spec own (legal : DstrLegal S w.arena.memory (strings i) (w.objs i) own) :=
      dstrErase_spec settled legal 0 (sizeTop - 1)
    obtain ⟨owns, legals, -⟩ := sound.owned
    refine ⟨sound.put i fun own legal => ?_, fun fails => ?_⟩
    · have leads := (spec own legal).2
      have bounded := (legal.info settled).2.2.1
      rw [if_pos (Nat.zero_le _), erased, Nat.sub_zero, take_zero, nil_append, Nat.zero_add, drop_eq_nil_of_le] at leads
      · exact leads
      · exact Nat.le_min.mpr ⟨Nat.le_sub_one_of_lt bounded, le_refl _⟩
    · have oks := (spec _ (legals i)).1
      rw [decide_eq_true (Nat.zero_le _)] at oks
      cases oks.symm.trans fails
  | move i j => exact ⟨sound.move i j, by rintro ⟨⟩⟩
  | cleanup i => exact ⟨sound.put i fun own legal => dstrCleanup_leads settled legal, by rintro ⟨⟩⟩
  | resize i blocks =>
    obtain ⟨r, rIs⟩ : ∃ r, r = dstrResize A (w.objs i) blocks w.arena := ⟨_, rfl⟩
    change DstrsOf S (put w i (dstrResize A (w.objs i) blocks w.arena).2)
      (if (dstrResize A (w.objs i) blocks w.arena).1.isNone then
        Function.update strings i ((strings i).take (dstrFit S.size blocks)) else strings) ∧
      ((dstrResize A (w.objs i) blocks w.arena).1.isNone = false → _)
    have spec own (legal : DstrLegal S w.arena.memory (strings i) (w.objs i) own) :=
      dstrResize_spec (A := A) settled legal blocks
    rw [← rIs] at spec ⊢
    obtain ⟨e, raw, after⟩ := r
    cases e with
    | none => exact ⟨sound.put i fun own legal => spec own legal, by simp⟩
    | some e =>
      refine ⟨sound.same i fun own legal => ?_, fun _ => ?_⟩
      · obtain ⟨rfl, memory, -⟩ := spec own legal
        rw [memory]
        exact legal.stays settled
      · obtain ⟨owns, legal, -⟩ := sound.owned
        exact (spec _ (legal i)).2.2

end DstrCall

/-- What is read of a string through `dstr_get` and `dstr_len`, with its terminator. -/
def dstrRead (m : RawMemory) (raw : Bytes) : Bytes :=
  if dstrIsSso raw then raw.take (dstrSsoLen raw + 1) else m.read (dstrUptr raw 0) (dstrPtrLen raw + 1)

theorem DstrLegal.read {S : DstrSize} {m : RawMemory} {s raw : Bytes} {own : Option Nat} (settled : m.Settled sizeTop)
    (legal : DstrLegal S m s raw own) : dstrRead m raw = s ++ [0] := by
  rw [dstrRead]
  cases legal with
  | inPlace short =>
    rw [if_pos (dstrIsSso_inPlace short), dstrSsoLen_inPlace short, dstrInPlace, append_assoc, ← take_append_drop
      1 (zeros (S.size - 1 - s.length) ++ [_]), ← append_assoc, take_left']
    · cases S.size - 1 - s.length with
      | zero => rfl
      | succ k => rfl
    · rw [length_append, length_take_of_le]
      rw [length_append, length_singleton]
      exact Nat.le_add_left _ _
  | onHeap buf blocks n least most holds =>
    have below := holds.below settled
    have inside := holds.inside
    rw [dstrIsSso_onHeap, if_neg (by simp), dstrUptr_zero_onHeap (by omega), dstrPtrLen_onHeap below,
      read_take (n := blocks * dstrBlkSize) inside, holds.bytes, take_append, take_of_length_le (Nat.le_succ _),
      take_zeros]
    congr 1
    rw [show ([0] : Bytes) = zeros 1 from rfl]
    congr 1
    omega

/-- The objects and the strings after calls one after the other. -/
def dstrCalls (A : Allocator sizeTop) (S : DstrSize) (m : RawMemory) (calls : List DstrCall) : Dstrs × (Nat → Bytes) :=
  calls.foldl (fun state call =>
      ((call.run A S state.1).2, call.spec S state.2 (call.run A S state.1).1))
    (⟨fun _ => dstrInit S.size, ⟨m, 0⟩⟩, fun _ => [])

theorem dstrCalls_sound (A : Allocator sizeTop) (S : DstrSize) {m : RawMemory} (settled : m.Settled sizeTop)
    (calls : List DstrCall) : DstrsOf S (dstrCalls A S m calls).1 (dstrCalls A S m calls).2 := by
  induction calls using List.reverseRecOn with
  | nil =>
    have least := S.least
    refine ⟨settled, fun _ => none, fun i => .inPlace ?_, nofun⟩
    change 0 < S.size
    omega
  | append_singleton calls call ih =>
    rw [dstrCalls, foldl_append]
    exact (DstrCall.run_spec ih call).1

/-- A `struct dstr` is a byte string: after any calls on any strings, each with whichever outcome its allocation has,
each object is legal and reads as the list of bytes of its string with a NUL after it; a call fails for want of a
block or of a size, or of an argument; and a growth has room for what it is for, in whole steps, or leaves the object
as it was. -/
theorem dstrs_are_bytes (A : Allocator sizeTop) (S : DstrSize) (m : { m : RawMemory // m.Settled sizeTop })
    (calls : List DstrCall) :
    let w := (dstrCalls A S m.1 calls).1
    let strings := (dstrCalls A S m.1 calls).2
    DstrsOf S w strings ∧
      (∀ i, dstrRead w.arena.memory (w.objs i) = strings i ++ [0]) ∧
      (∀ call : DstrCall, (call.run A S w).1 = false → call.Fails A w strings) ∧
      ∀ (i : Nat) (len : Fin sizeTop) (exactly : Bool),
        match dstrGrow A (w.objs i) len exactly w.arena with
        | (none, raw, _) => (len ≤ (dstrInfo (w.objs i)).space → raw = w.objs i) ∧
            ((dstrInfo (w.objs i)).space < len →
              let n := (dstrInfo (w.objs i)).length + len
              let step := 2 ^ dstrShift (w.objs i) exactly
              DstrGrown (w.objs i) len exactly raw ∧ (dstrInfo raw).blocks = (n / (dstrBlkSize * step) + 1) * step ∧
                n < (dstrInfo raw).blocks * dstrBlkSize ∧
                (dstrInfo raw).blocks * dstrBlkSize ≤ n + step * dstrBlkSize)
        | (some _, raw, after) => raw = w.objs i ∧ after.memory = w.arena.memory := by
  have sound := dstrCalls_sound A S m.2 calls
  dsimp only
  generalize (dstrCalls A S m.1 calls).1 = w at sound ⊢
  generalize (dstrCalls A S m.1 calls).2 = strings at sound ⊢
  obtain ⟨owns, legal, -⟩ := sound.owned
  refine ⟨sound, fun i => (legal i).read sound.settled, fun call => (DstrCall.run_spec sound call).2,
    fun i len exactly => ?_⟩
  have spec := dstrGrow_spec (A := A) sound.settled (legal i) len.isLt exactly
  rcases given : dstrGrow A (w.objs i) len exactly w.arena with ⟨_ | e, raw, after⟩ <;>
    rw [given] at spec
  · obtain ⟨-, same, grown⟩ := spec
    refine ⟨same, fun short => ?_⟩
    have grown := grown short
    have low := dstrShift_le (w.objs i) exactly
    refine ⟨grown, ?_⟩
    rw [grown.blocks]
    exact ⟨dstrSteps_eq grown.fits low, (dstrSteps_least grown.fits low).2.2⟩
  · exact ⟨spec.1, spec.2.1⟩

end Askai
