import Askai.Plugin.File
import Mathlib.Tactic

/-!
# What a file has that is not refused

A file whose manifest is read is a shared object with one manifest among its notes and no state outside of instances;
and it is read without a sum that wraps and without a byte past its end.
-/

namespace Askai

open Library List

/-! ## Numbers -/

theorem length_part_le (bytes : Bytes) (off n : Nat) : (part bytes off n).length ≤ n :=
  length_take_le _ _

theorem word_lt (big : Bool) (bytes : Bytes) : word big bytes < 256 ^ bytes.length := by
  have all : ∀ (l : Bytes) (n : Nat), l.foldl (fun n b => n * 256 + b.toNat) n < (n + 1) * 256 ^ l.length := by
    intro l
    induction l with
    | nil =>
      intro n
      rw [foldl_nil, length_nil, pow_zero, Nat.mul_one]
      exact Nat.lt_succ_self n
    | cons b l ih =>
      intro n
      have small := b.toNat_lt
      rw [foldl_cons, length_cons]
      calc l.foldl (fun n b => n * 256 + b.toNat) (n * 256 + b.toNat)
          < (n * 256 + b.toNat + 1) * 256 ^ l.length := ih _
        _ ≤ ((n + 1) * 256) * 256 ^ l.length := Nat.mul_le_mul_right _ (by omega)
        _ = (n + 1) * 256 ^ (l.length + 1) := by rw [pow_succ]; ring
  rw [word]
  split
  · have less := all bytes 0
    rwa [Nat.zero_add, Nat.one_mul] at less
  · have less := all bytes.reverse 0
    rwa [Nat.zero_add, Nat.one_mul, length_reverse] at less

theorem word_part_lt (big : Bool) (bytes : Bytes) (off n : Nat) : word big (part bytes off n) < 256 ^ n :=
  (word_lt big _).trans_le (Nat.pow_le_pow_right (by decide) (length_part_le bytes off n))

theorem andNot_le (x mask : Nat) : andNot x mask ≤ x :=
  Nat.and_le_left

/-- A number without its last bits. -/
theorem andNot_eq {x k : Nat} (small : x < 2 ^ 64) (bits : k ≤ 64) : andNot x (2 ^ k - 1) = x / 2 ^ k * 2 ^ k := by
  have mask : 2 ^ 64 - 1 - (2 ^ k - 1) = (2 ^ (64 - k) - 1) * 2 ^ k := by
    have whole : 2 ^ 64 = 2 ^ (64 - k) * 2 ^ k := by rw [← pow_add, Nat.sub_add_cancel bits]
    have positive : 0 < 2 ^ k := Nat.two_pow_pos k
    rw [Nat.sub_mul, Nat.one_mul, whole]
    omega
  apply Nat.eq_of_testBit_eq
  intro i
  rw [andNot, mask, Nat.testBit_and, Nat.testBit_mul_two_pow, Nat.testBit_mul_two_pow, Nat.testBit_two_pow_sub_one,
    Nat.testBit_div_two_pow]
  by_cases low : k ≤ i
  · rw [decide_eq_true low, Bool.true_and, Bool.true_and, Nat.sub_add_cancel low]
    by_cases high : i < 64
    · rw [decide_eq_true (by omega), Bool.and_true]
    · have zero : x.testBit i = false :=
        Nat.testBit_lt_two_pow (small.trans_le (Nat.pow_le_pow_right (by decide) (Nat.not_lt.mp high)))
      rw [zero, Bool.false_and]
  · rw [decide_eq_false low, Bool.false_and, Bool.false_and, Bool.and_false]

theorem sum64_ok {a b : Nat} (fits : a + b < 2 ^ 64) : sum64 a b = .ok (a + b) :=
  if_pos fits

theorem bind_ok {ε α β : Type} (a : α) (f : α → Except ε β) : (Except.ok a >>= f) = f a := rfl

theorem bind_eq_ok {ε α β : Type} {x : Except ε α} {g : α → Except ε β} {b : β} :
    (x >>= g) = .ok b ↔ ∃ a, x = .ok a ∧ g a = .ok b := by
  cases x with
  | error e => exact ⟨nofun, nofun⟩
  | ok a => exact ⟨fun is => ⟨a, rfl, is⟩, fun ⟨_, same, is⟩ => Except.ok.inj same ▸ is⟩

theorem bind_eq_error {ε α β : Type} {x : Except ε α} {g : α → Except ε β} {e : ε} (is : (x >>= g) = .error e) :
    x = .error e ∨ ∃ a, x = .ok a ∧ g a = .error e := by
  cases x with
  | error e' => exact .inl (congrArg Except.error (Except.error.inj is))
  | ok a => exact .inr ⟨a, rfl, is⟩

/-! ## Reading -/

variable {big : Bool} {file : Bytes} {pad end_ off n : Nat}

theorem length_part (inside : off + n ≤ file.length) : (part file off n).length = n := by
  rw [part, length_take, length_drop]
  omega

/-- A read gets its bytes, or they do not lie before the end. -/
theorem pluginFileRead_eq (within : end_ ≤ file.length) :
    pluginFileRead file off end_ n = if off + n ≤ end_ then .ok (part file off n) else .error .malformed := by
  rw [pluginFileRead]
  by_cases inside : off + n ≤ end_
  · rw [if_neg (by omega), if_neg (by rw [length_part (inside.trans within)]; omega), if_pos inside]
  · rw [if_pos (by omega), if_neg inside]

/-! ## Notes -/

/-- A note: where it is, its header, and the segment it is in. -/
structure ElfNote where
  off : Nat
  namesz : Nat
  descsz : Nat
  type : Nat
  pad : Nat
  end_ : Nat

/-- The note at an offset. -/
def ElfNote.ofFile (big : Bool) (file : Bytes) (pad end_ off : Nat) : ElfNote where
  off := off
  namesz := word big (part (part file off 12) 0 4)
  descsz := word big (part (part file off 12) 4 4)
  type := word big (part (part file off 12) 8 4)
  pad := pad
  end_ := end_

namespace ElfNote

/-- Where the description starts. -/
def desc (note : ElfNote) : Nat :=
  note.off + andNot (note.namesz + note.pad + 12) note.pad

/-- Where the next note starts. -/
def next (note : ElfNote) : Nat :=
  note.desc + andNot (note.descsz + note.pad) note.pad

/-- The header is one of a manifest. -/
def Headed (note : ElfNote) : Prop :=
  note.type = manifestType ∧ note.namesz = askaiOwner.length

/-- The note is a manifest's. -/
def IsManifest (file : Bytes) (note : ElfNote) : Prop :=
  note.Headed ∧ part file (note.off + 12) askaiOwner.length = askaiOwner

instance (note : ElfNote) : Decidable note.Headed :=
  inferInstanceAs (Decidable (_ ∧ _))

instance (file : Bytes) (note : ElfNote) : Decidable (note.IsManifest file) :=
  inferInstanceAs (Decidable (_ ∧ _))

/-- The name of a note with such a header lies in its segment. -/
def Named (note : ElfNote) : Prop :=
  note.Headed → note.off + 12 + askaiOwner.length ≤ note.end_

/-- The description is a manifest that lies in the segment. -/
def Sized (note : ElfNote) : Prop :=
  note.descsz = manifestSize ∧ note.desc + manifestSize ≤ note.end_

end ElfNote

/-- The notes of a segment from an offset on. -/
inductive NoteWalk (big : Bool) (file : Bytes) (pad end_ : Nat) : Nat → List ElfNote → Prop
  | done {off : Nat} (past : end_ ≤ off) : NoteWalk big file pad end_ off []
  | note {off : Nat} {notes : List ElfNote} (inside : off + 12 ≤ end_)
      (rest : NoteWalk big file pad end_ (ElfNote.ofFile big file pad end_ off).next notes) :
      NoteWalk big file pad end_ off (ElfNote.ofFile big file pad end_ off :: notes)

/-- The paddings. -/
def Padding (pad : Nat) : Prop := pad = 3 ∨ pad = 7

theorem Padding.least (padding : Padding pad) {x : Nat} (small : x + pad < 2 ^ 64) : x ≤ andNot (x + pad) pad := by
  obtain rfl | rfl := padding
  · have is := andNot_eq (k := 2) small (by decide)
    change andNot _ 3 = _ at is
    rw [is]
    omega
  · have is := andNot_eq (k := 3) small (by decide)
    change andNot _ 7 = _ at is
    rw [is]
    omega

/-- The members of a note are 32 bits each, so what is computed of them is. -/
structure NoteBounds (note : ElfNote) : Prop where
  name : note.off + 12 < 2 ^ 64
  front : note.namesz + note.pad + 12 < 2 ^ 64
  back : note.descsz + note.pad < 2 ^ 64
  next : note.next < 2 ^ 64
  later : note.off + 12 ≤ note.next

variable (big file end_) in
theorem noteBounds (padding : Padding pad) (small : off + 12 < 2 ^ 63) :
    NoteBounds (ElfNote.ofFile big file pad end_ off) := by
  have name : (ElfNote.ofFile big file pad end_ off).namesz < 2 ^ 32 := word_part_lt big _ 0 4
  have descsz : (ElfNote.ofFile big file pad end_ off).descsz < 2 ^ 32 := word_part_lt big _ 4 4
  obtain ⟨note, noteIs⟩ : ∃ note, note = ElfNote.ofFile big file pad end_ off := ⟨_, rfl⟩
  have offIs : note.off = off := by rw [noteIs]; rfl
  have padIs : note.pad = pad := by rw [noteIs]; rfl
  rw [← noteIs] at name descsz ⊢
  have most : pad ≤ 7 := by
    obtain rfl | rfl := padding <;> omega
  have padded := Padding.least padding (x := note.namesz + 12) (by omega)
  have order : note.namesz + 12 + pad = note.namesz + pad + 12 := by omega
  rw [order] at padded
  have front_le := andNot_le (note.namesz + pad + 12) pad
  have back_le := andNot_le (note.descsz + pad) pad
  refine ⟨by omega, by omega, by omega, ?_, ?_⟩
  · rw [ElfNote.next, ElfNote.desc, padIs, offIs]
    omega
  · rw [ElfNote.next, ElfNote.desc, padIs, offIs]
    omega

/-- A file, as `fstat` gives its size. -/
def IsFile (file : Bytes) : Prop := file.length < 2 ^ 63

section Notes

variable {f f' : PluginFile} {fuel : Nat}

variable {note : ElfNote} {phs : List ElfPhdr} {e : PluginRefusal} {notes : List ElfNote}

/-- The body of the loop of `plugin_file_notes`. -/
theorem notes_step (isFile : IsFile file) (padding : Padding pad) (within : end_ ≤ file.length) (less : off < end_)
    (noteIs : note = ElfNote.ofFile big file pad end_ off) : pluginFileNotes big file pad end_ (fuel + 1) off f =
      if off + 12 ≤ end_ then
        if ¬ note.Headed then pluginFileNotes big file pad end_ fuel note.next f
        else if off + 12 + askaiOwner.length ≤ end_ then
          if ¬ note.IsManifest file then pluginFileNotes big file pad end_ fuel note.next f
          else if f.found ≠ 0 then .error .twice
          else if note.descsz ≠ manifestSize then .error .size
          else if note.desc + manifestSize ≤ end_ then
            pluginFileNotes big file pad end_ fuel note.next
              { f with found := f.found + 1, dest := part file note.desc manifestSize }
          else .error .malformed
        else .error .malformed
      else .error .malformed := by
  rw [IsFile] at isFile
  rw [pluginFileNotes, if_pos less, pluginFileRead_eq within]
  by_cases inside : off + 12 ≤ end_
  · have bounds := noteBounds big file end_ padding (show off + 12 < 2 ^ 63 by omega)
    have offIs : note.off = off := by rw [noteIs]; rfl
    have padIs : note.pad = pad := by rw [noteIs]; rfl
    rw [← noteIs] at bounds
    have namesz : word big (part (part file off 12) 0 4) = note.namesz := by rw [noteIs]; rfl
    have descsz : word big (part (part file off 12) 4 4) = note.descsz := by rw [noteIs]; rfl
    have type : word big (part (part file off 12) 8 4) = note.type := by rw [noteIs]; rfl
    have front := bounds.front
    have desc : off + andNot (note.namesz + pad + 12) pad = note.desc := by rw [ElfNote.desc, padIs, offIs]
    have next : note.desc + andNot (note.descsz + pad) pad = note.next := by rw [ElfNote.next, padIs]
    have next_lt := bounds.next
    have name := bounds.name
    have back := bounds.back
    rw [padIs] at front back
    rw [offIs] at name
    have desc_lt : note.desc < 2 ^ 64 := lt_of_le_of_lt (by rw [← next]; exact Nat.le_add_right _ _) next_lt
    have headed : (note.type ≠ manifestType ∨ note.namesz ≠ askaiOwner.length) ↔ ¬ note.Headed := by
      rw [ElfNote.Headed, not_and_or]
    have owner : pluginFileRead file (off + 12) end_ askaiOwner.length =
        if off + 12 + askaiOwner.length ≤ end_ then .ok (part file (off + 12) askaiOwner.length)
        else .error .malformed := pluginFileRead_eq within
    have dest : pluginFileRead file note.desc end_ manifestSize =
        if note.desc + manifestSize ≤ end_ then .ok (part file note.desc manifestSize) else .error .malformed :=
      pluginFileRead_eq within
    rw [if_pos inside, if_pos inside, bind_ok]
    dsimp only
    rw [namesz, descsz, type, sum64_ok name, bind_ok, sum64_ok (by omega), bind_ok, sum64_ok front, bind_ok,
      sum64_ok (by rw [desc]; exact desc_lt), bind_ok, sum64_ok back, bind_ok, desc,
      sum64_ok (by rw [next]; exact next_lt), bind_ok, next]
    by_cases kind : note.Headed
    · rw [if_neg (mt headed.mp (not_not.mpr kind)), if_neg (not_not.mpr kind), owner]
      by_cases named : off + 12 + askaiOwner.length ≤ end_
      · have manifest : part file (off + 12) askaiOwner.length ≠ askaiOwner ↔ ¬ note.IsManifest file := by
          rw [ElfNote.IsManifest, offIs, not_and]
          exact ⟨fun differs _ => differs, fun not => not kind⟩
        rw [if_pos named, if_pos named, bind_ok]
        simp only [manifest]
        split
        · rfl
        · split
          · rfl
          · split
            · rfl
            · rw [dest]
              split
              · rw [bind_ok]
              · rfl
      · rw [if_neg named, if_neg named]
        rfl
    · rw [if_pos (headed.mpr kind), if_pos kind]
  · rw [if_neg inside, if_neg inside]
    rfl

/-- A refusal of what the file has. -/
def PluginRefusal.OfFile (e : PluginRefusal) : Prop :=
  e ≠ .shorter ∧ e ≠ .wraps

theorem notes_error (isFile : IsFile file) (padding : Padding pad) (within : end_ ≤ file.length)
    (refused : pluginFileNotes big file pad end_ fuel off f = .error e) : e.OfFile := by
  induction fuel generalizing off f with
  | zero => exact nomatch refused
  | succ fuel ih =>
    by_cases less : off < end_
    · rw [notes_step isFile padding within less rfl] at refused
      split_ifs at refused
      all_goals first
        | exact ih refused
        | (obtain rfl := Except.error.inj refused; exact ⟨nofun, nofun⟩)
    · rw [pluginFileNotes, if_neg less] at refused
      exact nomatch refused

/-- The notes of manifests. -/
def manifestsOf (file : Bytes) (notes : List ElfNote) : List ElfNote :=
  notes.filter fun note => note.IsManifest file

/-- What is kept of notes. -/
def PluginFile.takes (file : Bytes) (f : PluginFile) (notes : List ElfNote) : PluginFile :=
  (manifestsOf file notes).foldl (fun f note =>
    { f with found := f.found + 1, dest := part file note.desc manifestSize }) f

/-- Notes that are not refused. -/
structure NotesPass (file : Bytes) (found : Nat) (notes : List ElfNote) : Prop where
  named : ∀ note ∈ notes, note.Named
  sized : ∀ note ∈ manifestsOf file notes, note.Sized
  most : manifestsOf file notes ≠ [] → found + (manifestsOf file notes).length ≤ 1

theorem manifestsOf_cons_of_pos (is : note.IsManifest file) (notes : List ElfNote) :
    manifestsOf file (note :: notes) = note :: manifestsOf file notes :=
  filter_cons_of_pos (decide_eq_true is)

theorem manifestsOf_cons_of_neg (not : ¬ note.IsManifest file) (notes : List ElfNote) :
    manifestsOf file (note :: notes) = manifestsOf file notes :=
  filter_cons_of_neg (by rw [decide_eq_false not]; exact Bool.false_ne_true)

/-- A note that is no manifest is passed. -/
theorem notes_skip (not : ¬ note.IsManifest file) (named : note.Named) (found : Nat)
    (notes : List ElfNote) : (NotesPass file found (note :: notes) ↔ NotesPass file found notes) ∧
      f.takes file (note :: notes) = f.takes file notes := by
  refine ⟨⟨fun pass => ?_, fun pass => ?_⟩, ?_⟩
  · obtain ⟨all, sized, most⟩ := pass
    rw [manifestsOf_cons_of_neg not] at sized most
    exact ⟨(forall_mem_cons.mp all).2, sized, most⟩
  · obtain ⟨all, sized, most⟩ := pass
    rw [← manifestsOf_cons_of_neg not] at sized most
    exact ⟨forall_mem_cons.mpr ⟨named, all⟩, sized, most⟩
  · rw [PluginFile.takes, manifestsOf_cons_of_neg not, PluginFile.takes]

/-- A note of a manifest is taken if there was none. -/
theorem notes_take (is : note.IsManifest file) (named : note.Named) (notes : List ElfNote) :
    (NotesPass file f.found (note :: notes) ↔ f.found = 0 ∧ note.Sized ∧ NotesPass file (f.found + 1) notes) ∧
      f.takes file (note :: notes) =
        PluginFile.takes file { f with found := f.found + 1, dest := part file note.desc manifestSize } notes := by
  refine ⟨⟨fun pass => ?_, fun pass => ?_⟩, ?_⟩
  · obtain ⟨all, sized, most⟩ := pass
    rw [manifestsOf_cons_of_pos is] at sized most
    have few := most (cons_ne_nil _ _)
    rw [length_cons] at few
    obtain ⟨first, rest⟩ := forall_mem_cons.mp sized
    refine ⟨by omega, first, (forall_mem_cons.mp all).2, rest, fun some_ => ?_⟩
    have more := length_pos_iff.mpr some_
    omega
  · obtain ⟨zero, first, all, sized, most⟩ := pass
    have none_ : manifestsOf file notes = [] := by
      by_contra some_
      have few := most some_
      have more := length_pos_iff.mpr some_
      omega
    refine ⟨forall_mem_cons.mpr ⟨named, all⟩, ?_, ?_⟩
    · rw [manifestsOf_cons_of_pos is]
      exact forall_mem_cons.mpr ⟨first, sized⟩
    · intro _
      rw [manifestsOf_cons_of_pos is, none_, zero]
      exact Nat.le_refl 1
  · rw [PluginFile.takes, manifestsOf_cons_of_pos is, PluginFile.takes]
    rfl

/-- A walk that goes on has the note here first. -/
theorem walk_iff (less : off < end_) (p : List ElfNote → Prop) :
    (∃ notes, NoteWalk big file pad end_ off notes ∧ p notes) ↔
      off + 12 ≤ end_ ∧ ∃ rest, NoteWalk big file pad end_ (ElfNote.ofFile big file pad end_ off).next rest ∧
        p (ElfNote.ofFile big file pad end_ off :: rest) := by
  constructor
  · rintro ⟨notes, walk, holds⟩
    cases walk with
    | done past => omega
    | note inside rest => exact ⟨inside, _, rest, holds⟩
  · rintro ⟨inside, rest, walk, holds⟩
    exact ⟨_, .note inside walk, holds⟩

/-- A walk that is past the end has no notes. -/
theorem walk_done (past : end_ ≤ off) (p : List ElfNote → Prop) :
    (∃ notes, NoteWalk big file pad end_ off notes ∧ p notes) ↔ p [] := by
  constructor
  · rintro ⟨notes, walk, holds⟩
    cases walk with
    | done => exact holds
    | note inside => omega
  · exact fun holds => ⟨[], .done past, holds⟩

theorem pass_nil (found : Nat) : NotesPass file found [] :=
  ⟨nofun, nofun, fun some_ => absurd rfl some_⟩

/-- The walk over the notes of a segment is passed exactly by those that pass. -/
theorem notes_iff (isFile : IsFile file) (padding : Padding pad) (within : end_ ≤ file.length)
    (enough : end_ ≤ off + fuel) : pluginFileNotes big file pad end_ fuel off f = .ok f' ↔
      ∃ notes, NoteWalk big file pad end_ off notes ∧ NotesPass file f.found notes ∧ f' = f.takes file notes := by
  have ends : (.ok f : Except PluginRefusal PluginFile) = .ok f' ↔ NotesPass file f.found [] ∧ f' = f.takes file [] := by
    rw [Except.ok.injEq]
    exact ⟨fun same => ⟨pass_nil _, same.symm⟩, fun both => both.2.symm⟩
  induction fuel generalizing off f with
  | zero => rw [pluginFileNotes, walk_done (Nat.add_zero off ▸ enough), ends]
  | succ fuel ih =>
    by_cases less : off < end_
    · obtain ⟨note, noteIs⟩ : ∃ note, note = ElfNote.ofFile big file pad end_ off := ⟨_, rfl⟩
      have offIs : note.off = off := by rw [noteIs]; rfl
      have endIs : note.end_ = end_ := by rw [noteIs]; rfl
      have refused : ∀ e, ((.error e : Except PluginRefusal PluginFile) = .ok f') ↔ False :=
        fun e => ⟨nofun, nofun⟩
      rw [notes_step isFile padding within less noteIs, walk_iff less, ← noteIs]
      by_cases inside : off + 12 ≤ end_
      · rw [IsFile] at isFile
        have bounds := noteBounds big file end_ padding (show off + 12 < 2 ^ 63 by omega)
        rw [← noteIs] at bounds
        have later := bounds.later
        have rest : ∀ f : PluginFile, pluginFileNotes big file pad end_ fuel note.next f = .ok f' ↔
            ∃ notes, NoteWalk big file pad end_ note.next notes ∧ NotesPass file f.found notes ∧
              f' = f.takes file notes := by
          intro f
          apply ih (by omega)
          rw [Except.ok.injEq]
          exact ⟨fun same => ⟨pass_nil _, same.symm⟩, fun both => both.2.symm⟩
        rw [if_pos inside, and_iff_right inside]
        -- a note that is passed over leaves the rest
        have skip : ¬ note.IsManifest file → note.Named → (pluginFileNotes big file pad end_ fuel note.next f = .ok f' ↔
              ∃ notes, NoteWalk big file pad end_ note.next notes ∧ NotesPass file f.found (note :: notes) ∧
                f' = f.takes file (note :: notes)) := by
          intro not named
          rw [rest]
          constructor
          · rintro ⟨notes, walk, pass, is⟩
            obtain ⟨passes, takes⟩ := notes_skip (f := f) not named f.found notes
            exact ⟨notes, walk, passes.mpr pass, is.trans takes.symm⟩
          · rintro ⟨notes, walk, pass, is⟩
            obtain ⟨passes, takes⟩ := notes_skip (f := f) not named f.found notes
            exact ⟨notes, walk, passes.mp pass, is.trans takes⟩
        by_cases headed : note.Headed
        · rw [if_neg (not_not.mpr headed)]
          by_cases named : off + 12 + askaiOwner.length ≤ end_
          · rw [if_pos named]
            by_cases manifest : note.IsManifest file
            · rw [if_neg (not_not.mpr manifest)]
              have here : note.Named := fun _ => by
                rw [offIs, endIs]
                exact named
              have take := fun notes => notes_take (f := f) manifest here notes
              have sized : note.Sized ↔ note.descsz = manifestSize ∧ note.desc + manifestSize ≤ end_ := by
                rw [ElfNote.Sized, endIs]
              split_ifs with found size fits
              · constructor
                · exact False.elim
                · rintro ⟨notes, -, pass, -⟩
                  exact found ((take notes).1.mp pass).1
              · constructor
                · exact False.elim
                · rintro ⟨notes, -, pass, -⟩
                  exact size (sized.mp ((take notes).1.mp pass).2.1).1
              · rw [rest]
                have zero := not_not.mp found
                constructor
                · rintro ⟨notes, walk, pass, is⟩
                  exact ⟨notes, walk, (take notes).1.mpr ⟨zero, sized.mpr ⟨not_not.mp size, fits⟩, pass⟩,
                    is.trans (take notes).2.symm⟩
                · rintro ⟨notes, walk, pass, is⟩
                  exact ⟨notes, walk, ((take notes).1.mp pass).2.2, is.trans (take notes).2⟩
              · constructor
                · exact False.elim
                · rintro ⟨notes, -, pass, -⟩
                  exact fits (sized.mp ((take notes).1.mp pass).2.1).2
            · rw [if_pos manifest]
              exact skip manifest fun _ => by rw [offIs, endIs]; exact named
          · rw [if_neg named, refused]
            constructor
            · exact False.elim
            · rintro ⟨notes, -, pass, -⟩
              have here := pass.named note mem_cons_self headed
              rw [offIs, endIs] at here
              exact named here
        · rw [if_pos headed]
          exact skip (fun manifest => headed manifest.1) fun kind => absurd kind headed
      · rw [if_neg inside, refused]
        exact ⟨False.elim, fun both => inside both.1⟩
    · rw [pluginFileNotes, if_neg less, walk_done (Nat.not_lt.mp less), ends]

end Notes

/-! ## Segments -/

namespace ElfPhdr

/-- Where the bytes of a segment end. -/
def stop (ph : ElfPhdr) : Nat := ph.offset + ph.filesz

/-- Where the addresses of a segment end. -/
def top (ph : ElfPhdr) : Nat := ph.vaddr + ph.memsz

/-- The padding of the notes. -/
def padding (ph : ElfPhdr) : Nat := if ph.align = 8 then 7 else 3

/-- An entry for a constructor or a destructor is among these. -/
def constructs (big : Bool) (file : Bytes) (off n : Nat) : Bool :=
  (List.range n).any fun i => word big (part file (off + 16 * i) 8) ∈ constructorTags

theorem padding_spec (ph : ElfPhdr) : Padding ph.padding := by
  rw [padding]
  split
  · exact .inr rfl
  · exact .inl rfl

end ElfPhdr

theorem part_part (bytes : Bytes) {off n k : Nat} (le : k ≤ n) : part (part bytes off n) 0 k = part bytes off k := by
  rw [part, part, drop_zero, take_take, Nat.min_eq_left le, part]

theorem constructs_succ (big : Bool) (file : Bytes) (off n : Nat) : ElfPhdr.constructs big file off (n + 1) =
      (decide (word big (part file off 8) ∈ constructorTags) || ElfPhdr.constructs big file (off + 16) n) := by
  rw [ElfPhdr.constructs, range_succ_eq_map, any_cons, Nat.mul_zero, Nat.add_zero, any_map, ElfPhdr.constructs]
  congr 1
  congr 1
  funext i
  have at_ : off + 16 * (i + 1) = off + 16 + 16 * i := by omega
  rw [Function.comp_apply, Nat.succ_eq_add_one, at_]

theorem setState_twice (f : PluginFile) (what : PluginState) : (f.setState what).setState what = f.setState what := by
  have some_ : (f.setState what).state ≠ none := by
    rw [PluginFile.setState]
    split
    · exact Option.some_ne_none what
    · next already => exact already
  rw [PluginFile.setState, if_neg some_]

section Dynamic

variable {f f' : PluginFile} {fuel : Nat}

variable (big) in
/-- The entries of a segment are read if they are whole. -/
theorem dynamic_eq (isFile : IsFile file) (within : end_ ≤ file.length) (fuel : Nat) (enough : end_ ≤ off + fuel)
    (f : PluginFile) : pluginFileDynamic big file end_ fuel off f =
      if (end_ - off) % 16 = 0 then
        .ok (if ElfPhdr.constructs big file off ((end_ - off) / 16) then f.setState .constructors else f)
      else .error .malformed := by
  rw [IsFile] at isFile
  have ends : end_ ≤ off → (if (end_ - off) % 16 = 0 then
      (.ok (if ElfPhdr.constructs big file off ((end_ - off) / 16) then f.setState .constructors else f) :
        Except PluginRefusal PluginFile) else .error .malformed) = .ok f := by
    intro past
    rw [Nat.sub_eq_zero_of_le past, if_pos (Nat.zero_mod _), Nat.zero_div]
    rfl
  induction fuel generalizing off f with
  | zero => rw [pluginFileDynamic, ends (Nat.add_zero off ▸ enough)]
  | succ fuel ih =>
    rw [pluginFileDynamic]
    by_cases less : off < end_
    · rw [if_pos less, pluginFileRead_eq within]
      by_cases inside : off + 16 ≤ end_
      · obtain ⟨n, is⟩ : ∃ n, (end_ - off) / 16 = n + 1 := ⟨(end_ - off) / 16 - 1, by omega⟩
        have rest : (end_ - (off + 16)) / 16 = n := by omega
        have whole : (end_ - (off + 16)) % 16 = (end_ - off) % 16 := by omega
        rw [if_pos inside, bind_ok, sum64_ok (by omega)]
        dsimp only
        rw [bind_ok, part_part file (by decide), ih (by omega), rest, whole, is, constructs_succ]
        · split
          · by_cases here : word big (part file off 8) ∈ constructorTags
            · rw [if_pos here, decide_eq_true here, Bool.true_or, if_pos rfl]
              split
              · rw [setState_twice]
              · rfl
            · rw [if_neg here, decide_eq_false here, Bool.false_or]
          · rfl
        · intro past
          rw [Nat.sub_eq_zero_of_le past, if_pos (Nat.zero_mod _), Nat.zero_div]
          rfl
      · rw [if_neg inside, if_neg (by omega)]
        rfl
    · rw [if_neg less, ends (Nat.not_lt.mp less)]

end Dynamic

/-- What a segment is passed for. -/
structure SegmentPass (big : Bool) (file : Bytes) (found : Nat) (ph : ElfPhdr) (notes : List ElfNote) : Prop where
  inside : ph.stop ≤ file.length
  wraps : ph.top < 2 ^ 64
  walk : if ph.type = 4 then NoteWalk big file ph.padding ph.stop ph.offset notes else notes = []
  pass : NotesPass file found notes
  entries : ph.type = 2 → ph.filesz % 16 = 0

/-- What is kept of a segment. -/
def PluginFile.after (big : Bool) (file : Bytes) (f : PluginFile) (ph : ElfPhdr) (notes : List ElfNote) : PluginFile :=
  if ph.type = 4 then f.takes file notes
  else if ph.type = 2 then
    if ElfPhdr.constructs big file ph.offset (ph.filesz / 16) then f.setState .constructors else f
  else if ph.type = 7 then f.setState .threads
  else if ph.type = 0x6474e552 then { f with relroFrom := ph.vaddr, relroTo := ph.top }
  else if ph.type = 1 then
    if ph.flags &&& 2 = 0 then f else
      { f with
        writeFrom := if ph.vaddr < f.writeFrom then ph.vaddr else f.writeFrom
        writeTo := if f.writeTo < ph.top then ph.top else f.writeTo }
  else f

section Segment

variable {f f' : PluginFile} {ph : ElfPhdr}

/-- What is done with a segment that lies in the file. -/
theorem segment_eq (isFile : IsFile file) (inside : ph.stop ≤ file.length) (wraps : ph.top < 2 ^ 64) :
    pluginFileSegment big file f ph =
      if ph.type = 4 then pluginFileNotes big file ph.padding ph.stop (ph.stop - ph.offset) ph.offset f
      else if ph.type = 2 ∧ ph.filesz % 16 ≠ 0 then .error .malformed
      else .ok (f.after big file ph []) := by
  rw [IsFile] at isFile
  rw [ElfPhdr.stop] at inside
  rw [ElfPhdr.top] at wraps
  have size : ph.stop - ph.offset = ph.filesz := Nat.add_sub_cancel_left _ _
  have top : ph.vaddr + ph.memsz = ph.top := rfl
  rw [pluginFileSegment, if_neg (by omega), sum64_ok (by omega), bind_ok, sum64_ok wraps, bind_ok, top]
  change (if ph.type = 4 then pluginFileNotes big file ph.padding ph.stop (ph.stop - ph.offset) ph.offset f
    else if ph.type = 2 then pluginFileDynamic big file ph.stop (ph.stop - ph.offset) ph.offset f else _) = _
  split
  · rfl
  · next notes =>
    rw [PluginFile.after, if_neg notes]
    by_cases dynamic : ph.type = 2
    · have entries := dynamic_eq big isFile inside (ph.stop - ph.offset) (show ph.stop ≤ ph.offset + _ by rw [size]; exact le_rfl) f
      change pluginFileDynamic big file ph.stop _ _ _ = if (ph.stop - ph.offset) % 16 = 0 then
        .ok (if ElfPhdr.constructs big file ph.offset ((ph.stop - ph.offset) / 16) then _ else _) else _ at entries
      rw [if_pos dynamic, entries, size]
      by_cases whole : ph.filesz % 16 = 0
      · have fine : ¬ (ph.type = 2 ∧ ph.filesz % 16 ≠ 0) := fun both => both.2 whole
        rw [if_pos whole, if_neg fine, if_pos dynamic]
      · rw [if_neg whole, if_pos ⟨dynamic, whole⟩]
    · have fine : ¬ (ph.type = 2 ∧ ph.filesz % 16 ≠ 0) := fun both => dynamic both.1
      rw [if_neg dynamic, if_neg fine, if_neg dynamic]
      split_ifs
      all_goals rfl

/-- A segment is passed exactly for what it must have. -/
theorem segment_iff (isFile : IsFile file) (small : ph.vaddr < 2 ^ 64) : pluginFileSegment big file f ph = .ok f' ↔
      ∃ notes, SegmentPass big file f.found ph notes ∧ f' = f.after big file ph notes := by
  by_cases fits : ph.stop ≤ file.length ∧ ph.top < 2 ^ 64
  · obtain ⟨inside, wraps⟩ := fits
    rw [segment_eq isFile inside wraps]
    by_cases note : ph.type = 4
    · rw [if_pos note, notes_iff isFile ph.padding_spec inside (by omega)]
      constructor
      · rintro ⟨notes, walk, pass, is⟩
        refine ⟨notes, ⟨inside, wraps, by rw [if_pos note]; exact walk, pass, fun dynamic => ?_⟩, ?_⟩
        · rw [note] at dynamic
          exact absurd dynamic (by decide)
        · rw [PluginFile.after, if_pos note]
          exact is
      · rintro ⟨notes, pass, is⟩
        have walk := pass.walk
        rw [if_pos note] at walk
        rw [PluginFile.after, if_pos note] at is
        exact ⟨notes, walk, pass.pass, is⟩
    · rw [if_neg note]
      by_cases partial_ : ph.type = 2 ∧ ph.filesz % 16 ≠ 0
      · rw [if_pos partial_]
        constructor
        · exact nofun
        · rintro ⟨notes, pass, -⟩
          exact absurd (pass.entries partial_.1) partial_.2
      · rw [if_neg partial_, Except.ok.injEq]
        constructor
        · intro is
          refine ⟨[], ⟨inside, wraps, if_neg note ▸ rfl, pass_nil _, fun dynamic => ?_⟩, is.symm⟩
          by_contra odd
          exact partial_ ⟨dynamic, odd⟩
        · rintro ⟨notes, pass, is⟩
          have none_ := pass.walk
          rw [if_neg note] at none_
          rw [is, none_]
  · have refused : pluginFileSegment big file f ph = .error .malformed := by
      rw [ElfPhdr.stop, ElfPhdr.top] at fits
      rw [pluginFileSegment, if_pos (by omega)]
    rw [refused]
    constructor
    · exact nofun
    · rintro ⟨notes, pass, -⟩
      exact absurd ⟨pass.inside, pass.wraps⟩ fits

theorem segment_error (isFile : IsFile file) (small : ph.vaddr < 2 ^ 64)
    (refused : pluginFileSegment big file f ph = .error e) : e.OfFile := by
  by_cases fits : ph.stop ≤ file.length ∧ ph.top < 2 ^ 64
  · rw [segment_eq isFile fits.1 fits.2] at refused
    split_ifs at refused
    · exact notes_error isFile ph.padding_spec fits.1 refused
    · obtain rfl := Except.error.inj refused
      exact ⟨nofun, nofun⟩
  · rw [ElfPhdr.stop, ElfPhdr.top] at fits
    rw [pluginFileSegment, if_pos (by omega)] at refused
    obtain rfl := Except.error.inj refused
    exact ⟨nofun, nofun⟩

end Segment

/-! ## The program headers -/

/-- The program headers from an offset on. -/
def phdrsFrom (big : Bool) (file : Bytes) : Nat → Nat → List ElfPhdr
  | 0, _ => []
  | n + 1, off => .ofBytes big (part file off 56) :: phdrsFrom big file n (off + 56)

/-- Segments that are passed one after the other, with the notes of each. -/
inductive SegmentsPass (big : Bool) (file : Bytes) : Nat → List ElfPhdr → List (List ElfNote) → Prop
  | nil (found : Nat) : SegmentsPass big file found [] []
  | cons {found : Nat} {ph : ElfPhdr} {phs : List ElfPhdr} {notes : List ElfNote} {all : List (List ElfNote)}
      (first : SegmentPass big file found ph notes)
      (rest : SegmentsPass big file (found + (manifestsOf file notes).length) phs all) :
      SegmentsPass big file found (ph :: phs) (notes :: all)

/-- What is kept of segments. -/
def PluginFile.afterAll (big : Bool) (file : Bytes) : PluginFile → List ElfPhdr → List (List ElfNote) → PluginFile
  | f, ph :: phs, notes :: all => (f.after big file ph notes).afterAll big file phs all
  | f, _, _ => f

variable (file) in
theorem found_takes (f : PluginFile) (notes : List ElfNote) :
    (f.takes file notes).found = f.found + (manifestsOf file notes).length ∧ (f.takes file notes).dest =
        ((manifestsOf file notes).getLast?.map fun note => part file note.desc manifestSize).getD f.dest ∧
      f.takes file notes = { f with found := (f.takes file notes).found, dest := (f.takes file notes).dest } := by
  rw [PluginFile.takes]
  generalize manifestsOf file notes = l
  induction l using List.reverseRecOn with
  | nil => exact ⟨rfl, rfl, rfl⟩
  | append_singleton l note ih =>
    obtain ⟨found, -, same⟩ := ih
    rw [foldl_append]
    refine ⟨?_, ?_, ?_⟩
    · change (List.foldl _ f l).found + 1 = _
      rw [found, length_append, length_singleton]
      omega
    · rw [List.getLast?_concat]
      rfl
    · change ({ List.foldl _ f l with found := _, dest := _ } : PluginFile) = _
      rw [same]
      rfl

theorem found_setState (f : PluginFile) (what : PluginState) :
    (f.setState what).found = f.found ∧ (f.setState what).dest = f.dest ∧ (f.setState what).state ≠ none ∧
      (f.setState what).writeFrom = f.writeFrom ∧ (f.setState what).writeTo = f.writeTo ∧
      (f.setState what).relroFrom = f.relroFrom ∧ (f.setState what).relroTo = f.relroTo := by
  rw [PluginFile.setState]
  split
  · exact ⟨rfl, rfl, Option.some_ne_none what, rfl, rfl, rfl, rfl⟩
  · next already => exact ⟨rfl, rfl, already, rfl, rfl, rfl, rfl⟩

section Segments

variable {f f' : PluginFile}

theorem found_after {ph : ElfPhdr} (pass : SegmentPass big file f.found ph notes) :
    (f.after big file ph notes).found = f.found + (manifestsOf file notes).length := by
  have walk := pass.walk
  rw [PluginFile.after]
  by_cases note : ph.type = 4
  · rw [if_pos note]
    exact (found_takes file f notes).1
  · rw [if_neg note] at walk ⊢
    rw [walk]
    change _ = f.found + 0
    split_ifs
    · exact (found_setState f .constructors).1
    · rfl
    · exact (found_setState f .threads).1
    all_goals rfl

theorem segments_iff (isFile : IsFile file) (n : Nat) : pluginFileSegments big file n off f = .ok f' ↔
      (n = 0 ∨ off + 56 * n ≤ file.length) ∧ ∃ all, SegmentsPass big file f.found (phdrsFrom big file n off) all ∧
        f' = f.afterAll big file (phdrsFrom big file n off) all := by
  induction n generalizing off f with
  | zero =>
    rw [pluginFileSegments, phdrsFrom, Except.ok.injEq]
    constructor
    · rintro rfl
      exact ⟨.inl rfl, [], .nil _, rfl⟩
    · rintro ⟨-, all, pass, is⟩
      cases pass with
      | nil => exact is.symm
  | succ n ih =>
    rw [pluginFileSegments, pluginFileRead_eq (le_refl _)]
    by_cases inside : off + 56 ≤ file.length
    · rw [if_pos inside, bind_ok]
      have small : (ElfPhdr.ofBytes big (part file off 56)).vaddr < 2 ^ 64 := word_part_lt big _ 16 8
      have sum : sum64 off 56 = .ok (off + 56) := by
        rw [IsFile] at isFile
        exact sum64_ok (by omega)
      rw [bind_eq_ok, phdrsFrom]
      constructor
      · rintro ⟨f₁, first, rest⟩
        rw [sum, bind_ok, ih] at rest
        obtain ⟨notes, pass, rfl⟩ := (segment_iff isFile small).mp first
        obtain ⟨fits, all, passes, is⟩ := rest
        rw [found_after pass] at passes
        exact ⟨.inr (by omega), notes :: all, .cons pass passes, is⟩
      · rintro ⟨fits, all, passes, is⟩
        cases passes with
        | @cons _ _ _ notes all pass passes =>
          refine ⟨f.after big file _ notes, (segment_iff isFile small).mpr ⟨notes, pass, rfl⟩, ?_⟩
          rw [sum, bind_ok, ih, found_after pass]
          exact ⟨by omega, all, passes, is⟩
    · rw [if_neg inside]
      constructor
      · exact nofun
      · rintro ⟨fits, -⟩
        omega

theorem segments_error (isFile : IsFile file) (n : Nat)
    (refused : pluginFileSegments big file n off f = .error e) : e.OfFile := by
  induction n generalizing off f with
  | zero => exact nomatch refused
  | succ n ih =>
    rw [pluginFileSegments, pluginFileRead_eq (le_refl _)] at refused
    by_cases inside : off + 56 ≤ file.length
    · rw [if_pos inside, bind_ok] at refused
      have small : (ElfPhdr.ofBytes big (part file off 56)).vaddr < 2 ^ 64 := word_part_lt big _ 16 8
      have sum : sum64 off 56 = .ok (off + 56) := by
        rw [IsFile] at isFile
        exact sum64_ok (by omega)
      obtain here | ⟨f₁, -, rest⟩ := bind_eq_error refused
      · exact segment_error isFile small here
      · rw [sum, bind_ok] at rest
        exact ih rest
    · rw [if_neg inside] at refused
      obtain rfl := Except.error.inj refused
      exact ⟨nofun, nofun⟩

end Segments

/-! ## All segments -/

/-- The notes of a segment, which only one of notes has. -/
def NotesOf (big : Bool) (file : Bytes) (ph : ElfPhdr) (notes : List ElfNote) : Prop :=
  if ph.type = 4 then NoteWalk big file ph.padding ph.stop ph.offset notes else notes = []

theorem manifestsOf_append (file : Bytes) (l m : List ElfNote) :
    manifestsOf file (l ++ m) = manifestsOf file l ++ manifestsOf file m :=
  filter_append _ _

theorem pass_append {found : Nat} {l m : List ElfNote} : NotesPass file found (l ++ m) ↔
      NotesPass file found l ∧ NotesPass file (found + (manifestsOf file l).length) m := by
  constructor
  · rintro ⟨named, sized, most⟩
    rw [forall_mem_append] at named
    rw [manifestsOf_append] at sized most
    rw [forall_mem_append] at sized
    rw [length_append] at most
    refine ⟨⟨named.1, sized.1, fun some_ => ?_⟩, ⟨named.2, sized.2, fun some_ => ?_⟩⟩
    · have few := most (append_ne_nil_of_left_ne_nil some_ _)
      omega
    · have few := most (append_ne_nil_of_right_ne_nil _ some_)
      omega
  · rintro ⟨⟨named, sized, most⟩, ⟨named', sized', most'⟩⟩
    refine ⟨forall_mem_append.mpr ⟨named, named'⟩, ?_, ?_⟩
    · rw [manifestsOf_append]
      exact forall_mem_append.mpr ⟨sized, sized'⟩
    · rw [manifestsOf_append, length_append]
      intro some_
      rcases eq_or_ne (manifestsOf file m) [] with none_ | more
      · rw [none_, append_nil] at some_
        have few := most some_
        rw [none_, length_nil]
        omega
      · have few := most' more
        omega

/-- Segments are passed for what each has, and their notes together. -/
theorem segmentsPass_iff {found : Nat} {all : List (List ElfNote)} :
    SegmentsPass big file found phs all ↔ List.Forall₂ (NotesOf big file) phs all ∧
      (∀ ph ∈ phs, ph.stop ≤ file.length ∧ ph.top < 2 ^ 64 ∧ (ph.type = 2 → ph.filesz % 16 = 0)) ∧
      NotesPass file found all.flatten := by
  constructor
  · intro pass
    induction pass with
    | nil found => exact ⟨.nil, nofun, pass_nil found⟩
    | cons first rest ih =>
      obtain ⟨notes, each, passes⟩ := ih
      refine ⟨.cons first.walk notes, ?_, ?_⟩
      · exact forall_mem_cons.mpr ⟨⟨first.inside, first.wraps, first.entries⟩, each⟩
      · rw [flatten_cons, pass_append]
        exact ⟨first.pass, passes⟩
  · rintro ⟨notes, each, passes⟩
    induction notes generalizing found with
    | nil => exact .nil found
    | cons walk _ ih =>
      obtain ⟨⟨inside, wraps, entries⟩, each⟩ := forall_mem_cons.mp each
      rw [flatten_cons, pass_append] at passes
      exact .cons ⟨inside, wraps, walk, passes.1, entries⟩ (ih each passes.2)

/-- A segment of data that stays writable unless it is made read-only. -/
def ElfPhdr.Writable (ph : ElfPhdr) : Prop := ph.type = 1 ∧ ph.flags &&& 2 ≠ 0

/-- A segment that is state outside of instances. -/
def ElfPhdr.Stateful (big : Bool) (file : Bytes) (ph : ElfPhdr) : Prop :=
  ph.type = 7 ∨ (ph.type = 2 ∧ ElfPhdr.constructs big file ph.offset (ph.filesz / 16) = true)

/-- The addresses of the last segment that is made read-only. -/
def lastRelro : Nat × Nat → List ElfPhdr → Nat × Nat
  | last, [] => last
  | last, ph :: phs => lastRelro (if ph.type = 0x6474e552 then (ph.vaddr, ph.top) else last) phs

/-- What is kept of segments: of the notes the last manifest, whether there is state, the segment that is made
read-only, and the hull of those that are writable. -/
structure KeptOf (big : Bool) (file : Bytes) (f : PluginFile) (phs : List ElfPhdr) (notes : List ElfNote)
    (f' : PluginFile) : Prop where
  found : f'.found = f.found + (manifestsOf file notes).length
  dest : f'.dest = ((manifestsOf file notes).getLast?.map fun note => part file note.desc manifestSize).getD f.dest
  state : f'.state = none ↔ f.state = none ∧ ∀ ph ∈ phs, ¬ ph.Stateful big file
  relro : (f'.relroFrom, f'.relroTo) = lastRelro (f.relroFrom, f.relroTo) phs
  low : ∀ a, a ≤ f'.writeFrom ↔ a ≤ f.writeFrom ∧ ∀ ph ∈ phs, ph.Writable → a ≤ ph.vaddr
  high : ∀ a, f'.writeTo ≤ a ↔ f.writeTo ≤ a ∧ ∀ ph ∈ phs, ph.Writable → ph.top ≤ a

theorem kept_after {f : PluginFile} {ph : ElfPhdr} (walk : NotesOf big file ph notes) :
    KeptOf big file f [ph] notes (f.after big file ph notes) := by
  have one : ∀ p : ElfPhdr → Prop, (∀ q ∈ [ph], p q) ↔ p ph := fun p => by
    rw [forall_mem_cons]
    exact and_iff_left nofun
  have same : ∀ f' : PluginFile, manifestsOf file notes = [] → f'.found = f.found → f'.dest = f.dest →
      (f'.state = none ↔ f.state = none ∧ ¬ ph.Stateful big file) →
      (f'.relroFrom, f'.relroTo) = lastRelro (f.relroFrom, f.relroTo) [ph] →
      (∀ a, a ≤ f'.writeFrom ↔ a ≤ f.writeFrom ∧ (ph.Writable → a ≤ ph.vaddr)) →
      (∀ a, f'.writeTo ≤ a ↔ f.writeTo ≤ a ∧ (ph.Writable → ph.top ≤ a)) →
      KeptOf big file f [ph] notes f' := by
    intro f' none_ found dest state relro low high
    refine ⟨by rw [none_, found]; rfl, by rw [none_, dest]; rfl, by rw [one]; exact state, relro, ?_, ?_⟩
    · intro a
      rw [one]
      exact low a
    · intro a
      rw [one]
      exact high a
  have last : lastRelro (f.relroFrom, f.relroTo) [ph] =
      if ph.type = 0x6474e552 then (ph.vaddr, ph.top) else (f.relroFrom, f.relroTo) := rfl
  rw [NotesOf] at walk
  rw [PluginFile.after]
  by_cases note : ph.type = 4
  · rw [if_pos note]
    obtain ⟨found, dest, rest⟩ := found_takes file f notes
    have stays : ∀ p : Prop, (p ↔ p ∧ ¬ ph.Stateful big file) := by
      intro p
      rw [ElfPhdr.Stateful, note]
      exact ⟨fun holds => ⟨holds, by omega⟩, And.left⟩
    have free : ¬ ph.Writable := by
      rw [ElfPhdr.Writable, note]
      exact fun both => absurd both.1 (by decide)
    refine ⟨found, dest, ?_, ?_, ?_, ?_⟩
    · rw [one, rest]
      exact stays _
    · rw [last, note, rest]
      rfl
    · intro a
      rw [one, rest]
      exact ⟨fun le => ⟨le, fun writable => absurd writable free⟩, And.left⟩
    · intro a
      rw [one, rest]
      exact ⟨fun le => ⟨le, fun writable => absurd writable free⟩, And.left⟩
  · rw [if_neg note] at walk ⊢
    have none_ : manifestsOf file notes = [] := by rw [walk]; rfl
    have fixed : ∀ f' : PluginFile, ph.type ≠ 0x6474e552 → ph.type ≠ 1 → f'.found = f.found → f'.dest = f.dest →
        (f'.state = none ↔ f.state = none ∧ ¬ ph.Stateful big file) → f'.relroFrom = f.relroFrom →
        f'.relroTo = f.relroTo → f'.writeFrom = f.writeFrom → f'.writeTo = f.writeTo →
        KeptOf big file f [ph] notes f' := by
      intro f' other data found dest state relroFrom relroTo writeFrom writeTo
      refine same f' none_ found dest state (by rw [last, if_neg other, relroFrom, relroTo]) ?_ ?_
      · intro a
        rw [writeFrom]
        exact ⟨fun le => ⟨le, fun writable => absurd writable.1 data⟩, And.left⟩
      · intro a
        rw [writeTo]
        exact ⟨fun le => ⟨le, fun writable => absurd writable.1 data⟩, And.left⟩
    by_cases dynamic : ph.type = 2
    · rw [if_pos dynamic]
      by_cases made : ElfPhdr.constructs big file ph.offset (ph.filesz / 16) = true
      · obtain ⟨found, dest, state, writeFrom, writeTo, relroFrom, relroTo⟩ := found_setState f .constructors
        rw [if_pos made]
        refine fixed _ (by omega) (by omega) found dest ?_ relroFrom relroTo writeFrom writeTo
        exact ⟨fun none_ => absurd none_ state, fun both => absurd (.inr ⟨dynamic, made⟩) both.2⟩
      · rw [if_neg made]
        refine fixed f (by omega) (by omega) rfl rfl ?_ rfl rfl rfl rfl
        rw [ElfPhdr.Stateful]
        exact ⟨fun free => ⟨free, fun kind => kind.elim (by omega) fun both => made both.2⟩, And.left⟩
    · rw [if_neg dynamic]
      by_cases threads : ph.type = 7
      · obtain ⟨found, dest, state, writeFrom, writeTo, relroFrom, relroTo⟩ := found_setState f .threads
        rw [if_pos threads]
        refine fixed _ (by omega) (by omega) found dest ?_ relroFrom relroTo writeFrom writeTo
        exact ⟨fun none_ => absurd none_ state, fun both => absurd (.inl threads) both.2⟩
      · have free : ∀ p : Prop, (p ↔ p ∧ ¬ ph.Stateful big file) := by
          intro p
          rw [ElfPhdr.Stateful]
          exact ⟨fun holds => ⟨holds, fun kind => kind.elim threads fun both => dynamic both.1⟩, And.left⟩
        rw [if_neg threads]
        by_cases relro : ph.type = 0x6474e552
        · rw [if_pos relro]
          have plain : ¬ ph.Writable := by
            rw [ElfPhdr.Writable]
            omega
          refine same _ none_ rfl rfl (free _) (by rw [last, if_pos relro]) ?_ ?_
          · exact fun a => ⟨fun le => ⟨le, fun writable => absurd writable plain⟩, And.left⟩
          · exact fun a => ⟨fun le => ⟨le, fun writable => absurd writable plain⟩, And.left⟩
        · rw [if_neg relro]
          by_cases load : ph.type = 1
          · rw [if_pos load]
            by_cases fixed_ : ph.flags &&& 2 = 0
            · rw [if_pos fixed_]
              have plain : ¬ ph.Writable := fun writable => writable.2 fixed_
              refine same _ none_ rfl rfl (free _) (by rw [last, if_neg relro]) ?_ ?_
              · exact fun a => ⟨fun le => ⟨le, fun writable => absurd writable plain⟩, And.left⟩
              · exact fun a => ⟨fun le => ⟨le, fun writable => absurd writable plain⟩, And.left⟩
            · have writable : ph.Writable := ⟨load, fixed_⟩
              rw [if_neg fixed_]
              refine same _ none_ rfl rfl (free _) (by rw [last, if_neg relro]) ?_ ?_
              · intro a
                change a ≤ (if ph.vaddr < f.writeFrom then ph.vaddr else f.writeFrom) ↔ _
                rw [forall_prop_of_true writable]
                split <;> omega
              · intro a
                change (if f.writeTo < ph.top then ph.top else f.writeTo) ≤ a ↔ _
                rw [forall_prop_of_true writable]
                split <;> omega
          · rw [if_neg load]
            exact fixed f relro load rfl rfl (free _) rfl rfl rfl rfl

theorem KeptOf.trans {f f₁ f₂ : PluginFile} {ph : ElfPhdr} {notes more : List ElfNote}
    (first : KeptOf big file f [ph] notes f₁) (rest : KeptOf big file f₁ phs more f₂) :
    KeptOf big file f (ph :: phs) (notes ++ more) f₂ where
  found := by
    rw [rest.found, first.found, manifestsOf_append, length_append]
    omega
  dest := by
    rw [rest.dest, first.dest, manifestsOf_append, List.getLast?_append]
    cases (manifestsOf file more).getLast? <;> rfl
  state := by
    rw [rest.state, first.state, and_assoc, forall_mem_singleton, forall_mem_cons]
  relro := by
    rw [rest.relro, first.relro]
    rfl
  low a := by
    rw [rest.low, first.low, and_assoc, forall_mem_singleton, forall_mem_cons]
  high a := by
    rw [rest.high, first.high, and_assoc, forall_mem_singleton, forall_mem_cons]

variable (big) in
theorem kept_afterAll {f : PluginFile} {all : List (List ElfNote)} (notes : List.Forall₂ (NotesOf big file) phs all) :
    KeptOf big file f phs all.flatten (f.afterAll big file phs all) := by
  induction notes generalizing f with
  | nil =>
    exact ⟨rfl, rfl, ⟨fun none_ => ⟨none_, nofun⟩, And.left⟩, rfl, fun a => ⟨fun le => ⟨le, nofun⟩, And.left⟩,
      fun a => ⟨fun le => ⟨le, nofun⟩, And.left⟩⟩
  | cons walk _ ih => exact (kept_after walk).trans ih

/-! ## The manifest -/

namespace PluginMachine

variable (m : PluginMachine) (file : Bytes)

/-- `e_phnum`. -/
def phnum : Nat := word m.big (part file 56 2)

/-- `e_phoff`. -/
def phoff : Nat := word m.big (part file 32 8)

/-- The program headers. -/
def phdrs : List ElfPhdr := phdrsFrom m.big file (m.phnum file) (m.phoff file)

/-- What lies in the pages that the dynamic linker makes read-only: both ends are rounded down to a page. -/
def ReadOnly (a : Nat) : Prop :=
  (lastRelro (0, 0) (m.phdrs file)).1 / m.page * m.page ≤ a ∧
    a < (lastRelro (0, 0) (m.phdrs file)).2 / m.page * m.page

/-- A shared object of this machine with this manifest, and with no state outside of instances. -/
structure IsPlugin (manifest : Bytes) : Prop where
  size : 64 ≤ file.length
  ident : part file 0 6 = m.ident
  machine : word m.big (part file 18 2) = m.machine
  type : word m.big (part file 16 2) = 3
  entsize : word m.big (part file 54 2) = 56
  table : m.phoff file + 56 * m.phnum file ≤ file.length
  inside : ∀ ph ∈ m.phdrs file, ph.stop ≤ file.length ∧ ph.top < 2 ^ 64
  notes : ∃ all note, List.Forall₂ (NotesOf m.big file) (m.phdrs file) all ∧ (∀ n ∈ all.flatten, n.Named) ∧
    manifestsOf file all.flatten = [note] ∧ note.Sized ∧ manifest = part file note.desc manifestSize
  entries : ∀ ph ∈ m.phdrs file, ph.type = 2 →
    ph.filesz % 16 = 0 ∧ ElfPhdr.constructs m.big file ph.offset (ph.filesz / 16) = false
  threads : ∀ ph ∈ m.phdrs file, ph.type ≠ 7
  data : ∀ ph ∈ m.phdrs file, ph.Writable → ∀ a, ph.vaddr ≤ a → a < ph.top → m.ReadOnly file a

/-- No writable segment is without bytes. -/
def NoneEmpty : Prop := ∀ ph ∈ m.phdrs file, ph.Writable → ph.memsz ≠ 0

end PluginMachine

variable {m : PluginMachine} {manifest : Bytes}

theorem part_header (file : Bytes) {off k : Nat} (inside : off + k ≤ 64) :
    part (part file 0 64) off k = part file off k := by
  rw [part, part, drop_zero, part, drop_take, take_take, Nat.min_eq_left (by omega)]

/-- The header is that of a shared object of the machine. -/
def PluginMachine.Headed (m : PluginMachine) (file : Bytes) : Prop :=
  64 ≤ file.length ∧ part file 0 6 = m.ident ∧ word m.big (part file 18 2) = m.machine ∧
    word m.big (part file 16 2) = 3 ∧ word m.big (part file 54 2) = 56

instance (m : PluginMachine) (file : Bytes) : Decidable (m.Headed file) :=
  inferInstanceAs (Decidable (_ ∧ _))

/-- The last check: the hull of the writable segments against the pages that are made read-only. -/
def PluginFile.Exposed (m : PluginMachine) (f : PluginFile) : Prop :=
  f.writeTo ≠ 0 ∧ (f.writeFrom < andNot f.relroFrom (m.page - 1) ∨ andNot f.relroTo (m.page - 1) < f.writeTo)

instance (m : PluginMachine) (f : PluginFile) : Decidable (f.Exposed m) :=
  inferInstanceAs (Decidable (_ ∧ _))

/-- What is known of the file after that check. -/
def PluginFile.checked (m : PluginMachine) (f : PluginFile) : PluginFile :=
  if f.Exposed m then f.setState .data else f

theorem checked_spec (m : PluginMachine) (f : PluginFile) :
    (f.checked m).dest = f.dest ∧ ((f.checked m).state = none ↔ f.state = none ∧ ¬ f.Exposed m) := by
  rw [PluginFile.checked]
  split
  · next exposed =>
    obtain ⟨-, dest, state, -⟩ := found_setState f .data
    exact ⟨dest, fun none_ => absurd none_ state, fun both => absurd exposed both.2⟩
  · next fine => exact ⟨rfl, fun none_ => ⟨none_, fine⟩, And.left⟩

/-- What is done after the header. -/
theorem pluginManifestRead_eq (m : PluginMachine) (file : Bytes) : pluginManifestRead m file =
      if m.Headed file then
        pluginFileSegments m.big file (m.phnum file) (m.phoff file) {} >>= fun f =>
          if f.found = 0 then .error .none_
          else
            match (f.checked m).state with
            | some what => .error (.state what)
            | none => .ok (f.checked m).dest
      else .error .notObject := by
  rw [pluginManifestRead]
  by_cases size : 64 ≤ file.length
  · have headed : (part file 0 6 ≠ m.ident ∨ word m.big (part file 18 2) ≠ m.machine ∨
        word m.big (part file 16 2) ≠ 3 ∨ word m.big (part file 54 2) ≠ 56) ↔ ¬ m.Headed file := by
      rw [PluginMachine.Headed, not_and_or, not_and_or, not_and_or, not_and_or]
      exact (or_iff_right (not_not.mpr size)).symm
    rw [if_pos size, pluginFileRead_eq (le_refl _), if_pos (by omega), bind_ok]
    dsimp only
    rw [part_header file (by decide), part_header file (by decide), part_header file (by decide),
      part_header file (by decide), part_header file (by decide), part_header file (by decide)]
    by_cases is : m.Headed file
    · rw [if_neg (mt headed.mp (not_not.mpr is)), if_pos is]
      rfl
    · rw [if_pos (headed.mpr is), if_neg is]
  · have other : part (List.replicate 64 0) 0 6 ≠ m.ident := by
      intro same
      have first := congrArg List.head? same
      change some (0 : UInt8) = some 0x7f at first
      exact absurd (Option.some.inj first) (by decide)
    rw [if_neg size, bind_ok]
    dsimp only
    rw [if_pos (.inl other), if_neg (fun is => size is.1)]

theorem lastRelro_lt {p : Nat × Nat} (small : p.1 < 2 ^ 64 ∧ p.2 < 2 ^ 64)
    (each : ∀ ph ∈ phs, ph.vaddr < 2 ^ 64 ∧ ph.top < 2 ^ 64) :
    (lastRelro p phs).1 < 2 ^ 64 ∧ (lastRelro p phs).2 < 2 ^ 64 := by
  induction phs generalizing p with
  | nil => exact small
  | cons ph phs ih =>
    obtain ⟨first, rest⟩ := forall_mem_cons.mp each
    rw [lastRelro]
    apply ih _ rest
    split
    · exact first
    · exact small

theorem vaddr_lt {n off : Nat} : ∀ ph ∈ phdrsFrom big file n off, ph.vaddr < 2 ^ 64 := by
  induction n generalizing off with
  | zero => nofun
  | succ n ih =>
    rw [phdrsFrom, forall_mem_cons]
    exact ⟨word_part_lt big _ 16 8, ih⟩

/-- The end of the check: the hull of the writable segments lies in the pages that are made read-only. -/
theorem hull_iff {f : PluginFile} {lo hi : Nat} (kept : KeptOf big file {} phs notes f) (lo_lt : lo < 2 ^ 64) :
    ¬ (f.writeTo ≠ 0 ∧ (f.writeFrom < lo ∨ hi < f.writeTo)) ↔
      (∀ ph ∈ phs, ph.Writable → ph.top = 0) ∨ ∀ ph ∈ phs, ph.Writable → lo ≤ ph.vaddr ∧ ph.top ≤ hi := by
  have low := kept.low lo
  have high := kept.high hi
  have none_ := kept.high 0
  have first : (lo ≤ 2 ^ 64 - 1) := by omega
  rw [and_iff_right first] at low
  rw [and_iff_right (Nat.zero_le hi)] at high
  rw [and_iff_right (Nat.le_refl 0)] at none_
  have zero : f.writeTo = 0 ↔ ∀ ph ∈ phs, ph.Writable → ph.top = 0 := by
    rw [← Nat.le_zero, none_]
    simp only [Nat.le_zero]
  rw [← zero]
  have both : (∀ ph ∈ phs, ph.Writable → lo ≤ ph.vaddr ∧ ph.top ≤ hi) ↔ lo ≤ f.writeFrom ∧ f.writeTo ≤ hi := by
    rw [low, high]
    exact ⟨fun all => ⟨fun ph among w => (all ph among w).1, fun ph among w => (all ph among w).2⟩,
      fun all ph among w => ⟨all.1 ph among w, all.2 ph among w⟩⟩
  rw [both]
  omega

/-- What is checked of the data of segments, in pages. -/
theorem exposed_iff {k : Nat} (bits : k < 64) (page : m.page = 2 ^ k) {f : PluginFile}
    (kept : KeptOf m.big file {} (m.phdrs file) notes f) (wraps : ∀ ph ∈ m.phdrs file, ph.top < 2 ^ 64) :
    ¬ f.Exposed m ↔ (∀ ph ∈ m.phdrs file, ph.Writable → ph.top = 0) ∨
      ∀ ph ∈ m.phdrs file, ph.Writable → (lastRelro (0, 0) (m.phdrs file)).1 / m.page * m.page ≤ ph.vaddr ∧
        ph.top ≤ (lastRelro (0, 0) (m.phdrs file)).2 / m.page * m.page := by
  obtain ⟨from_lt, to_lt⟩ := lastRelro_lt (p := (0, 0)) ⟨by decide, by decide⟩
    fun ph among => ⟨vaddr_lt ph among, wraps ph among⟩
  have relro := kept.relro
  change (f.relroFrom, f.relroTo) = lastRelro (0, 0) (m.phdrs file) at relro
  rw [PluginFile.Exposed, page, ← relro]
  rw [← PluginMachine.phdrs, ← relro] at from_lt to_lt
  rw [andNot_eq from_lt bits.le, andNot_eq to_lt bits.le]
  exact hull_iff kept ((Nat.div_mul_le_self _ _).trans_lt from_lt)

/-- A manifest is read only of a plugin. -/
theorem isPlugin_of_read (isFile : IsFile file) {k : Nat} (bits : k < 64) (page : m.page = 2 ^ k)
    (is : pluginManifestRead m file = .ok manifest) : m.IsPlugin file manifest := by
  rw [pluginManifestRead_eq] at is
  by_cases headed : m.Headed file
  · rw [if_pos headed, bind_eq_ok] at is
    obtain ⟨f, segments, is⟩ := is
    obtain ⟨fits, all, pass, fIs⟩ := (segments_iff isFile _).mp segments
    obtain ⟨notes, each, passes⟩ := segmentsPass_iff.mp pass
    have kept := kept_afterAll m.big (f := {}) notes
    rw [← fIs] at kept
    obtain ⟨dest, state⟩ := checked_spec m f
    split_ifs at is with found
    split at is
    · exact nomatch is
    · next none_ =>
      obtain ⟨free, fine⟩ := state.mp none_
      obtain ⟨-, stateless⟩ := kept.state.mp free
      have count := kept.found
      change f.found = 0 + _ at count
      have some_ : manifestsOf file all.flatten ≠ [] := by
        intro none_
        rw [none_, length_nil] at count
        exact found count
      have few := passes.most some_
      have more := length_pos_iff.mpr some_
      obtain ⟨note, one⟩ := length_eq_one_iff.mp (by omega : (manifestsOf file all.flatten).length = 1)
      obtain ⟨size, ident, machine, type, entsize⟩ := headed
      have table : m.phoff file + 56 * m.phnum file ≤ file.length := by
        obtain none_ | fits := fits
        · rw [none_, phdrsFrom] at notes
          cases notes
          exact absurd rfl some_
        · exact fits
      refine ⟨size, ident, machine, type, entsize, table, fun ph among => ⟨(each ph among).1, (each ph among).2.1⟩,
        ⟨all, note, notes, passes.named, one, passes.sized note (by rw [one]; exact mem_singleton.mpr rfl), ?_⟩,
        ?_, ?_, ?_⟩
      · rw [dest, kept.dest, one] at is
        exact (Except.ok.inj is).symm
      · intro ph among dynamic
        refine ⟨(each ph among).2.2 dynamic, ?_⟩
        by_contra made
        exact stateless ph among (.inr ⟨dynamic, Bool.not_eq_false _ ▸ made⟩)
      · exact fun ph among threads => stateless ph among (.inl threads)
      · intro ph among writable a low high
        obtain empty | pages := (exposed_iff bits page kept fun ph among => (each ph among).2.1).mp fine
        · rw [empty ph among writable] at high
          exact absurd high (Nat.not_lt_zero a)
        · obtain ⟨first, last⟩ := pages ph among writable
          exact ⟨first.trans low, high.trans_le last⟩
  · rw [if_neg headed] at is
    exact nomatch is

/-- A plugin none of whose writable segments is without bytes is read. -/
theorem read_of_isPlugin (isFile : IsFile file) {k : Nat} (bits : k < 64) (page : m.page = 2 ^ k)
    (plugin : m.IsPlugin file manifest) (some_ : m.NoneEmpty file) : pluginManifestRead m file = .ok manifest := by
  obtain ⟨all, note, notes, named, one, sized, is⟩ := plugin.notes
  have headed : m.Headed file := ⟨plugin.size, plugin.ident, plugin.machine, plugin.type, plugin.entsize⟩
  have passes : NotesPass file 0 all.flatten := by
    refine ⟨named, ?_, fun _ => ?_⟩
    · rw [one]
      exact forall_mem_singleton.mpr sized
    · rw [one]
      exact Nat.le_refl 1
  have pass := segmentsPass_iff.mpr ⟨notes, fun ph among => ⟨(plugin.inside ph among).1, (plugin.inside ph among).2,
    fun dynamic => (plugin.entries ph among dynamic).1⟩, passes⟩
  obtain ⟨f, fIs⟩ : ∃ f, f = PluginFile.afterAll m.big file {} (m.phdrs file) all := ⟨_, rfl⟩
  have segments : pluginFileSegments m.big file (m.phnum file) (m.phoff file) {} = .ok f :=
    (segments_iff isFile _).mpr ⟨.inr plugin.table, all, pass, fIs⟩
  have kept := kept_afterAll m.big (f := {}) notes
  rw [← fIs] at kept
  obtain ⟨dest, state⟩ := checked_spec m f
  have found : f.found ≠ 0 := by
    rw [kept.found, one]
    exact Nat.succ_ne_zero _
  have fine : ¬ f.Exposed m := by
    rw [exposed_iff bits page kept fun ph among => (plugin.inside ph among).2]
    right
    intro ph among writable
    have bytes := some_ ph among writable
    have first := plugin.data ph among writable ph.vaddr (Nat.le_refl _) (by rw [ElfPhdr.top]; omega)
    have last := plugin.data ph among writable (ph.top - 1) (by rw [ElfPhdr.top]; omega) (by rw [ElfPhdr.top]; omega)
    exact ⟨first.1, Nat.le_of_pred_lt last.2⟩
  have none_ : (f.checked m).state = none := by
    rw [state, kept.state]
    refine ⟨⟨rfl, ?_⟩, fine⟩
    rintro ph among (threads | ⟨dynamic, made⟩)
    · exact plugin.threads ph among threads
    · rw [(plugin.entries ph among dynamic).2] at made
      exact Bool.false_ne_true made
  rw [pluginManifestRead_eq, if_pos headed, segments, bind_ok, if_neg found, none_]
  dsimp only
  rw [dest, kept.dest, one, is]
  rfl

theorem read_error (isFile : IsFile file) (refused : pluginManifestRead m file = .error e) : e.OfFile := by
  rw [pluginManifestRead_eq] at refused
  by_cases headed : m.Headed file
  · rw [if_pos headed] at refused
    obtain here | ⟨f, -, rest⟩ := bind_eq_error refused
    · exact segments_error isFile _ here
    · split_ifs at rest
      · obtain rfl := Except.error.inj rest
        exact ⟨nofun, nofun⟩
      · split at rest
        · obtain rfl := Except.error.inj rest
          exact ⟨nofun, nofun⟩
        · exact nomatch rest
  · rw [if_neg headed] at refused
    obtain rfl := Except.error.inj refused
    exact ⟨nofun, nofun⟩

/-- The manifest of a file is read within the file and without a sum that wraps; it is that of a plugin, and one is
read of every plugin none of whose writable segments is without bytes. -/
theorem plugin_manifest_read (m : PluginMachine) (file : Bytes) (isFile : IsFile file) (k : Nat) (bits : k < 64)
    (page : m.page = 2 ^ k) : (∀ e, pluginManifestRead m file = .error e → e ≠ .shorter ∧ e ≠ .wraps) ∧
    (∀ manifest, pluginManifestRead m file = .ok manifest → m.IsPlugin file manifest) ∧
    (∀ manifest, m.IsPlugin file manifest → m.NoneEmpty file → pluginManifestRead m file = .ok manifest) :=
  ⟨fun _ refused => read_error isFile refused, fun _ is => isPlugin_of_read isFile bits page is,
    fun _ plugin some_ => read_of_isPlugin isFile bits page plugin some_⟩

/-! ## A file -/

/-- A machine. -/
def x86Machine : PluginMachine where
  big := false
  machine := 62
  page := 4096

/-- A file with a note of a manifest, and a writable segment without bytes if it has two segments. -/
def noteFile (segments : UInt8) : Bytes :=
  [0x7f, 69, 76, 70, 2, 1] ++ List.replicate 10 0 ++ [3, 0, 62, 0] ++ List.replicate 12 0 ++ [64, 0, 0, 0, 0, 0, 0, 0] ++
    List.replicate 14 0 ++ [56, 0, segments, 0] ++ List.replicate 6 0 ++
    ([4, 0, 0, 0] ++ List.replicate 4 0 ++ [176] ++ List.replicate 23 0 ++ [56, 2] ++ List.replicate 14 0 ++ [4] ++
      List.replicate 7 0) ++
    ([1, 0, 0, 0, 2, 0, 0, 0] ++ List.replicate 8 0 ++ [0, 16] ++ List.replicate 38 0) ++
    ([6, 0, 0, 0, 36, 2, 0, 0, 1, 107, 115, 97] ++ askaiOwner ++ [0, 0] ++ List.replicate 548 7)

theorem plugin_manifest_read_note : pluginManifestRead x86Machine (noteFile 1) = .ok (List.replicate 548 7) ∧
      x86Machine.IsPlugin (noteFile 1) (List.replicate 548 7) :=
  ⟨by decide +kernel, (plugin_manifest_read x86Machine (noteFile 1) (by unfold IsFile; decide +kernel) 12 (by decide)
    rfl).2.1 _ (by decide +kernel)⟩

/-- A plugin with a writable segment without bytes is refused for writable data. -/
theorem plugin_manifest_read_empty : x86Machine.IsPlugin (noteFile 2) (List.replicate 548 7) ∧
      pluginManifestRead x86Machine (noteFile 2) = .error (.state .data) := by
  have count : x86Machine.phnum (noteFile 2) = 2 := by decide +kernel
  have off : x86Machine.phoff (noteFile 2) = 64 := by decide
  have phdrs : x86Machine.phdrs (noteFile 2) =
      [.ofBytes false (part (noteFile 2) 64 56), .ofBytes false (part (noteFile 2) 120 56)] := by
    rw [PluginMachine.phdrs, count, off]
    rfl
  have walk : NoteWalk false (noteFile 2) 3 744 176 [ElfNote.ofFile false (noteFile 2) 3 744 176] :=
    .note (by decide) (.done (by decide))
  refine ⟨⟨by decide +kernel, by decide +kernel, by decide +kernel, by decide +kernel, by decide +kernel, ?_, ?_,
    ⟨[[ElfNote.ofFile false (noteFile 2) 3 744 176], []], ElfNote.ofFile false (noteFile 2) 3 744 176, ?_, ?_, ?_, ?_,
      ?_⟩, ?_, ?_, ?_⟩, by decide +kernel⟩
  · rw [count, off]
    decide +kernel
  · rw [phdrs]
    decide +kernel
  · rw [phdrs]
    refine .cons ?_ (.cons ?_ .nil)
    · have note : (ElfPhdr.ofBytes false (part (noteFile 2) 64 56)).type = 4 := by decide
      have padding : (ElfPhdr.ofBytes false (part (noteFile 2) 64 56)).padding = 3 := by decide
      have stop : (ElfPhdr.ofBytes false (part (noteFile 2) 64 56)).stop = 744 := by decide
      have first : (ElfPhdr.ofBytes false (part (noteFile 2) 64 56)).offset = 176 := by decide
      rw [NotesOf, if_pos note]
      change NoteWalk false (noteFile 2) _ _ _ _
      rw [padding, stop, first]
      exact walk
    · rw [NotesOf, if_neg (by decide)]
  · intro n among
    rw [flatten_cons, flatten_cons, flatten_nil, append_nil, append_nil, mem_singleton] at among
    rw [among]
    exact fun _ => by decide
  · change manifestsOf (noteFile 2) [_] = [_]
    rw [manifestsOf_cons_of_pos (by decide)]
    rfl
  · exact ⟨by decide, by decide⟩
  · decide +kernel
  · rw [phdrs]
    decide
  · rw [phdrs]
    decide
  · intro ph among writable a low high
    have none_ : ∀ ph ∈ x86Machine.phdrs (noteFile 2), ph.type = 1 → ph.memsz = 0 := by
      rw [phdrs]
      decide
    rw [ElfPhdr.top, none_ ph among writable.1] at high
    omega

end Askai
