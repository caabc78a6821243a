import Askai.Library.Bytes

/-!
# Lines

A text cut after each of its separators: lines that end in one, and at most one last line that does
not.
-/

namespace Askai.Library

open List

variable {α : Type*} [DecidableEq α] {c : α} {l : List α}

/-- The lines of a text. -/
def textLines (c : α) (l : List α) : List (List α) :=
  match _cut : cut c l with
  | none => if l = [] then [] else [l]
  | some (front, back) => (front ++ [c]) :: textLines c back
termination_by l.length
decreasing_by
  have length := cut_length _cut
  omega

omit [DecidableEq α] in

/-! ## Lines without their separators -/

omit [DecidableEq α] in
/-- Lines with a separator after each. -/
def closed (c : α) (lines : List (List α)) : List α :=
  lines.flatMap (· ++ [c])

omit [DecidableEq α] in
theorem closed_append (c : α) (lines more : List (List α)) :
    closed c (lines ++ more) = closed c lines ++ closed c more :=
  flatMap_append

omit [DecidableEq α] in
theorem closed_cons (c : α) (line : List α) (lines : List (List α)) :
    closed c (line :: lines) = line ++ [c] ++ closed c lines :=
  flatMap_cons

omit [DecidableEq α] in
theorem closed_concat (c : α) (lines : List (List α)) (line : List α) :
    closed c (lines ++ [line]) = closed c lines ++ line ++ [c] := by
  rw [closed_append, append_assoc]
  congr 1
  exact flatMap_singleton _ _

omit [DecidableEq α] in
theorem dropLast_closed {lines : List (List α)} (some_ : lines ≠ []) :
    (closed c lines).dropLast = [c].intercalate lines := by
  induction lines with
  | nil => exact absurd rfl some_
  | cons line lines ih =>
    cases lines with
    | nil => simp [closed]
    | cons next lines =>
      have rest := ih (cons_ne_nil _ _)
      have more : closed c (next :: lines) ≠ [] := by simp [closed]
      rw [closed_cons, dropLast_append_of_ne_nil more, rest, intercalate_cons_cons, append_assoc]

omit [DecidableEq α] in
theorem closed_eq_nil {lines : List (List α)} : closed c lines = [] ↔ lines = [] := by
  cases lines <;> simp [closed]

/-- A text is its lines, of which the last has no separator. -/
theorem splitOn_closed {lines : List (List α)} {rest : List α} (whole : ∀ line ∈ lines, c ∉ line)
    (last : c ∉ rest) : (closed c lines ++ rest).splitOn c = lines ++ [rest] := by
  induction lines with
  | nil => exact splitOn_eq_singleton last
  | cons line lines ih =>
    have here := whole line mem_cons_self
    rw [closed_cons, append_assoc, append_assoc, singleton_append,
      splitOn_append_cons_self_of_not_mem here, ih fun l member => whole l (mem_cons_of_mem _ member), cons_append]

theorem exists_closed (c : α) (l : List α) :
    ∃ lines rest, l = closed c lines ++ rest ∧ (∀ line ∈ lines, c ∉ line) ∧ c ∉ rest := by
  induction length : l.length using Nat.strong_induction_on generalizing l with
  | _ length ih =>
    subst length
    cases here : cut c l with
    | none => exact ⟨[], l, rfl, nofun, cut_eq_none.mp here⟩
    | some parts =>
      obtain ⟨front, back⟩ := parts
      obtain ⟨rfl, absent⟩ := cut_eq_some.mp here
      have shorter : back.length < (front ++ c :: back).length := by
        rw [length_append, length_cons]
        omega
      obtain ⟨lines, rest, split, whole, last⟩ := ih back.length shorter back rfl
      refine ⟨front :: lines, rest, ?_, ?_, last⟩
      · rw [closed_cons, append_assoc, append_assoc, ← split]
        rfl
      · intro line member
        rcases mem_cons.mp member with rfl | later
        · exact absent
        · exact whole line later

end Askai.Library
