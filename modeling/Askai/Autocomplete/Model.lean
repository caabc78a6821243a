import Askai.Library.Bytes
import Askai.Library.HeapOrder
import Mathlib.Data.List.Lex
import Mathlib.Data.Prod.Lex

/-!
# The matches of a completion

The table of matches and the text of their lines (`autocomplete_matches_add`, `autocomplete_match_sort`,
`autocomplete_matches_finish` of `autocomplete.c`).
-/

namespace Askai

open Library

/-- `enum autocomplete_kind`. -/
inductive AutocompleteKind
  | command
  | tool
  | parameter
  | value
  | name
  | file
  deriving DecidableEq

/-- A `struct cstr_view` into the text of the lines, from byte `data` on. -/
structure LineView where
  data : Nat
  len : Nat
  deriving DecidableEq

/-- The bytes that a view is of. -/
def LineView.text (lines : Bytes) (view : LineView) : Bytes :=
  (List.range view.len).map fun k => lines.getD (view.data + k) nul

/-- `cstr_view_slice`. -/
def LineView.slice (text : LineView) (offset length : Nat) : LineView :=
  let offset := if text.len < offset then text.len else offset
  let len := text.len - offset
  { data := text.data + offset, len := if length < len then length else len }

/-- `memcmp`, of as many bytes of each. -/
def memcmp : Bytes → Bytes → Ordering
  | a :: s, b :: t => if a < b then .lt else if b < a then .gt else memcmp s t
  | _, _ => .eq

/-- `cstr_view_compare`. -/
def cstrViewCompare (lines : Bytes) (left right : LineView) : Ordering :=
  let common := if left.len < right.len then left.len else right.len
  match memcmp ((left.text lines).take common) ((right.text lines).take common) with
  | .eq => compare left.len right.len
  | difference => difference

/-- `struct autocomplete_match`. -/
structure AutocompleteMatch where
  line : LineView
  cursor : Nat
  labelBegin : Nat
  kind : AutocompleteKind
  deriving DecidableEq

/-- `autocomplete_match_compare`. -/
def autocompleteMatchCompare (lines : Bytes) (begin : Nat) (a b : AutocompleteMatch) : Ordering :=
  match cstrViewCompare lines (a.line.slice begin (a.line.len - begin)) (b.line.slice begin (b.line.len - begin)) with
  | .eq => compare a.cursor b.cursor
  | difference => difference

/-- `AUTOCOMPLETE_MATCHES`. -/
abbrev autocompleteMatchesMax : Nat := 256

/-- `AUTOCOMPLETE_BYTES`. -/
abbrev autocompleteBytes : Nat := 16 * 2 ^ 20

/-- `struct autocomplete_matches`. -/
structure AutocompleteMatches where
  matches_ : Nat → AutocompleteMatch
  lines : Bytes
  count : Nat
  begin : Nat

/-- `autocomplete_matches_clear`. -/
def autocompleteMatchesClear (set : AutocompleteMatches) : AutocompleteMatches :=
  { set with count := 0, lines := [] }

/-- The arguments of `autocomplete_matches_add`. -/
structure MatchCall where
  parts : List Bytes
  cursor : Nat
  labelBegin : Nat
  kind : AutocompleteKind

/-- The first loop of `autocomplete_matches_add`: the length of the line, none if it does not fit. -/
def partsLength (room length : Nat) : List Bytes → Option Nat
  | [] => some length
  | part :: parts =>
    if room - length ≤ part.length then none else partsLength room (length + part.length) parts

/-- `autocomplete_matches_add`. -/
def autocompleteMatchesAdd (set : AutocompleteMatches) (call : MatchCall) : AutocompleteMatches :=
  if set.count = autocompleteMatchesMax then set
  else
    match partsLength (autocompleteBytes - set.lines.length) 0 call.parts with
    | none => set
    | some length =>
      { lines := set.lines ++ call.parts.flatten ++ [nul]
        begin := if set.count = 0 ∨ call.labelBegin < set.begin then call.labelBegin else set.begin
        matches_ := Function.update set.matches_ set.count
          { line := { data := 0, len := length }, cursor := call.cursor,
            labelBegin := call.labelBegin % 2 ^ 32, kind := call.kind }
        count := set.count + 1 }

/-- The first loop of `autocomplete_matches_finish`, of `n` matches from `i` on: each points at its line. -/
def autocompletePoint (n i line : Nat) (v : Nat → AutocompleteMatch) : Nat → AutocompleteMatch :=
  match n with
  | 0 => v
  | n + 1 =>
    autocompletePoint n (i + 1) (line + (v i).line.len + 1)
      (Function.update v i { v i with line := { data := line, len := (v i).line.len } })

/-- `autocomplete_match_sort`. -/
def autocompleteMatchSort (lines : Bytes) (begin : Nat) (v : Nat → AutocompleteMatch) (count : Nat) :
    Nat → AutocompleteMatch :=
  HeapSort.sort (autocompleteMatchCompare lines begin) v count

/-- The second loop of `autocomplete_matches_finish`, of `n` matches from `i` on: equal ones but the first
go. -/
def autocompleteUnique (lines : Bytes) (begin n i used : Nat) (v : Nat → AutocompleteMatch) :
    Nat × (Nat → AutocompleteMatch) :=
  match n with
  | 0 => (used, v)
  | n + 1 =>
    if used = 0 ∨ autocompleteMatchCompare lines begin (v (used - 1)) (v i) ≠ .eq then
      autocompleteUnique lines begin n (i + 1) (used + 1) (Function.update v used (v i))
    else autocompleteUnique lines begin n (i + 1) used v

/-- `autocomplete_matches_finish`. -/
def autocompleteMatchesFinish (set : AutocompleteMatches) : AutocompleteMatches :=
  let pointed := autocompletePoint set.count 0 0 set.matches_
  let sorted := autocompleteMatchSort set.lines set.begin pointed set.count
  let (used, matches_) := autocompleteUnique set.lines set.begin set.count 0 0 sorted
  { set with matches_ := matches_, count := used }

/-- The completion of candidates in the order in which they come. -/
def autocompleteMatches (set : AutocompleteMatches) (calls : List MatchCall) : AutocompleteMatches :=
  autocompleteMatchesFinish (calls.foldl autocompleteMatchesAdd (autocompleteMatchesClear set))

/-! ## Candidates -/

/-- A candidate that replaces the bytes of a line from `begin` to `last`. -/
structure Replacement (line : Bytes) where
  begin : Nat
  last : Nat
  inside : begin ≤ line.length
  value : Bytes
  separate : Bool
  kind : AutocompleteKind

/-- `cstr_view_space`. -/
def cstrViewSpace (c : UInt8) : Bool :=
  c = space || c = tab || c = cr || c = lf

/-- `autocomplete_replacement`. -/
def Replacement.call {line : Bytes} (r : Replacement line) : MatchCall :=
  let last := if r.separate ∧ r.last < line.length ∧ cstrViewSpace (line.getD r.last 0) then r.last + 1 else r.last
  { parts := [line.take r.begin, r.value, if r.separate then [space] else [], line.drop last]
    cursor := r.begin + r.value.length + r.separate.toNat
    labelBegin := r.begin
    kind := r.kind }

/-- The candidate of `autocomplete_file_complete` for a name in a directory. -/
def fileCall (command directory suffix : Bytes) (entry : Bytes × Bool) : MatchCall where
  parts := [command, directory, entry.1, if entry.2 then [slash] else [space], suffix]
  cursor := command.length + directory.length + entry.1.length + 1
  labelBegin := command.length + directory.length
  kind := .file

end Askai
