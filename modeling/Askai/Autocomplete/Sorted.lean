import Askai.Autocomplete.Model

/-!
# The order of matches

Matches are compared by their lines from a byte on, then by their cursors.
-/

namespace Askai

open Library

/-- The numbers of bytes, which order them as `memcmp` does. -/
def byteNumbers (s : Bytes) : List Nat :=
  s.map UInt8.toNat

theorem byteNumbers_injective : Function.Injective byteNumbers :=
  List.map_injective_iff.mpr fun _ _ same => UInt8.toNat_inj.mp same

theorem memcmp_nil (s : Bytes) : memcmp [] s = .eq ∧ memcmp s [] = .eq := by
  cases s <;> exact ⟨rfl, rfl⟩

/-- Bytes compared as far as both go, then by their lengths. -/
def lexCompare (s t : Bytes) (common : Nat) : Ordering :=
  match memcmp (s.take common) (t.take common) with
  | .eq => compare s.length t.length
  | difference => difference

theorem lexCompare_nil (t : Bytes) : lexCompare [] t 0 = compare 0 t.length := by
  rw [lexCompare, List.take_zero, List.take_zero, (memcmp_nil _).1]
  rfl

theorem lexCompare_cons (a b : UInt8) (s t : Bytes) (common : Nat) :
    (a < b → lexCompare (a :: s) (b :: t) (common + 1) = .lt) ∧
      (b < a → lexCompare (a :: s) (b :: t) (common + 1) = .gt) ∧
      lexCompare (a :: s) (a :: t) (common + 1) = lexCompare s t common := by
  refine ⟨fun less => ?_, fun more => ?_, ?_⟩
  · rw [lexCompare, List.take_succ_cons, List.take_succ_cons, memcmp, if_pos less]
  · have other : ¬ a < b := UInt8.not_lt.mpr (UInt8.le_of_lt more)
    rw [lexCompare, List.take_succ_cons, List.take_succ_cons, memcmp, if_neg other, if_pos more]
  · rw [lexCompare, lexCompare, List.take_succ_cons, List.take_succ_cons, memcmp, if_neg (UInt8.lt_irrefl a),
      if_neg (UInt8.lt_irrefl a), List.length_cons, List.length_cons]
    split
    · rw [Nat.compare_eq_ite_lt, Nat.compare_eq_ite_lt]
      simp only [Nat.add_lt_add_iff_right]
    · rfl

/-- It is the order of lists. -/
theorem lexCompare_iff (s t : Bytes) : (lexCompare s t (min s.length t.length) = .lt ↔ byteNumbers s < byteNumbers t) ∧
      (lexCompare s t (min s.length t.length) = .eq ↔ s = t) := by
  induction s generalizing t with
  | nil =>
    rw [List.length_nil, Nat.zero_min, lexCompare_nil]
    cases t with
    | nil => exact ⟨⟨nofun, fun less => absurd less (lt_irrefl _)⟩, fun _ => rfl, fun _ => rfl⟩
    | cons b t => exact ⟨⟨fun _ => List.nil_lt_cons _ _, fun _ => rfl⟩, nofun, nofun⟩
  | cons a s ih =>
    cases t with
    | nil =>
      rw [List.length_nil, Nat.min_zero, lexCompare, List.take_zero, List.take_zero, (memcmp_nil _).1]
      exact ⟨⟨nofun, fun less => absurd less (List.not_lt_nil _)⟩, nofun, nofun⟩
    | cons b t =>
      obtain ⟨low, high, equal⟩ := lexCompare_cons a b s t (min s.length t.length)
      rw [List.length_cons, List.length_cons, Nat.add_min_add_right, byteNumbers, List.map_cons,
        byteNumbers, List.map_cons, List.cons_lt_cons_iff]
      rcases lt_trichotomy a.toNat b.toNat with less | same | more
      · rw [low (UInt8.lt_iff_toNat_lt.mpr less)]
        refine ⟨⟨fun _ => .inl less, fun _ => rfl⟩, nofun, ?_⟩
        intro same
        rw [(List.cons.inj same).1] at less
        exact absurd less (lt_irrefl _)
      · obtain rfl := UInt8.toNat_inj.mp same
        rw [equal, (ih t).1, (ih t).2]
        refine ⟨⟨fun less => .inr ⟨rfl, less⟩, ?_⟩, fun rest => by rw [rest], fun whole => (List.cons.inj whole).2⟩
        rintro (less | ⟨-, less⟩)
        · exact absurd less (lt_irrefl _)
        · exact less
      · rw [high (UInt8.lt_iff_toNat_lt.mpr more)]
        refine ⟨⟨nofun, ?_⟩, nofun, ?_⟩
        · rintro (less | ⟨same, -⟩)
          · exact absurd less (lt_asymm more)
          · exact absurd same more.ne'
        · intro same
          rw [(List.cons.inj same).1] at more
          exact absurd more (lt_irrefl _)

/-! ## Matches -/

@[simp]
theorem LineView.length_text (lines : Bytes) (view : LineView) : (view.text lines).length = view.len := by
  rw [text, List.length_map, List.length_range]

theorem cstrViewCompare_eq (lines : Bytes) (left right : LineView) : cstrViewCompare lines left right =
      lexCompare (left.text lines) (right.text lines) (min (left.text lines).length (right.text lines).length) := by
  have least : (if left.len < right.len then left.len else right.len) = min left.len right.len := by
    split <;> omega
  rw [LineView.length_text, LineView.length_text, ← least, lexCompare, LineView.length_text, LineView.length_text]
  rfl

/-- The bytes of a match that are compared. -/
def AutocompleteMatch.tail (lines : Bytes) (begin : Nat) (m : AutocompleteMatch) : Bytes :=
  (m.line.slice begin (m.line.len - begin)).text lines

/-- What orders matches: their lines, then their cursors. -/
def AutocompleteMatch.key (lines : Bytes) (begin : Nat) (m : AutocompleteMatch) : List Nat ×ₗ Nat :=
  toLex (byteNumbers (m.tail lines begin), m.cursor)

theorem autocompleteMatchCompare_iff (lines : Bytes) (begin : Nat) (a b : AutocompleteMatch) :
    (autocompleteMatchCompare lines begin a b = .lt ↔ a.key lines begin < b.key lines begin) ∧
      (autocompleteMatchCompare lines begin a b = .eq ↔ a.key lines begin = b.key lines begin) := by
  obtain ⟨less, equal⟩ := lexCompare_iff (a.tail lines begin) (b.tail lines begin)
  have whole : autocompleteMatchCompare lines begin a b = match lexCompare (a.tail lines begin) (b.tail lines begin)
        (min (a.tail lines begin).length (b.tail lines begin).length) with
      | .eq => compare a.cursor b.cursor
      | difference => difference := by
    rw [autocompleteMatchCompare, cstrViewCompare_eq]
    rfl
  have keys : a.key lines begin = b.key lines begin ↔
      a.tail lines begin = b.tail lines begin ∧ a.cursor = b.cursor := by
    rw [AutocompleteMatch.key, AutocompleteMatch.key, toLex_inj, Prod.mk.injEq, byteNumbers_injective.eq_iff]
  rw [whole, keys, AutocompleteMatch.key, AutocompleteMatch.key, Prod.Lex.toLex_lt_toLex]
  cases order : lexCompare (a.tail lines begin) (b.tail lines begin)
      (min (a.tail lines begin).length (b.tail lines begin).length) with
  | lt =>
    have before := less.mp order
    refine ⟨⟨fun _ => .inl before, fun _ => rfl⟩, nofun, ?_⟩
    rintro ⟨same, -⟩
    rw [same] at before
    exact absurd before (lt_irrefl _)
  | eq =>
    have same := equal.mp order
    simp only [same, lt_irrefl, false_or, true_and]
    exact ⟨compare_lt_iff_lt, compare_eq_iff_eq⟩
  | gt =>
    have other : ¬ a.tail lines begin = b.tail lines begin := by
      intro same
      rw [equal.mpr same] at order
      cases order
    have behind : ¬ byteNumbers (a.tail lines begin) < byteNumbers (b.tail lines begin) := by
      intro before
      rw [less.mpr before] at order
      cases order
    refine ⟨⟨nofun, ?_⟩, nofun, fun same => absurd same.1 other⟩
    rintro (before | ⟨same, -⟩)
    · exact absurd before behind
    · exact absurd (byteNumbers_injective same) other

end Askai

/-!
# Sorted matches

The list of a completion is strictly increasing, and its lines are those of the candidates that fit.
-/

namespace Askai

open Library

/-! ## Candidates that fit -/

/-- The line of a match. -/
def MatchCall.line (call : MatchCall) : Bytes :=
  call.parts.flatten

/-- The candidates that fit beside those before them. -/
def keptCalls (count bytes : Nat) : List MatchCall → List MatchCall
  | [] => []
  | call :: calls =>
    if count < autocompleteMatchesMax ∧ bytes + (call.line.length + 1) ≤ autocompleteBytes then
      call :: keptCalls (count + 1) (bytes + (call.line.length + 1)) calls
    else keptCalls count bytes calls

/-- The lines of candidates, each with its NUL. -/
def laidLines (calls : List MatchCall) : Bytes :=
  calls.flatMap fun call => call.line ++ [nul]

theorem laidLines_append (calls more : List MatchCall) : laidLines (calls ++ more) = laidLines calls ++ laidLines more :=
  List.flatMap_append

theorem laidLines_singleton (call : MatchCall) : laidLines [call] = call.line ++ [nul] :=
  List.flatMap_singleton ..

theorem length_laidLines_cons (call : MatchCall) (calls : List MatchCall) :
    (laidLines (call :: calls)).length = call.line.length + 1 + (laidLines calls).length := by
  rw [laidLines, List.flatMap_cons, List.length_append, List.length_append]
  rfl

/-- Candidates that all fit are all kept. -/
theorem keptCalls_eq {calls : List MatchCall} {count bytes : Nat} (few : count + calls.length ≤ autocompleteMatchesMax)
    (short : bytes + (laidLines calls).length ≤ autocompleteBytes) : keptCalls count bytes calls = calls := by
  induction calls generalizing count bytes with
  | nil => rfl
  | cons call calls ih =>
    rw [List.length_cons] at few
    rw [length_laidLines_cons] at short
    rw [keptCalls, if_pos ⟨by omega, by omega⟩, ih (by omega) (by omega)]

theorem keptCalls_sublist (count bytes : Nat) (calls : List MatchCall) :
    (keptCalls count bytes calls).Sublist calls := by
  induction calls generalizing count bytes with
  | nil => exact .slnil
  | cons call calls ih =>
    rw [keptCalls]
    split
    · exact (ih _ _).cons_cons call
    · exact (ih _ _).cons call

/-- What a candidate has: its label and its cursor are in its line, and up to its label its line is that of
the others. -/
structure MatchCall.Sound (front : Bytes) (call : MatchCall) : Prop where
  some_ : call.parts ≠ []
  label : call.labelBegin ≤ call.cursor
  cursor : call.cursor ≤ call.line.length
  shared : call.line.take call.labelBegin = front.take call.labelBegin

/-- The match of a candidate whose line is at `data`. -/
def MatchCall.entry (data : Nat) (call : MatchCall) : AutocompleteMatch where
  line := { data := data, len := call.line.length }
  cursor := call.cursor
  labelBegin := call.labelBegin % 2 ^ 32
  kind := call.kind

/-! ## Adding -/

/-- The length of a line is that of its parts, and it fits with its NUL. -/
theorem partsLength_eq {room length : Nat} {parts : List Bytes} (fits : length < room ∨ parts ≠ []) :
    partsLength room length parts =
      if length + parts.flatten.length < room then some (length + parts.flatten.length) else none := by
  induction parts generalizing length with
  | nil =>
    rw [partsLength, List.flatten_nil, List.length_nil, Nat.add_zero]
    exact (if_pos (fits.resolve_right (not_not.mpr rfl))).symm
  | cons part parts ih =>
    rw [partsLength, List.flatten_cons, List.length_append, ← Nat.add_assoc]
    split
    · rw [if_neg (by omega)]
    · exact ih (.inl (by omega))

theorem room_iff (total used length : Nat) : length < total - used ↔ used + (length + 1) ≤ total := by
  omega

/-- The table has the candidates that fit, in their order. -/
structure Gathered (set : AutocompleteMatches) (kept : List MatchCall) : Prop where
  count : set.count = kept.length
  most : kept.length ≤ autocompleteMatchesMax
  lines : set.lines = laidLines kept
  bytes : set.lines.length ≤ autocompleteBytes
  entries : ∀ i call, kept[i]? = some call → set.matches_ i = call.entry 0
  begin : ∀ call ∈ kept, set.begin ≤ call.labelBegin

theorem Gathered.clear (set : AutocompleteMatches) : Gathered (autocompleteMatchesClear set) [] :=
  ⟨rfl, Nat.zero_le _, rfl, Nat.zero_le _, nofun, nofun⟩

variable {kept : List MatchCall} {front : Bytes} {call : MatchCall} {set : AutocompleteMatches}

theorem Gathered.add (gathered : Gathered set kept)
    (some_ : call.parts ≠ []) : Gathered (autocompleteMatchesAdd set call) (if kept.length < autocompleteMatchesMax ∧
          (laidLines kept).length + (call.line.length + 1) ≤ autocompleteBytes then kept ++ [call] else kept) := by
  have count := gathered.count
  have most := gathered.most
  have parts : partsLength (autocompleteBytes - set.lines.length) 0 call.parts = _ :=
    partsLength_eq (.inr some_)
  simp only [Nat.zero_add] at parts
  change _ = if call.line.length < _ then some call.line.length else none at parts
  simp only [room_iff, gathered.lines] at parts
  rw [autocompleteMatchesAdd, gathered.lines, parts]
  split
  · rename_i full
    rw [if_neg fun room => by omega]
    exact gathered
  · rename_i few
    by_cases fits : (laidLines kept).length + (call.line.length + 1) ≤ autocompleteBytes
    · have both : kept.length < autocompleteMatchesMax ∧
          (laidLines kept).length + (call.line.length + 1) ≤ autocompleteBytes := ⟨by omega, fits⟩
      rw [if_pos fits, if_pos both]
      have lines : laidLines (kept ++ [call]) = laidLines kept ++ call.parts.flatten ++ [nul] := by
        rw [laidLines_append, laidLines_singleton, ← List.append_assoc]
        rfl
      refine ⟨?_, ?_, lines.symm, ?_, ?_, ?_⟩
      · rw [List.length_append, List.length_singleton, ← count]
      · rw [List.length_append, List.length_singleton]
        omega
      · simp only [List.length_append, List.length_singleton]
        exact Nat.le_trans (Nat.le_of_eq (Nat.add_assoc ..)) fits
      · intro i c here
        rcases Nat.lt_or_ge i kept.length with before | behind
        · rw [List.getElem?_append_left before] at here
          exact (Function.update_of_ne (by omega) ..).trans (gathered.entries i c here)
        · have last : i = set.count := by
            have inside := (List.getElem?_eq_some_iff.mp here).1
            rw [List.length_append, List.length_singleton] at inside
            omega
          rw [List.getElem?_append_right behind, last, count, Nat.sub_self] at here
          obtain rfl := Option.some.inj here
          rw [last]
          exact Function.update_self ..
      · intro c member
        simp only []
        rcases List.mem_append.mp member with old | new
        · have least := gathered.begin c old
          have some_ := List.length_pos_of_mem old
          split <;> omega
        · obtain rfl := List.mem_singleton.mp new
          split <;> omega
    · have none_ : ¬ (kept.length < autocompleteMatchesMax ∧
          (laidLines kept).length + (call.line.length + 1) ≤ autocompleteBytes) := fun both => fits both.2
      rw [if_neg fits, if_neg none_]
      exact gathered

theorem Gathered.all (gathered : Gathered set kept) {calls : List MatchCall} (some_ : ∀ call ∈ calls, call.parts ≠ []) :
    Gathered (calls.foldl autocompleteMatchesAdd set)
      (kept ++ keptCalls kept.length (laidLines kept).length calls) := by
  induction calls generalizing set kept with
  | nil => rwa [keptCalls, List.append_nil]
  | cons call calls ih =>
    obtain ⟨first, rest⟩ := List.forall_mem_cons.mp some_
    have next := gathered.add first
    rw [List.foldl_cons, keptCalls]
    split
    · rename_i room
      rw [if_pos room] at next
      have whole := ih next rest
      rw [List.length_append, laidLines_append, List.length_append, laidLines_singleton, List.length_append,
        List.append_assoc] at whole
      exact whole
    · rename_i full
      rw [if_neg full] at next
      exact ih next rest

/-! ## Finishing -/

/-- Each match points at its line. -/
theorem autocompletePoint_entries {before after : List MatchCall} {v : Nat → AutocompleteMatch}
    (pointed : ∀ i call, before[i]? = some call → v i = call.entry (laidLines (before.take i)).length)
    (left : ∀ i call, after[i]? = some call → v (before.length + i) = call.entry 0) :
    ∀ i call, (before ++ after)[i]? = some call →
      autocompletePoint after.length before.length (laidLines before).length v i =
        call.entry (laidLines ((before ++ after).take i)).length := by
  induction after generalizing before v with
  | nil =>
    rw [List.append_nil]
    exact pointed
  | cons call after ih =>
    have here := left 0 call rfl
    rw [Nat.add_zero] at here
    have whole := @ih (before ++ [call]) (Function.update v before.length (call.entry (laidLines before).length)) ?_ ?_
    · rw [List.append_assoc, List.length_append, List.length_singleton, laidLines_append, List.length_append,
        laidLines_singleton, List.length_append, List.length_singleton] at whole
      rw [List.length_cons, autocompletePoint, here]
      exact whole
    · intro i c member
      rcases Nat.lt_or_ge i before.length with first | last
      · rw [List.getElem?_append_left first] at member
        rw [Function.update_of_ne first.ne, pointed i c member, List.take_append_of_le_length first.le]
      · have inside := (List.getElem?_eq_some_iff.mp member).1
        rw [List.length_append, List.length_singleton] at inside
        obtain rfl : i = before.length := by omega
        rw [List.getElem?_append_right (Nat.le_refl _), Nat.sub_self] at member
        obtain rfl := Option.some.inj member
        rw [Function.update_self, List.take_left]
    · intro i c member
      rw [List.length_append, List.length_singleton, Function.update_of_ne (by omega), Nat.add_assoc, Nat.add_comm 1]
      exact left (i + 1) c member

/-- The text of the line of a candidate. -/
theorem text_entry {i : Nat} (here : kept[i]? = some call) :
    (call.entry (laidLines (kept.take i)).length).line.text (laidLines kept) = call.line ∧
      (laidLines (kept.take i)).length + call.line.length < (laidLines kept).length := by
  obtain ⟨inside, rfl⟩ := List.getElem?_eq_some_iff.mp here
  have split_ : laidLines kept = laidLines (kept.take i) ++ (kept[i].line ++ nul :: laidLines (kept.drop (i + 1))) := by
    nth_rewrite 1 [← List.take_append_drop i kept]
    rw [laidLines_append, List.drop_eq_getElem_cons inside, laidLines, laidLines, List.flatMap_cons, List.append_assoc]
    rfl
  constructor
  · apply List.ext_getElem
    · rw [LineView.length_text]
      rfl
    · intro k first second
      simp only [LineView.text, List.getElem_map, List.getElem_range]
      change (laidLines kept).getD ((laidLines (kept.take i)).length + k) nul = _
      rw [split_, List.getD_eq_getElem?_getD, List.getElem?_append_right (Nat.le_add_right ..),
        Nat.add_sub_cancel_left, List.getElem?_append_left second, List.getElem?_eq_getElem second]
      rfl
  · rw [split_, List.length_append, List.length_append, List.length_cons]
    omega

/-- Of the sorted matches `w`, the first `used` are one of each of those before `i`. -/
structure Distinct (lines : Bytes) (begin : Nat) (w : Nat → AutocompleteMatch) (i used : Nat)
    (v : Nat → AutocompleteMatch) : Prop where
  fewer : used ≤ i
  rest : ∀ j, i ≤ j → v j = w j
  increasing : ∀ j k, j < k → k < used → (v j).key lines begin < (v k).key lines begin
  only : ∀ j < used, ∃ k < i, v j = w k
  all : ∀ k < i, ∃ j < used, (v j).key lines begin = (w k).key lines begin
  last : 0 < i → 0 < used ∧ (v (used - 1)).key lines begin = (w (i - 1)).key lines begin

theorem Distinct.step {lines : Bytes} {begin i used n : Nat} {v w : Nat → AutocompleteMatch}
    (sorted : ∀ j k, j < k → k < n → (w j).key lines begin ≤ (w k).key lines begin) (inside : i < n)
    (distinct : Distinct lines begin w i used v) :
    if used = 0 ∨ autocompleteMatchCompare lines begin (v (used - 1)) (v i) ≠ .eq then
      Distinct lines begin w (i + 1) (used + 1) (Function.update v used (v i))
    else Distinct lines begin w (i + 1) used v := by
  have here := distinct.rest i (Nat.le_refl i)
  have fewer := distinct.fewer
  split
  · rename_i other
    have less : 0 < used → (v (used - 1)).key lines begin < (v i).key lines begin := by
      intro some_
      have old : 0 < i := by omega
      have apart := other.resolve_left some_.ne'
      rw [ne_eq, (autocompleteMatchCompare_iff ..).2] at apart
      have order := sorted (i - 1) i (by omega) inside
      rw [← (distinct.last old).2, ← here] at order
      exact lt_of_le_of_ne order apart
    refine ⟨Nat.succ_le_succ fewer, ?_, ?_, ?_, ?_, ?_⟩
    · intro j behind
      rw [Function.update_of_ne (by omega), distinct.rest j (by omega)]
    · intro j k first within
      rw [Function.update_of_ne (by omega)]
      rcases Nat.lt_or_ge k used with old | new
      · rw [Function.update_of_ne old.ne]
        exact distinct.increasing j k first old
      · obtain rfl : k = used := by omega
        rw [Function.update_self]
        rcases Nat.eq_or_lt_of_le (Nat.le_sub_one_of_lt first) with rfl | before
        · exact less (by omega)
        · exact (distinct.increasing j (k - 1) before (by omega)).trans (less (by omega))
    · intro j within
      rcases Nat.lt_or_ge j used with old | new
      · obtain ⟨k, before, same⟩ := distinct.only j old
        rw [Function.update_of_ne old.ne]
        exact ⟨k, by omega, same⟩
      · obtain rfl : j = used := by omega
        rw [Function.update_self]
        exact ⟨i, Nat.lt_succ_self i, here⟩
    · intro k within
      rcases Nat.lt_or_ge k i with old | new
      · obtain ⟨j, before, same⟩ := distinct.all k old
        refine ⟨j, by omega, ?_⟩
        rwa [Function.update_of_ne before.ne]
      · obtain rfl : k = i := by omega
        exact ⟨used, Nat.lt_succ_self used, by rw [Function.update_self, here]⟩
    · intro _
      refine ⟨Nat.succ_pos used, ?_⟩
      rw [Nat.add_sub_cancel, Nat.add_sub_cancel, Function.update_self, here]
  · rename_i same
    rw [not_or, ne_eq, not_not, (autocompleteMatchCompare_iff ..).2, here] at same
    refine ⟨by omega, fun j behind => distinct.rest j (by omega), distinct.increasing, ?_, ?_, ?_⟩
    · intro j within
      obtain ⟨k, before, found⟩ := distinct.only j within
      exact ⟨k, by omega, found⟩
    · intro k within
      rcases Nat.lt_or_ge k i with old | new
      · exact distinct.all k old
      · obtain rfl : k = i := by omega
        exact ⟨used - 1, by omega, same.2⟩
    · exact fun _ => ⟨by omega, same.2⟩

theorem autocompleteUnique_distinct {lines : Bytes} {begin i used n : Nat} {v w : Nat → AutocompleteMatch}
    (sorted : ∀ j k, j < k → k < i + n → (w j).key lines begin ≤ (w k).key lines begin)
    (distinct : Distinct lines begin w i used v) :
    Distinct lines begin w (i + n) (autocompleteUnique lines begin n i used v).1
      (autocompleteUnique lines begin n i used v).2 := by
  induction n generalizing i used v with
  | zero => exact distinct
  | succ n ih =>
    have next := distinct.step sorted (by omega)
    rw [autocompleteUnique, Nat.add_succ, ← Nat.succ_add]
    rw [Nat.add_succ, ← Nat.succ_add] at sorted
    split at next
    · rename_i other
      rw [if_pos other]
      exact ih sorted next
    · rename_i same
      rw [if_neg same]
      exact ih sorted next

/-! ## Completions -/

/-- What is compared of a match is in its line, from byte `begin` on. -/
theorem AutocompleteMatch.tail_eq (lines : Bytes) (begin : Nat) (m : AutocompleteMatch) :
    m.tail lines begin = (m.line.text lines).drop begin := by
  rw [tail, LineView.slice]
  apply List.ext_getElem
  · rw [LineView.length_text, List.length_drop, LineView.length_text]
    simp only []
    split <;> split <;> omega
  · intro k first second
    rw [List.length_drop, LineView.length_text] at second
    simp only [LineView.text, List.getElem_drop, List.getElem_map, List.getElem_range]
    rw [if_neg (by omega), Nat.add_assoc]

/-- A slice of a view is in it. -/
theorem LineView.slice_within (view : LineView) (offset length : Nat) : view.data ≤ (view.slice offset length).data ∧
      (view.slice offset length).data + (view.slice offset length).len ≤ view.data + view.len := by
  rw [slice]
  simp only []
  split <;> split <;> constructor <;> omega

/-- The list of a completion: it is strictly increasing, its lines are those of the candidates that fit, and
labels and cursors are in them. -/
structure Completed (calls : List MatchCall) (set : AutocompleteMatches) : Prop where
  few : set.count ≤ autocompleteMatchesMax
  short : set.lines.length ≤ autocompleteBytes
  lines : set.lines = laidLines (keptCalls 0 0 calls)
  increasing : ∀ j k, j < k → k < set.count →
    autocompleteMatchCompare set.lines set.begin (set.matches_ j) (set.matches_ k) = .lt
  only : ∀ k < set.count, ∃ call ∈ keptCalls 0 0 calls,
    (set.matches_ k).line.text set.lines = call.parts.flatten ∧ (set.matches_ k).cursor = call.cursor ∧
      (set.matches_ k).labelBegin = call.labelBegin ∧ (set.matches_ k).kind = call.kind
  all : ∀ call ∈ keptCalls 0 0 calls, ∃ k < set.count,
    (set.matches_ k).line.text set.lines = call.parts.flatten ∧ (set.matches_ k).cursor = call.cursor
  inside : ∀ k < set.count, (set.matches_ k).labelBegin ≤ (set.matches_ k).cursor ∧
    (set.matches_ k).cursor ≤ (set.matches_ k).line.len ∧
      (set.matches_ k).line.data + (set.matches_ k).line.len < set.lines.length

/-- Candidates with one order of their lines from `begin` on have one line. -/
theorem MatchCall.Sound.line_eq {c d : MatchCall} {begin : Nat} (first : c.Sound front)
    (second : d.Sound front) (least : begin ≤ c.labelBegin) (least' : begin ≤ d.labelBegin)
    (same : c.line.drop begin = d.line.drop begin) : c.line = d.line := by
  have before := congrArg (List.take begin) first.shared
  have before' := congrArg (List.take begin) second.shared
  rw [List.take_take, List.take_take, Nat.min_eq_left least] at before
  rw [List.take_take, List.take_take, Nat.min_eq_left least'] at before'
  rw [← List.take_append_drop begin c.line, before, ← before', same, List.take_append_drop]

/-- A match of a candidate, at its line. -/
def AtLine (kept : List MatchCall) (m : AutocompleteMatch) (call : MatchCall) : Prop :=
  ∃ i, kept[i]? = some call ∧ m = call.entry (laidLines (kept.take i)).length

theorem AtLine.text {m : AutocompleteMatch} (here : AtLine kept m call) :
    m.line.text (laidLines kept) = call.line ∧ m.line.data + m.line.len < (laidLines kept).length := by
  obtain ⟨i, found, rfl⟩ := here
  exact text_entry found

/-- Two matches that have one key are of one line and one cursor. -/
theorem AtLine.same (sound : ∀ call ∈ kept, call.Sound front) {begin : Nat}
    (least : ∀ call ∈ kept, begin ≤ call.labelBegin) {m m' : AutocompleteMatch} {call call' : MatchCall}
    (here : AtLine kept m call) (there : AtLine kept m' call')
    (same : m.key (laidLines kept) begin = m'.key (laidLines kept) begin) :
    call.line = call'.line ∧ call.cursor = call'.cursor := by
  obtain ⟨i, found, rfl⟩ := id here
  obtain ⟨j, found', rfl⟩ := id there
  have member := List.mem_of_getElem? found
  have member' := List.mem_of_getElem? found'
  rw [AutocompleteMatch.key, AutocompleteMatch.key, toLex_inj, Prod.mk.injEq, byteNumbers_injective.eq_iff,
    AutocompleteMatch.tail_eq, AutocompleteMatch.tail_eq, here.text.1, there.text.1] at same
  exact ⟨(sound _ member).line_eq (sound _ member') (least _ member) (least _ member') same.1, same.2⟩

/-- The label of a candidate fits its field. -/
theorem AtLine.label (sound : ∀ call ∈ kept, call.Sound front)
    (short : (laidLines kept).length ≤ autocompleteBytes) {m : AutocompleteMatch}
    (here : AtLine kept m call) : m.labelBegin = call.labelBegin ∧ m.labelBegin ≤ m.cursor ∧ m.cursor ≤ m.line.len := by
  have inside := here.text.2
  obtain ⟨i, found, rfl⟩ := here
  have one := sound call (List.mem_of_getElem? found)
  have label := one.label
  have cursor := one.cursor
  have small : autocompleteBytes ≤ 2 ^ 32 := by decide
  have fits : call.labelBegin % 2 ^ 32 = call.labelBegin := by
    apply Nat.mod_eq_of_lt
    change _ + call.line.length < _ at inside
    omega
  refine ⟨fits, ?_, cursor⟩
  change call.labelBegin % 2 ^ 32 ≤ call.cursor
  rw [fits]
  exact label

theorem Gathered.finish (gathered : Gathered set kept) (sound : ∀ call ∈ kept, call.Sound front) :
    (autocompleteMatchesFinish set).lines = set.lines ∧ (autocompleteMatchesFinish set).count ≤ kept.length ∧
      (∀ j k, j < k → k < (autocompleteMatchesFinish set).count →
        autocompleteMatchCompare set.lines (autocompleteMatchesFinish set).begin
          ((autocompleteMatchesFinish set).matches_ j) ((autocompleteMatchesFinish set).matches_ k) = .lt) ∧
      (∀ k < (autocompleteMatchesFinish set).count,
        ∃ call, AtLine kept ((autocompleteMatchesFinish set).matches_ k) call) ∧
      ∀ call ∈ kept, ∃ k < (autocompleteMatchesFinish set).count, ∃ call',
        AtLine kept ((autocompleteMatchesFinish set).matches_ k) call' ∧ call'.line = call.line ∧
          call'.cursor = call.cursor := by
  have agrees : ∀ a b, autocompleteMatchCompare set.lines set.begin a b = .lt ↔
      a.key set.lines set.begin < b.key set.lines set.begin := fun a b => (autocompleteMatchCompare_iff ..).1
  have pointed := @autocompletePoint_entries [] kept set.matches_ nofun fun i call found => by
    rw [List.length_nil, Nat.zero_add]
    exact gathered.entries i call found
  rw [← gathered.count] at pointed
  change ∀ i call, kept[i]? = some call → autocompletePoint set.count 0 0 set.matches_ i = _ at pointed
  obtain ⟨sorted, moved⟩ := HeapSort.sort_sorted (AutocompleteMatch.key set.lines set.begin) agrees
    (autocompletePoint set.count 0 0 set.matches_) set.count
  have distinct : Distinct set.lines set.begin (autocompleteMatchSort set.lines set.begin
      (autocompletePoint set.count 0 0 set.matches_) set.count) (0 + set.count) _ _ :=
    autocompleteUnique_distinct (n := set.count) (i := 0) (by rwa [Nat.zero_add])
      ⟨Nat.le_refl 0, fun _ _ => rfl, nofun, nofun, nofun, nofun⟩
  rw [Nat.zero_add] at distinct
  have atLine : ∀ i call, kept[i]? = some call → AtLine kept (autocompletePoint set.count 0 0 set.matches_ i) call :=
    fun i call found => ⟨i, found, pointed i call found⟩
  have every : ∀ i < set.count, ∃ call, kept[i]? = some call := fun i inside =>
    ⟨_, List.getElem?_eq_getElem (gathered.count ▸ inside)⟩
  have only : ∀ k < (autocompleteMatchesFinish set).count,
      ∃ call, AtLine kept ((autocompleteMatchesFinish set).matches_ k) call := by
    intro k inside
    obtain ⟨j, less, same⟩ := distinct.only k inside
    obtain ⟨i, less', same'⟩ := moved.exists less
    obtain ⟨call, found⟩ := every i less'
    have here := atLine i call found
    rw [← same'] at here
    refine ⟨call, ?_⟩
    change AtLine kept ((autocompleteUnique _ _ _ _ _ _).2 k) call
    rw [same]
    exact here
  refine ⟨rfl, distinct.fewer.trans gathered.count.le, ?_, only, ?_⟩
  · intro j k first inside
    exact (agrees _ _).mpr (distinct.increasing j k first inside)
  · intro call member
    obtain ⟨i, found⟩ := List.mem_iff_getElem?.mp member
    have less : i < set.count := by
      rw [gathered.count]
      exact (List.getElem?_eq_some_iff.mp found).1
    obtain ⟨j, less', same⟩ := moved.symm.exists less
    obtain ⟨k, inside, key⟩ := distinct.all j less'
    obtain ⟨call', here⟩ := only k inside
    have there := atLine i call found
    rw [same] at there
    refine ⟨k, inside, call', here, here.same sound gathered.begin there ?_⟩
    rw [← gathered.lines]
    exact key

theorem completed {calls : List MatchCall} (sound : ∀ call ∈ calls, call.Sound front)
    (set : AutocompleteMatches) : Completed calls (autocompleteMatches set calls) := by
  have gathered := (Gathered.clear set).all fun call member => (sound call member).some_
  rw [List.nil_append] at gathered
  change Gathered _ (keptCalls 0 0 calls) at gathered
  have sound' : ∀ call ∈ keptCalls 0 0 calls, call.Sound front := fun call member =>
    sound call ((keptCalls_sublist 0 0 calls).mem member)
  obtain ⟨lines, fewer, increasing, only, all⟩ := gathered.finish sound'
  have laid := gathered.lines
  have bytes := gathered.bytes
  rw [← lines] at increasing laid bytes
  have most := gathered.most
  refine ⟨fewer.trans most, bytes, laid, increasing, ?_, ?_, ?_⟩
  · intro k inside
    obtain ⟨call, here⟩ := only k inside
    have text := here.text
    obtain ⟨i, found, same⟩ := here
    have member := List.mem_of_getElem? found
    refine ⟨call, member, ?_, ?_, ?_, ?_⟩
    · rw [← laid] at text
      exact text.1
    · exact congrArg AutocompleteMatch.cursor same
    · exact (AtLine.label sound' (laid ▸ bytes) ⟨i, found, same⟩).1
    · exact congrArg AutocompleteMatch.kind same
  · intro call member
    obtain ⟨k, inside, call', here, line, cursor⟩ := all call member
    have text := here.text.1
    rw [← laid, line] at text
    obtain ⟨i, -, same⟩ := here
    exact ⟨k, inside, text, (congrArg AutocompleteMatch.cursor same).trans cursor⟩
  · intro k inside
    obtain ⟨call, here⟩ := only k inside
    obtain ⟨-, label, cursor⟩ := here.label sound' (laid ▸ bytes)
    have text := here.text.2
    rw [← laid] at text
    exact ⟨label, cursor, text⟩

/-! ## Candidates of lines and of files -/

theorem Replacement.sound {line : Bytes} (r : Replacement line) : r.call.Sound line := by
  have front : (line.take r.begin).length = r.begin := by
    rw [List.length_take]
    exact Nat.min_eq_left r.inside
  refine ⟨nofun, ?_, ?_, ?_⟩
  · exact Nat.le_trans (Nat.le_add_right ..) (Nat.le_add_right ..)
  · rw [MatchCall.line, call]
    simp only [List.flatten_cons, List.length_append, front]
    cases r.separate <;> simp only [Bool.toNat_true, Bool.toNat_false, if_true, List.length_singleton] <;> omega
  · rw [MatchCall.line, call]
    simp only [List.flatten_cons]
    nth_rewrite 1 [← front]
    rw [List.take_left]

theorem fileCall_sound (command directory suffix : Bytes) (entry : Bytes × Bool) :
    (fileCall command directory suffix entry).Sound (command ++ directory) := by
  have label : (fileCall command directory suffix entry).labelBegin = (command ++ directory).length :=
    List.length_append.symm
  refine ⟨nofun, ?_, ?_, ?_⟩
  · exact Nat.le_trans (Nat.le_add_right ..) (Nat.le_add_right ..)
  · rw [MatchCall.line, fileCall]
    simp only [List.flatten_cons, List.length_append]
    split <;> rw [List.length_singleton] <;> omega
  · rw [label, List.take_length, MatchCall.line, fileCall]
    simp only [List.flatten_cons]
    rw [← List.append_assoc, List.take_left]

/-- The bytes that a comparison reads are of the lines of its matches. -/
theorem autocompleteMatchCompare_local {lines lines' : Bytes} {begin : Nat} {a b : AutocompleteMatch}
    (same : ∀ m ∈ [a, b], ∀ k, m.line.data ≤ k → k < m.line.data + m.line.len → lines.getD k nul = lines'.getD k nul) :
    autocompleteMatchCompare lines begin a b = autocompleteMatchCompare lines' begin a b := by
  have tails : ∀ m ∈ [a, b], (m.line.slice begin (m.line.len - begin)).text lines =
      (m.line.slice begin (m.line.len - begin)).text lines' := by
    intro m member
    obtain ⟨first, last⟩ := m.line.slice_within begin (m.line.len - begin)
    apply List.map_congr_left
    intro k inside
    have less := List.mem_range.mp inside
    exact same m member _ (by omega) (by omega)
  rw [autocompleteMatchCompare, autocompleteMatchCompare, cstrViewCompare, cstrViewCompare, tails a (by simp),
    tails b (by simp)]

/-- The list of a completion is strictly increasing in the order of its matches and has the lines of the
candidates that fit, and comparisons read only the lines of their matches. -/
theorem matches_sorted : (∀ (set : AutocompleteMatches) (line : Bytes) (candidates : List (Replacement line)),
      Completed (candidates.map Replacement.call) (autocompleteMatches set (candidates.map Replacement.call))) ∧
    (∀ (set : AutocompleteMatches) (command directory suffix : Bytes) (entries : List (Bytes × Bool)),
      Completed (entries.map (fileCall command directory suffix))
        (autocompleteMatches set (entries.map (fileCall command directory suffix)))) ∧
    (∀ calls : List MatchCall, calls.length ≤ autocompleteMatchesMax →
      (laidLines calls).length ≤ autocompleteBytes → keptCalls 0 0 calls = calls) ∧
    ∀ (lines lines' : Bytes) (begin : Nat) (a b : AutocompleteMatch),
      (∀ m ∈ [a, b], ∀ k, m.line.data ≤ k → k < m.line.data + m.line.len → lines.getD k nul = lines'.getD k nul) →
      autocompleteMatchCompare lines begin a b = autocompleteMatchCompare lines' begin a b := by
  refine ⟨?_, ?_, ?_, fun _ _ _ _ _ => autocompleteMatchCompare_local⟩
  · intro set line candidates
    have sound : ∀ call ∈ candidates.map Replacement.call, call.Sound line := by
      intro call member
      obtain ⟨r, -, rfl⟩ := List.mem_map.mp member
      exact r.sound
    exact completed sound set
  · intro set command directory suffix entries
    have sound : ∀ call ∈ entries.map (fileCall command directory suffix), call.Sound (command ++ directory) := by
      intro call member
      obtain ⟨entry, -, rfl⟩ := List.mem_map.mp member
      exact fileCall_sound ..
    exact completed sound set
  · intro calls few short
    exact keptCalls_eq (by omega) (by omega)

end Askai
