import Mathlib.Data.List.Nodup
import Mathlib.Tactic
import Mathlib.Data.List.Induction

/-!
# Traces of a labelled transition system

Finite runs with the events they go through, the invariant rule, and the rule for tokens that a
run emits at most once.
-/

namespace Askai.Library

variable {σ ε τ : Type*}

/-- `Trace step s es t`: the events `es`, in order, lead from `s` to `t`. -/
inductive Trace (step : σ → ε → σ → Prop) (s : σ) : List ε → σ → Prop
  | nil : Trace step s [] s
  | snoc {es : List ε} {t u : σ} {e : ε} :
      Trace step s es t → step t e u → Trace step s (es ++ [e]) u

namespace Trace

variable {step : σ → ε → σ → Prop} {s t u : σ} {es fs : List ε}

/-- What holds at the start and is kept by every step holds at the end. -/
theorem invariant {inv : σ → Prop} (trace : Trace step s es t) (start : inv s)
    (keeps : ∀ t e u, inv t → step t e u → inv u) : inv t := by
  induction trace with
  | nil => exact start
  | snoc _ last ih => exact keeps _ _ _ ih last

/-- A run is no longer than what its first state has to do, and what its events add to that. -/
theorem length_le {inv : σ → Prop} {work : σ → Nat} {spare : ε → Nat} (trace : Trace step s es t)
    (start : inv s) (keeps : ∀ t e u, inv t → step t e u → inv u)
    (less : ∀ t e u, inv t → step t e u → work u + 1 ≤ work t + spare e) :
    es.length + work t ≤ work s + (es.map spare).sum := by
  induction trace with
  | nil => simp
  | snoc front last ih =>
    have here := less _ _ _ (front.invariant start keeps) last
    simp only [List.length_append, List.map_append, List.sum_append, List.length_singleton,
      List.map_singleton, List.sum_singleton]
    omega

theorem append (front : Trace step s es t) (back : Trace step t fs u) : Trace step s (es ++ fs) u := by
  induction back with
  | nil => simpa using front
  | snoc _ last ih =>
    rw [← List.append_assoc]
    exact .snoc ih last

theorem single {e : ε} (h : step s e t) : Trace step s [e] t := by
  have start : Trace step s [] s := .nil
  simpa using start.snoc h

theorem of_nil (trace : Trace step s [] t) : s = t := by
  generalize whole : ([] : List ε) = events at trace
  cases trace with
  | nil => rfl
  | snoc _ _ => simp at whole

theorem of_single {e : ε} (trace : Trace step s [e] t) : step s e t := by
  generalize whole : [e] = events at trace
  cases trace with
  | nil => simp at whole
  | @snoc es u _ f front last =>
    obtain ⟨rfl, rfl⟩ : es = [] ∧ f = e := by
      have same := List.append_eq_singleton_iff.mp whole.symm
      simpa using same
    exact front.of_nil ▸ last

/-- A trace passes through a state between any two parts of its events. -/
theorem split (trace : Trace step s (es ++ fs) u) : ∃ t, Trace step s es t ∧ Trace step t fs u := by
  induction fs using List.reverseRecOn generalizing u with
  | nil => exact ⟨u, by simpa using trace, .nil⟩
  | append_singleton fs e ih =>
    rw [← List.append_assoc] at trace
    generalize whole : es ++ fs ++ [e] = events at trace
    cases trace with
    | nil => simp at whole
    | snoc front last =>
      obtain ⟨same, event⟩ := List.append_inj' whole rfl
      obtain rfl := List.singleton_inj.mp event
      subst same
      obtain ⟨middle, first, second⟩ := ih front
      exact ⟨middle, first, .snoc second last⟩

end Trace

/-- Tokens that a step emits only while they are unspent, and that stay spent once emitted. -/
structure Tokens (step : σ → ε → σ → Prop) (inv : σ → Prop) (emits : ε → List τ)
    (spent : σ → τ → Prop) : Prop where
  keeps : ∀ t e u, inv t → step t e u → inv u
  distinct : ∀ t e u, inv t → step t e u → (emits e).Nodup
  unspent : ∀ t e u, inv t → step t e u → ∀ x ∈ emits e, ¬spent t x
  spends : ∀ t e u, inv t → step t e u → ∀ x ∈ emits e, spent u x
  stays : ∀ t e u, inv t → step t e u → ∀ x, spent t x → spent u x

namespace Tokens

variable {step : σ → ε → σ → Prop} {inv : σ → Prop} {emits : ε → List τ} {spent : σ → τ → Prop}
  {s t : σ} {es : List ε}

/-- A token that is spent is emitted no more. -/
theorem not_emitted (tokens : Tokens step inv emits spent) (trace : Trace step s es t)
    (start : inv s) {x : τ} (paid : spent s x) : x ∉ es.flatMap emits ∧ spent t x := by
  induction trace with
  | nil => exact ⟨by simp, paid⟩
  | @snoc es t u e front last ih =>
    have here : inv t := front.invariant start tokens.keeps
    obtain ⟨absent, still⟩ := ih
    refine ⟨?_, tokens.stays _ _ _ here last x still⟩
    simp only [List.flatMap_append, List.flatMap_singleton, List.mem_append, not_or]
    exact ⟨absent, fun emitted => tokens.unspent _ _ _ here last x emitted still⟩

/-- A token is emitted once. -/
theorem emitted_nodup (tokens : Tokens step inv emits spent) (trace : Trace step s es t)
    (start : inv s) : (es.flatMap emits).Nodup ∧ ∀ x ∈ es.flatMap emits, spent t x := by
  induction trace with
  | nil => simp
  | @snoc es t u e front last ih =>
    have here : inv t := front.invariant start tokens.keeps
    obtain ⟨nodup, paid⟩ := ih
    constructor
    · simp only [List.flatMap_append, List.flatMap_singleton]
      refine List.nodup_append.mpr ⟨nodup, tokens.distinct _ _ _ here last, ?_⟩
      rintro x early _ late rfl
      exact tokens.unspent _ _ _ here last x late (paid x early)
    · intro x member
      simp only [List.flatMap_append, List.flatMap_singleton, List.mem_append] at member
      rcases member with early | late
      · exact tokens.stays _ _ _ here last x (paid x early)
      · exact tokens.spends _ _ _ here last x late

end Tokens

end Askai.Library

/-!
# Histories under rules

Lists of events that grew one event at a time, each where the events before it allowed it.
-/

namespace Askai.Library

variable {ε : Type*}

/-- The events of the list came one after another, each allowed by those before it. -/
inductive Ruled (allowed : List ε → ε → Prop) : List ε → Prop
  | nil : Ruled allowed []
  | snoc {past : List ε} {e : ε} :
      Ruled allowed past → allowed past e → Ruled allowed (past ++ [e])

namespace Ruled

variable {allowed : List ε → ε → Prop} {past later : List ε} {e : ε}

theorem of_snoc (ruled : Ruled allowed (past ++ [e])) : Ruled allowed past ∧ allowed past e := by
  generalize whole : past ++ [e] = log at ruled
  cases ruled with
  | nil => simp at whole
  | snoc before allows =>
    obtain ⟨rfl, same⟩ := List.append_inj' whole rfl
    obtain rfl := List.singleton_inj.mp same
    exact ⟨before, allows⟩

/-- What a history begins with is one. -/
theorem left (ruled : Ruled allowed (past ++ later)) : Ruled allowed past := by
  induction later using List.reverseRecOn with
  | nil => simpa using ruled
  | append_singleton later e ih =>
    rw [← List.append_assoc] at ruled
    exact ih ruled.of_snoc.1

/-- Every event of a history was allowed where it came. -/
theorem allows (ruled : Ruled allowed (past ++ e :: later)) : allowed past e := by
  have here : Ruled allowed (past ++ [e]) := by
    apply left
    simpa using ruled
  exact here.of_snoc.2

end Ruled

end Askai.Library
