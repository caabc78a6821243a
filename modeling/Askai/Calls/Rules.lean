import Askai.Calls.Model
import Askai.Library.Trace

/-!
# What may happen to the calls of a turn

The rules of a turn as its history shows them: when a call may be launched and its result written,
and when the turn is submitted; and what every history under the rules has.
-/

namespace Askai.Calls

open Library List

/-- The calls launched, in their order. -/
def launches (log : List Event) : List Nat :=
  log.filterMap fun
    | .launched k => some k
    | _ => none

/-- The calls that ended, in their order. -/
def ends (log : List Event) : List Nat :=
  log.filterMap fun
    | .ended k _ => some k
    | _ => none

/-- The calls whose results are written, in their order. -/
def writes (log : List Event) : List Nat :=
  log.filterMap fun
    | .written k _ => some k
    | _ => none

section

variable (past : List Event) (k : Nat) (o : Output) (w : Option Output)

@[simp] theorem launches_launched : launches (past ++ [.launched k]) = launches past ++ [k] := by
  simp [launches]

@[simp] theorem launches_ended : launches (past ++ [.ended k o]) = launches past := by
  simp [launches]

@[simp] theorem launches_written : launches (past ++ [.written k w]) = launches past := by
  simp [launches]

@[simp] theorem ends_launched : ends (past ++ [.launched k]) = ends past := by simp [ends]

@[simp] theorem ends_ended : ends (past ++ [.ended k o]) = ends past ++ [k] := by simp [ends]

@[simp] theorem ends_written : ends (past ++ [.written k w]) = ends past := by simp [ends]

@[simp] theorem writes_launched : writes (past ++ [.launched k]) = writes past := by simp [writes]

@[simp] theorem writes_ended : writes (past ++ [.ended k o]) = writes past := by simp [writes]

@[simp] theorem writes_written : writes (past ++ [.written k w]) = writes past ++ [k] := by
  simp [writes]

variable {past k}

theorem mem_launches : k ∈ launches past ↔ .launched k ∈ past := by
  simp only [launches, mem_filterMap]
  constructor
  · rintro ⟨e, mem, same⟩
    cases e <;> simp_all
  · intro mem
    exact ⟨_, mem, rfl⟩

theorem mem_ends : k ∈ ends past ↔ ∃ o, .ended k o ∈ past := by
  simp only [ends, mem_filterMap]
  constructor
  · rintro ⟨e, mem, same⟩
    cases e <;> simp_all
    exact ⟨_, mem⟩
  · rintro ⟨o, mem⟩
    exact ⟨_, mem, rfl⟩

theorem mem_writes : k ∈ writes past ↔ ∃ w, .written k w ∈ past := by
  simp only [writes, mem_filterMap]
  constructor
  · rintro ⟨e, mem, same⟩
    cases e <;> simp_all
    exact ⟨_, mem⟩
  · rintro ⟨w, mem⟩
    exact ⟨_, mem, rfl⟩

end

/-- The events after which no call of the turn is launched or written. -/
def Event.Closes : Event → Prop
  | .submitted | .compacted | .gone => True
  | _ => False

@[simp] theorem launches_closing {past : List Event} {e : Event} (closes : e.Closes) :
    launches (past ++ [e]) = launches past := by
  cases e <;> simp_all [launches, Event.Closes]

@[simp] theorem ends_closing {past : List Event} {e : Event} (closes : e.Closes) : ends (past ++ [e]) = ends past := by
  cases e <;> simp_all [ends, Event.Closes]

@[simp] theorem writes_closing {past : List Event} {e : Event} (closes : e.Closes) :
    writes (past ++ [e]) = writes past := by
  cases e <;> simp_all [writes, Event.Closes]

/-- The turn goes on. -/
def Goes (past : List Event) : Prop := ∀ e ∈ past, ¬e.Closes

/-- The call is launched and has not ended. -/
def Runs (past : List Event) (k : Nat) : Prop := k ∈ launches past ∧ k ∉ ends past

/-- The call goes to a tool with `KF_SERIAL`. -/
def Answer.Serial (answer : Answer) (k : Nat) : Prop :=
  ∃ call, answer.calls[k]? = some call ∧ (answer.flags call.tool).serial = true

/-- The call, or the call before it, has the turn to itself. -/
def Answer.Alone (answer : Answer) (k : Nat) : Prop :=
  answer.Serial k ∨ ∃ j, k = j + 1 ∧ answer.Serial j

/-- What may happen after the events `past`. -/
inductive Allowed (answer : Answer) (past : List Event) : Event → Prop
  | launched {k : Nat} (inside : k < answer.calls.length) (order : launches past = List.range k)
      (alone : answer.Alone k → writes past = List.range k) (goes : Goes past) :
      Allowed answer past (.launched k)
  | ended {k : Nat} {o : Output} (runs : Runs past k) : Allowed answer past (.ended k o)
  | written {k : Nat} {o : Output} (order : writes past = List.range k)
      (ended : .ended k o ∈ past) (goes : Goes past) : Allowed answer past (.written k (some o))
  | submitted (whole : writes past = List.range answer.calls.length) (goes : Goes past) :
      Allowed answer past .submitted
  | compacted (goes : Goes past) : Allowed answer past .compacted
  | gone (goes : Goes past) : Allowed answer past .gone

/-- A history of a turn under its rules. -/
abbrev Lawful (answer : Answer) : List Event → Prop := Ruled (Allowed answer)

namespace Lawful

variable {answer : Answer} {log past later : List Event} {k j : Nat}

/-- Calls are launched in the order of the answer, each once. -/
theorem launches_eq (lawful : Lawful answer log) : ∃ m ≤ answer.calls.length, launches log = List.range m := by
  induction lawful with
  | nil => exact ⟨0, Nat.zero_le _, rfl⟩
  | snoc _ allowed ih =>
    cases allowed with
    | @launched k inside order _ _ =>
      refine ⟨k + 1, inside, ?_⟩
      rw [launches_launched, order, range_succ]
    | ended _ => simpa using ih
    | written _ _ _ => simpa using ih
    | submitted _ _ => rwa [launches_closing (e := .submitted) trivial]
    | compacted _ => rwa [launches_closing (e := .compacted) trivial]
    | gone _ => rwa [launches_closing (e := .gone) trivial]

/-- A call ends once, after its launch. -/
theorem ends_sub (lawful : Lawful answer log) : (ends log).Nodup ∧ ∀ k ∈ ends log, k ∈ launches log := by
  induction lawful with
  | nil => exact ⟨nodup_nil, by simp [ends]⟩
  | snoc _ allowed ih =>
    cases allowed with
    | launched _ _ _ _ =>
      rw [ends_launched, launches_launched]
      exact ⟨ih.1, fun k mem => mem_append_left _ (ih.2 k mem)⟩
    | @ended k o runs =>
      rw [ends_ended, launches_ended]
      constructor
      · rw [nodup_append]
        refine ⟨ih.1, nodup_singleton k, ?_⟩
        rintro a mem b same rfl
        rw [mem_singleton] at same
        exact runs.2 (same ▸ mem)
      · intro j mem
        rw [mem_append, mem_singleton] at mem
        rcases mem with mem | rfl
        · exact ih.2 j mem
        · exact runs.1
    | written _ _ _ => simpa using ih
    | submitted _ _ => rwa [ends_closing (e := .submitted) trivial, launches_closing (e := .submitted) trivial]
    | compacted _ => rwa [ends_closing (e := .compacted) trivial, launches_closing (e := .compacted) trivial]
    | gone _ => rwa [ends_closing (e := .gone) trivial, launches_closing (e := .gone) trivial]

/-- Results are written in the order of the answer, each once, and after their calls ended. -/
theorem writes_eq (lawful : Lawful answer log) : (∃ p, writes log = List.range p) ∧ ∀ k ∈ writes log, k ∈ ends log := by
  induction lawful with
  | nil => exact ⟨⟨0, rfl⟩, by simp [writes]⟩
  | snoc _ allowed ih =>
    cases allowed with
    | launched _ _ _ _ => simpa using ih
    | ended _ =>
      rw [writes_ended, ends_ended]
      exact ⟨ih.1, fun k mem => mem_append_left _ (ih.2 k mem)⟩
    | @written k o order ended _ =>
      rw [writes_written, ends_written]
      constructor
      · exact ⟨k + 1, by rw [order, range_succ]⟩
      · intro j mem
        rw [mem_append, mem_singleton] at mem
        rcases mem with mem | rfl
        · exact ih.2 j mem
        · exact mem_ends.mpr ⟨o, ended⟩
    | submitted _ _ => rwa [writes_closing (e := .submitted) trivial, ends_closing (e := .submitted) trivial]
    | compacted _ => rwa [writes_closing (e := .compacted) trivial, ends_closing (e := .compacted) trivial]
    | gone _ => rwa [writes_closing (e := .gone) trivial, ends_closing (e := .gone) trivial]

theorem lt_of_launched (lawful : Lawful answer log) (mem : k ∈ launches log) : k < answer.calls.length := by
  obtain ⟨m, inside, order⟩ := lawful.launches_eq
  rw [order, mem_range] at mem
  exact Nat.lt_of_lt_of_le mem inside

/-- No more calls end than the answer makes. -/
theorem length_ends (lawful : Lawful answer log) : (ends log).length ≤ answer.calls.length := by
  obtain ⟨nodup, launched⟩ := lawful.ends_sub
  have inside : ends log ⊆ List.range answer.calls.length := by
    intro k mem
    rw [mem_range]
    exact lawful.lt_of_launched (launched k mem)
  simpa using (nodup.subperm inside).length_le

/-- All results are written only if all calls were launched. -/
theorem written_inside (lawful : Lawful answer log) {p : Nat} (order : writes log = List.range p) :
    p ≤ answer.calls.length := by
  cases p with
  | zero => exact Nat.zero_le _
  | succ p =>
    have mem : p ∈ writes log := by simp [order]
    exact lawful.lt_of_launched (lawful.ends_sub.2 p (lawful.writes_eq.2 p mem))

/-- A call that has the turn to itself is launched once the results before it are written. -/
theorem written_of_alone (lawful : Lawful answer log) (mem : k ∈ launches log)
    (alone : answer.Alone k) (before : j < k) : j ∈ writes log := by
  obtain ⟨past, later, rfl⟩ := append_of_mem (mem_launches.mp mem)
  have here : j ∈ writes past := by
    cases Ruled.allows lawful with
    | launched _ _ order _ => simp [order alone, before]
  obtain ⟨w, mem⟩ := mem_writes.mp here
  exact mem_writes.mpr ⟨w, mem_append_left _ mem⟩

/-- While a call of a serial tool runs, no other call of the turn does. -/
theorem runs_alone (lawful : Lawful answer log) (serial : answer.Serial k) (runs : Runs log k)
    (other : Runs log j) : j = k := by
  obtain ⟨m, _, order⟩ := lawful.launches_eq
  rcases Nat.lt_trichotomy j k with before | same | after
  · have written := lawful.written_of_alone runs.1 (.inl serial) before
    exact absurd (lawful.writes_eq.2 j written) other.2
  · exact same
  · -- The call after a serial call is launched once that call's result is written.
    have next : k + 1 ∈ launches log := by
      have mem := other.1
      rw [order, mem_range] at mem ⊢
      omega
    have written := lawful.written_of_alone next (.inr ⟨k, rfl, serial⟩) (Nat.lt_succ_self k)
    exact absurd (lawful.writes_eq.2 k written) runs.2

/-- Nothing happens to the calls of a turn that is submitted. -/
theorem submitted_last (lawful : Lawful answer (past ++ .submitted :: later)) :
    writes past = List.range answer.calls.length ∧ later = [] := by
  have whole : writes past = List.range answer.calls.length := by
    cases Ruled.allows lawful with
    | submitted whole _ => exact whole
  refine ⟨whole, ?_⟩
  cases later with
  | nil => rfl
  | cons e later =>
    exfalso
    have front : Lawful answer (past ++ [.submitted]) := by
      apply Ruled.left
      simpa using lawful
    have allowed : Allowed answer (past ++ [.submitted]) e := by
      apply Ruled.allows
      simpa using lawful
    have closed : ¬Goes (past ++ [.submitted]) := by
      intro goes
      exact goes .submitted (by simp) trivial
    cases allowed with
    | launched _ _ _ goes => exact closed goes
    | @ended k _ runs =>
      have inside := front.lt_of_launched runs.1
      apply runs.2
      apply front.writes_eq.2
      have same : writes (past ++ [.submitted]) = writes past := writes_closing trivial
      rw [same, whole, mem_range]
      exact inside
    | written _ _ goes => exact closed goes
    | submitted _ goes => exact closed goes
    | compacted goes => exact closed goes
    | gone goes => exact closed goes

end Lawful

end Askai.Calls
