import Askai.Loop.TimerHeap

/-!
# Firing timers

Runs of a loop's timers, and what a turn fires of them.
-/

namespace Askai.Timers

open Library

/-- The timers of a loop and the deadlines that calls have set, after any calls, in and between turns. -/
inductive TimerRun : TimerHeap → (Nat → Option UInt64) → Prop
  | start (timer : Nat → LoopTimer) (none_ : ∀ u, (timer u).slot = 0) (now : UInt64) :
      TimerRun { timer, now } fun _ => none
  | set {l l' : TimerHeap} {ref : Nat → Option UInt64} (run : TimerRun l ref) (memory : Bool) (t : Nat)
      (due : UInt64) (done : loopTimerSet memory l t due = (l', none)) :
      TimerRun l' (Function.update ref t (some due))
  | stop {l l' : TimerHeap} {ref : Nat → Option UInt64} (run : TimerRun l ref) (t : Nat)
      (done : loopTimerStop l t = (l', none)) : TimerRun l' (Function.update ref t none)
  | setRefused {l l' : TimerHeap} {ref : Nat → Option UInt64} {e : TimerError} (run : TimerRun l ref)
      (memory : Bool) (t : Nat) (due : UInt64) (refused : loopTimerSet memory l t due = (l', some e)) :
      TimerRun l' ref
  | stopRefused {l l' : TimerHeap} {ref : Nat → Option UInt64} {e : TimerError} (run : TimerRun l ref)
      (t : Nat) (refused : loopTimerStop l t = (l', some e)) : TimerRun l' ref
  | exit {l : TimerHeap} {ref : Nat → Option UInt64} (run : TimerRun l ref) :
      TimerRun { l with exit := true } ref
  | turn {l : TimerHeap} {ref : Nat → Option UInt64} (run : TimerRun l ref) (now : UInt64) :
      TimerRun { l with now } ref
  /-- A timer that is due never fires again before it is set. -/
  | fire {l : TimerHeap} {ref : Nat → Option UInt64} (run : TimerRun l ref) (some_ : l.timers ≠ 0)
      (due : (l.timer (l.heap 0)).due ≤ l.now) :
      TimerRun (loopTimerDue l (l.heap 0) never) (Function.update ref (l.heap 0) (some never))

variable {l : TimerHeap}

/-- The first entry is a timer that is set, and none is due before it. -/
theorem Sound.root (sound : Sound l) (some_ : l.timers ≠ 0) :
    (l.timer (l.heap 0)).slot ≠ 0 ∧ armed l (l.heap 0) = some (l.timer (l.heap 0)).due ∧
      ∀ u d, armed l u = some d → (l.timer (l.heap 0)).due ≤ d := by
  have slot : (l.timer (l.heap 0)).slot ≠ 0 := by
    rw [sound.slots 0 (Nat.pos_of_ne_zero some_)]
    exact Nat.succ_ne_zero _
  refine ⟨slot, if_neg slot, fun u d set => ?_⟩
  rw [armed] at set
  split at set
  · cases set
  · rename_i placed
    obtain ⟨bound, named⟩ := sound.out u placed
    have least := sound.ordered.least (show (l.timer u).slot - 1 < l.timers by omega)
    rw [dues, dues, named] at least
    rw [← Option.some.inj set]
    exact UInt64.le_iff_toNat_le.mpr least

theorem Sound.fire (sound : Sound l) (some_ : l.timers ≠ 0) :
    Leaves l (loopTimerDue l (l.heap 0) never) (Function.update (armed l) (l.heap 0) (some never)) :=
  sound.again (sound.root some_).1 never

variable {ref : Nat → Option UInt64}

/-- After any calls the heap is sound, and has the deadlines that were set. -/
theorem TimerRun.sound (run : TimerRun l ref) : Sound l ∧ armed l = ref := by
  induction run with
  | start timer none_ now =>
    refine ⟨⟨⟨fun j less => absurd less (Nat.not_lt_zero j), fun u some_ => absurd (none_ u) some_, ?_⟩,
      Nat.le_refl _, fun u some_ => absurd (none_ u) some_⟩, funext fun u => if_pos (none_ u)⟩
    exact fun j _ less => absurd less (Nat.not_lt_zero j)
  | set run memory t due done ih =>
    obtain ⟨sound, rfl⟩ := ih
    have leaves := sound.set memory t due
    rw [done, if_pos rfl] at leaves
    exact ⟨leaves.sound, leaves.armed⟩
  | stop run t done ih =>
    obtain ⟨sound, rfl⟩ := ih
    have leaves := sound.stop t
    rw [done, if_pos rfl] at leaves
    exact ⟨leaves.sound, leaves.armed⟩
  | @setRefused l l' ref e run memory t due refused ih =>
    have same := loopTimerSet_refused memory l t due (by rw [refused]; nofun)
    rw [refused] at same
    obtain rfl : l' = l := same
    exact ih
  | @stopRefused l l' ref e run t refused ih =>
    have same := loopTimerStop_refused l t (by rw [refused]; nofun)
    rw [refused] at same
    obtain rfl : l' = l := same
    exact ih
  | exit run ih => exact ⟨⟨⟨ih.1.slots, ih.1.out, ih.1.ordered⟩, ih.1.room, ih.1.fn⟩, ih.2⟩
  | turn run now ih => exact ⟨⟨⟨ih.1.slots, ih.1.out, ih.1.ordered⟩, ih.1.room, ih.1.fn⟩, ih.2⟩
  | fire run some_ due ih =>
    obtain ⟨sound, rfl⟩ := ih
    exact ⟨(sound.fire some_).sound, (sound.fire some_).armed⟩

/-! ## Calls of a timer's function -/

theorem TimerRun.op (run : TimerRun l ref) (op : TimerOp) : ∃ ref', TimerRun (op.run l) ref' := by
  cases op with
  | set memory t due =>
    obtain ⟨done, eq⟩ : ∃ done, done = loopTimerSet memory l t due := ⟨_, rfl⟩
    obtain ⟨l', e⟩ := done
    rw [TimerOp.run, ← eq]
    cases e with
    | none => exact ⟨_, run.set memory t due eq.symm⟩
    | some e => exact ⟨_, run.setRefused memory t due eq.symm⟩
  | stop t =>
    obtain ⟨done, eq⟩ : ∃ done, done = loopTimerStop l t := ⟨_, rfl⟩
    obtain ⟨l', e⟩ := done
    rw [TimerOp.run, ← eq]
    cases e with
    | none => exact ⟨_, run.stop t eq.symm⟩
    | some e => exact ⟨_, run.stopRefused t eq.symm⟩
  | exit => exact ⟨_, run.exit⟩

theorem TimerRun.ops (run : TimerRun l ref) (ops : List TimerOp) : ∃ ref', TimerRun (ops.foldl TimerOp.run l) ref' := by
  induction ops generalizing l ref with
  | nil => exact ⟨ref, run⟩
  | cons op ops ih =>
    obtain ⟨ref', run'⟩ := run.op op
    exact ih run'

/-- What a call does to the turn, and to the deadline of a timer that it does not set. -/
theorem Sound.op (sound : Sound l) (op : TimerOp) :
    Sound (op.run l) ∧ (op.run l).now = l.now ∧ (op ≠ .exit → (op.run l).exit = l.exit) ∧
      ∀ u, (∀ memory due, op ≠ .set memory u due) → armed (op.run l) u = armed l u ∨ armed (op.run l) u = none := by
  cases op with
  | set memory t due =>
    have leaves := sound.set memory t due
    refine ⟨leaves.sound, leaves.now, fun _ => leaves.exit, fun u unset => .inl ?_⟩
    have other : u ≠ t := by
      rintro rfl
      exact unset memory due rfl
    rw [TimerOp.run, leaves.armed]
    split
    · exact Function.update_of_ne other ..
    · rfl
  | stop t =>
    have leaves := sound.stop t
    refine ⟨leaves.sound, leaves.now, fun _ => leaves.exit, fun u _ => ?_⟩
    rw [TimerOp.run, leaves.armed]
    split
    · by_cases same : u = t
      · rw [same, Function.update_self]
        exact .inr rfl
      · rw [Function.update_of_ne same]
        exact .inl rfl
    · exact .inl rfl
  | exit =>
    exact ⟨⟨⟨sound.slots, sound.out, sound.ordered⟩, sound.room, sound.fn⟩, rfl, fun same => absurd rfl same,
      fun u _ => .inl rfl⟩

theorem Sound.ops (sound : Sound l) (ops : List TimerOp) :
    Sound (ops.foldl TimerOp.run l) ∧ (ops.foldl TimerOp.run l).now = l.now ∧
      (.exit ∉ ops → (ops.foldl TimerOp.run l).exit = l.exit) ∧ ∀ u, (∀ memory due, .set memory u due ∉ ops) →
        armed (ops.foldl TimerOp.run l) u = armed l u ∨ armed (ops.foldl TimerOp.run l) u = none := by
  induction ops generalizing l with
  | nil => exact ⟨sound, rfl, fun _ => rfl, fun u _ => .inl rfl⟩
  | cons op ops ih =>
    obtain ⟨sound', now, exit, unset⟩ := sound.op op
    obtain ⟨sound'', now', exit', unset'⟩ := ih sound'
    refine ⟨sound'', now'.trans now, fun absent => ?_, fun u absent => ?_⟩
    · obtain ⟨first, rest⟩ := List.ne_and_not_mem_of_not_mem_cons absent
      exact (exit' rest).trans (exit first.symm)
    · have first := unset u fun memory due same => absent memory due (same ▸ List.mem_cons_self)
      have rest := unset' u fun memory due mem => absent memory due (List.mem_cons_of_mem _ mem)
      rw [List.foldl_cons]
      rcases rest with same | gone
      · rw [same]
        exact first
      · exact .inr gone

/-! ## A turn -/

variable {calls : Nat → List TimerOp}

/-- The entries of a heap, each with when it is due. -/
def entries (l : TimerHeap) : List (Nat × UInt64) :=
  (List.range l.timers).map fun i => (l.heap i, (l.timer (l.heap i)).due)

/-- The entries are the timers that are set, once each. -/
theorem Sound.entries (sound : Sound l) : (entries l).Nodup ∧ ∀ u d, (u, d) ∈ entries l ↔ armed l u = some d := by
  constructor
  · apply List.Nodup.map_on _ List.nodup_range
    intro i less j less' same
    have slots := congrArg (fun entry : Nat × UInt64 => (l.timer entry.1).slot) same
    dsimp only at slots
    rw [sound.slots i (List.mem_range.mp less), sound.slots j (List.mem_range.mp less')] at slots
    exact Nat.succ_inj.mp slots
  · intro u d
    rw [Timers.entries, List.mem_map, armed]
    constructor
    · rintro ⟨i, less, same⟩
      obtain ⟨rfl, rfl⟩ := Prod.mk.inj same
      rw [sound.slots i (List.mem_range.mp less), if_neg (Nat.succ_ne_zero i)]
    · intro set
      split at set
      · cases set
      · rename_i placed
        obtain ⟨bound, named⟩ := sound.out u placed
        exact ⟨(l.timer u).slot - 1, List.mem_range.mpr (by omega), by rw [named, Option.some.inj set]⟩

end Askai.Timers
