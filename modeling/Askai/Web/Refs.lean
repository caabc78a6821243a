import Askai.Web.Model

/-!
# References to replies

The count of a reply is how many entries and waits have it, with home while it ends the run, and a reply
that none of them has is freed.
-/

namespace Askai

open Library

namespace WebWorld

/-- The counts of the first `n` replies are what `held` says, and those that nobody has are freed. -/
structure Counts (replies : Nat → WebReply) (n : Nat) (held : Nat → Nat) : Prop where
  made : ∀ r, held r ≠ 0 → r < n
  refs : ∀ r < n, (replies r).refs = held r
  freed : ∀ r < n, (replies r).freed = true ↔ held r = 0

variable {replies : Nat → WebReply} {n r : Nat} {held held' : Nat → Nat}

theorem Counts.congr (counts : Counts replies n held) (same : ∀ s, held' s = held s) : Counts replies n held' := by
  rw [funext same]
  exact counts

/-- A holder more. -/
theorem Counts.get (counts : Counts replies n held) (has : held r ≠ 0)
    (more : ∀ s, held' s = held s + if r = s then 1 else 0) : Counts (get replies r) n held' := by
  refine ⟨fun s => ?_, fun s inside => ?_, fun s inside => ?_⟩
  · rw [more]
    split
    · next same =>
      subst same
      exact fun _ => counts.made _ has
    · exact counts.made s
  · rw [WebWorld.get, more]
    rcases eq_or_ne s r with rfl | other
    · rw [Function.update_self, if_pos rfl]
      exact congrArg (· + 1) (counts.refs s inside)
    · rw [Function.update_of_ne other, if_neg other.symm]
      exact counts.refs s inside
  · rw [WebWorld.get, more]
    rcases eq_or_ne s r with rfl | other
    · rw [Function.update_self, if_pos rfl]
      exact (counts.freed s inside).trans ⟨fun none_ => absurd none_ has, fun none_ => by omega⟩
    · rw [Function.update_of_ne other, if_neg other.symm]
      exact counts.freed s inside

/-- A holder less. -/
theorem Counts.put (counts : Counts replies n held) (has : held r ≠ 0)
    (less : ∀ s, held s = held' s + if r = s then 1 else 0) : Counts (put replies r) n held' := by
  have inside := counts.made r has
  refine ⟨fun s some_ => ?_, fun s inside => ?_, fun s inside => ?_⟩
  · apply counts.made s
    rw [less]
    omega
  · have here := counts.refs s inside
    rw [WebWorld.put]
    rcases eq_or_ne s r with rfl | other
    · rw [less, if_pos rfl] at here
      rw [Function.update_self]
      change (replies s).refs - 1 = _
      omega
    · rw [less, if_neg other.symm] at here
      rw [Function.update_of_ne other, here, Nat.add_zero]
  · have here := counts.refs s inside
    have freed := counts.freed s inside
    rw [WebWorld.put]
    rcases eq_or_ne s r with rfl | other
    · rw [less, if_pos rfl] at here freed
      rw [Function.update_self]
      change ((replies s).freed || (replies s).refs == 1) = true ↔ _
      rw [Bool.or_eq_true, freed, beq_iff_eq, here]
      omega
    · rw [less, if_neg other.symm] at freed
      rw [Function.update_of_ne other, freed, Nat.add_zero]

/-- A new reply, which home has. -/
theorem Counts.make (counts : Counts replies n held) {reply : WebReply} (one : reply.refs = 1)
    (alive : reply.freed = false) (more : ∀ s, held' s = held s + if n = s then 1 else 0) :
    Counts (Function.update replies n reply) (n + 1) held' := by
  have none_ : held n = 0 := by
    by_contra some_
    exact absurd (counts.made n some_) (Nat.lt_irrefl n)
  refine ⟨fun s => ?_, fun s inside => ?_, fun s inside => ?_⟩
  · rw [more]
    split
    · next same => exact fun _ => same ▸ Nat.lt_succ_self n
    · exact fun some_ => Nat.lt_succ_of_lt (counts.made s some_)
  · rw [more]
    rcases eq_or_ne s n with rfl | other
    · rw [Function.update_self, if_pos rfl, none_]
      exact one
    · rw [Function.update_of_ne other, if_neg other.symm]
      exact counts.refs s (by omega)
  · rw [more]
    rcases eq_or_ne s n with rfl | other
    · rw [Function.update_self, if_pos rfl, none_, alive]
      simp
    · rw [Function.update_of_ne other, if_neg other.symm]
      exact counts.freed s (by omega)

/-- A reference that is taken or not. -/
theorem Counts.take_get {o : Option Nat} (counts : Counts replies n held) (has : ∀ s, o = some s → held s ≠ 0)
    (more : ∀ s, held' s = held s + if o = some s then 1 else 0) : Counts (take WebWorld.get replies o) n held' := by
  cases o with
  | none =>
    apply counts.congr
    intro s
    rw [more, if_neg nofun, Nat.add_zero]
  | some r =>
    apply counts.get (has r rfl)
    intro s
    simp only [more, Option.some.injEq]

theorem Counts.take_put {o : Option Nat} (counts : Counts replies n held) (has : ∀ s, o = some s → held s ≠ 0)
    (less : ∀ s, held s = held' s + if o = some s then 1 else 0) : Counts (take WebWorld.put replies o) n held' := by
  cases o with
  | none =>
    apply counts.congr
    intro s
    rw [less, if_neg nofun, Nat.add_zero]
  | some r =>
    apply counts.put (has r rfl)
    intro s
    simp only [less, Option.some.injEq]

/-! ## Who has a reply -/

/-- How many of the entries have the reply. -/
def entryHolders (entries : Nat → WebEntry) (l : List Nat) (r : Nat) : Nat :=
  l.countP fun x => (entries x).reply = r

/-- How many of the waits have it. -/
def waitHolders (waits : Nat → WebWait) (l : List Nat) (r : Nat) : Nat :=
  l.countP fun v => (waits v).reply = some r

/-- Home has it until it has posted all waits. -/
def homeHolds (ending : Option (Option Nat × List Nat)) (r : Nat) : Nat :=
  if ending.bind Prod.fst = some r then 1 else 0

/-- How many have the reply. -/
def holders (w : WebWorld) (r : Nat) : Nat :=
  entryHolders w.cache.entries (w.cache.kept ++ w.gone) r + waitHolders w.waits w.live r +
    homeHolds w.ending r

/-- The replies are counted. -/
abbrev Counted (w : WebWorld) : Prop :=
  Counts w.replies w.nReplies w.holders

section Holders

variable {entries entries' : Nat → WebEntry} {waits waits' : Nat → WebWait} {l l' : List Nat} {x v : Nat}

theorem entryHolders_congr (same : ∀ y ∈ l, (entries' y).reply = (entries y).reply) (r : Nat) :
    entryHolders entries' l r = entryHolders entries l r :=
  List.countP_congr fun y inside => by rw [decide_eq_true_eq, decide_eq_true_eq, same y inside]

theorem entryHolders_perm (perm : l.Perm l') (r : Nat) : entryHolders entries l r = entryHolders entries l' r :=
  perm.countP_eq _

theorem entryHolders_cons (entries : Nat → WebEntry) (l : List Nat) (x r : Nat) :
    entryHolders entries (x :: l) r = entryHolders entries l r + if (entries x).reply = r then 1 else 0 := by
  rw [entryHolders, List.countP_cons]
  simp only [decide_eq_true_eq, entryHolders]

theorem entryHolders_ne (inside : x ∈ l) : entryHolders entries l (entries x).reply ≠ 0 :=
  Nat.ne_of_gt (List.countP_pos_iff.mpr ⟨x, inside, decide_eq_true rfl⟩)

theorem waitHolders_congr (same : ∀ v ∈ l, (waits' v).reply = (waits v).reply) (r : Nat) :
    waitHolders waits' l r = waitHolders waits l r :=
  List.countP_congr fun y inside => by rw [decide_eq_true_eq, decide_eq_true_eq, same y inside]

theorem waitHolders_cons (waits : Nat → WebWait) (l : List Nat) (v r : Nat) :
    waitHolders waits (v :: l) r = waitHolders waits l r + if (waits v).reply = some r then 1 else 0 := by
  rw [waitHolders, List.countP_cons]
  simp only [decide_eq_true_eq, waitHolders]

theorem waitHolders_ne {r : Nat} (inside : v ∈ l) (has : (waits v).reply = some r) : waitHolders waits l r ≠ 0 :=
  Nat.ne_of_gt (List.countP_pos_iff.mpr ⟨v, inside, decide_eq_true has⟩)

/-- One wait more or less. -/
theorem waitHolders_erase (waits : Nat → WebWait) (inside : v ∈ l) (r : Nat) : waitHolders waits l r =
      waitHolders waits (l.erase v) r + if (waits v).reply = some r then 1 else 0 := by
  rw [← waitHolders_cons]
  exact (List.perm_cons_erase inside).countP_eq _

/-- A wait of its own that changes. -/
theorem waitHolders_update (waits : Nat → WebWait) (distinct : l.Nodup) (inside : v ∈ l) (wait : WebWait)
    (before : (waits v).reply = none) (r : Nat) : waitHolders (Function.update waits v wait) l r =
      waitHolders waits l r + if wait.reply = some r then 1 else 0 := by
  have rest : waitHolders (Function.update waits v wait) (l.erase v) r = waitHolders waits (l.erase v) r := by
    apply waitHolders_congr
    intro u there
    rw [Function.update_of_ne (distinct.mem_erase_iff.mp there).1]
  have none_ : ¬ (none : Option Nat) = some r := nofun
  rw [waitHolders_erase _ inside, waitHolders_erase waits inside, rest, Function.update_self, before,
    if_neg none_, Nat.add_zero]

end Holders

variable {w : WebWorld}

theorem holders_entry {x : Nat} (inside : x ∈ w.cache.kept ++ w.gone) : w.holders (w.cache.entries x).reply ≠ 0 := by
  have some_ : entryHolders w.cache.entries _ _ ≠ 0 := entryHolders_ne inside
  rw [holders]
  omega

theorem holders_wait {v : Nat} (inside : v ∈ w.live) (has : (w.waits v).reply = some r) : w.holders r ≠ 0 := by
  have some_ : waitHolders w.waits _ _ ≠ 0 := waitHolders_ne inside has
  rw [holders]
  omega

theorem holders_home {rest : List Nat} (ends : w.ending = some (some r, rest)) : w.holders r ≠ 0 := by
  rw [holders, ends, homeHolds, Option.bind_some, if_pos rfl]
  exact Nat.succ_ne_zero _

/-- A new wait. -/
theorem holders_addWait (made : ∀ v ∈ w.live, v < w.nWaits) (wait : WebWait) (s : Nat) :
    (w.addWait wait).holders s = w.holders s + if wait.reply = some s then 1 else 0 := by
  have old : waitHolders (w.addWait wait).waits w.live s = waitHolders w.waits w.live s := by
    apply waitHolders_congr
    intro v inside
    exact congrArg WebWait.reply (Function.update_of_ne (Nat.ne_of_lt (made v inside)) _ _)
  have new : (w.addWait wait).waits w.nWaits = wait := Function.update_self _ _ _
  have waits : waitHolders (w.addWait wait).waits (w.live ++ [w.nWaits]) s =
      waitHolders w.waits w.live s + if wait.reply = some s then 1 else 0 := by
    have perm := (List.perm_append_singleton w.nWaits w.live).countP_eq
      fun v => decide (((w.addWait wait).waits v).reply = some s)
    calc
      waitHolders (w.addWait wait).waits (w.live ++ [w.nWaits]) s =
          waitHolders (w.addWait wait).waits (w.nWaits :: w.live) s := perm
      _ = waitHolders w.waits w.live s + if wait.reply = some s then 1 else 0 := by
        rw [waitHolders_cons, old, new]
  change _ + waitHolders (w.addWait wait).waits (w.live ++ [w.nWaits]) s + _ = _
  rw [waits, holders]
  change entryHolders w.cache.entries (w.cache.kept ++ w.gone) s + _ + homeHolds w.ending s = _
  omega

end WebWorld

end Askai
