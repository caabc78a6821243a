import Askai.Library.Lists
import Askai.Plugin.Shared

/-!
# Every run of the table

The table with the calls that have got an instance and those that have not put it back, over every
sequence of its steps.
-/

namespace Askai

open Library InstanceTable List

/-- A call that has got an instance, with the generation that its request has. -/
structure InstanceCall where
  inst : Nat
  plugin : Nat
  principal : Nat
  generation : Nat
  /-- How often the table had been flushed by then. -/
  flushes : Nat
  deriving DecidableEq

/-- The table, with every call that has got an instance, and those that use it. -/
structure InstanceUse where
  table : InstanceTable := {}
  flushes : Nat := 0
  /-- The newest first. -/
  started : List InstanceCall := []
  held : List InstanceCall := []

namespace InstanceUse

/-- A call gets an instance, or does not. -/
def get (env : Plugins) (s : InstanceUse) (plugin principal generation : Nat) (share : MakeShare) : InstanceUse :=
  match s.table.get env plugin principal generation share with
  | (table, .ok (some inst)) =>
    let call := { inst, plugin, principal, generation, flushes := s.flushes }
    { s with table, started := call :: s.started, held := call :: s.held }
  | (table, _) => { s with table }

end InstanceUse

inductive InstanceOp where
  | get
  | put
  | flush
  | relieve
  | reap
  | tick
  deriving DecidableEq

/-- The steps of the table on its loop, with any outcome of `instance_init()`. -/
inductive InstanceStep (env : Plugins) (s : InstanceUse) : InstanceOp → InstanceUse → Prop
  | get (plugin principal generation : Nat) (share : MakeShare) :
      InstanceStep env s .get (s.get env plugin principal generation share)
  | put {call : InstanceCall} (held : call ∈ s.held) :
      InstanceStep env s .put
        { s with table := s.table.put (some call.inst), held := s.held.erase call }
  /-- A call of a plugin that has no instances. -/
  | putNone : InstanceStep env s .put { s with table := s.table.put none }
  | flush : InstanceStep env s .flush { s with table := s.table.flush, flushes := s.flushes + 1 }
  | relieve (level : BufPressure) (max : Nat) (freed : Nat → Nat) :
      InstanceStep env s .relieve { s with table := (s.table.relieve env level max freed).1 }
  | reap {room : Nat} (ready : s.table.ready = true) :
      InstanceStep env s .reap { s with table := s.table.step room }
  | tick {now : Nat} (later : s.table.now ≤ now) :
      InstanceStep env s .tick { s with table := { s.table with now } }

/-- The calls are of the same user and plugin, and began in the same generation of the table. -/
structure InstanceCall.Alike (c d : InstanceCall) : Prop where
  plugin : c.plugin = d.plugin
  principal : c.principal = d.principal
  named : c.principal ≠ 0
  generation : c.generation = d.generation
  flushes : c.flushes = d.flushes
  current : c.generation = c.flushes % 2 ^ 64

namespace InstanceUse

/-- The calls and the table agree, whose buckets hold the instances of `l`. -/
structure Agrees (s : InstanceUse) (l : Finset Nat) : Prop where
  generation : s.table.generation = s.flushes % 2 ^ 64
  counted : ∀ i, s.held.countP (fun c => decide (c.inst = i)) = (s.table.inst i).calls
  unused : ∀ i, ¬s.table.Alive i → (s.table.inst i).calls = 0
  begun : ∀ c ∈ s.held, c ∈ s.started
  known : ∀ c ∈ s.started, c.inst < s.table.made ∧ s.table.HasKey c.plugin c.principal c.inst
  listed : ∀ i ∈ l, ∃ c ∈ s.started, c.inst = i
  current : ∀ c ∈ s.started, c.inst ∈ l →
    c.principal ≠ 0 ∧ c.generation = s.table.generation ∧ c.flushes = s.flushes
  shares : s.started.Pairwise fun c d => c.inst = d.inst → c.Alike d

namespace Agrees

variable {env : Plugins} {s s' : InstanceUse} {l m : Finset Nat}

theorem start : Agrees {} ∅ where
  generation := rfl
  counted := fun _ => rfl
  unused := fun _ _ => rfl
  begun := nofun
  known := nofun
  listed := by simp
  current := nofun
  shares := .nil

/-- A step that no call takes, after which the buckets hold no more. -/
theorem quiet {t : InstanceTable} (agrees : Agrees s l) (sub : m ⊆ l) (quiet : Quiet s.table t)
    (generation : t.generation = s.table.generation) : Agrees { s with table := t } m where
  generation := generation.trans agrees.generation
  counted := by
    rw [quiet.inst]
    exact agrees.counted
  unused := by
    intro i dead
    change (t.inst i).calls = 0
    rw [quiet.inst]
    obtain ⟨front, destroyed, none_⟩ := quiet.destroyed
    by_cases mem : i ∈ front
    · exact none_ i mem
    · apply agrees.unused
      intro alive
      apply dead
      refine ⟨?_, ?_⟩
      · change i < t.made
        rw [quiet.made]
        exact alive.1
      · change i ∉ t.destroyed
        rw [destroyed, mem_append, not_or]
        exact ⟨alive.2, mem⟩
  begun := agrees.begun
  known := by
    intro c mem
    obtain ⟨made, key⟩ := agrees.known c mem
    refine ⟨?_, ?_⟩
    · change c.inst < t.made
      rw [quiet.made]
      exact made
    · change (t.inst c.inst).principal = _ ∧ (t.inst c.inst).plugin = _
      rw [quiet.inst]
      exact key
  listed := fun i mem => agrees.listed i (sub mem)
  current := by
    intro c mem listed
    rw [show ({ s with table := t } : InstanceUse).table.generation = s.table.generation from generation]
    exact agrees.current c mem (sub listed)
  shares := agrees.shares

theorem flush (agrees : Agrees s l) : Agrees { s with table := s.table.flush, flushes := s.flushes + 1 } ∅ where
  generation := by
    change (s.table.generation + 1) % 2 ^ 64 = (s.flushes + 1) % 2 ^ 64
    rw [agrees.generation, Nat.mod_add_mod]
  counted := agrees.counted
  unused := agrees.unused
  begun := agrees.begun
  known := agrees.known
  listed := by simp
  current := fun _ _ listed => absurd listed (Finset.notMem_empty _)
  shares := agrees.shares

/-- A call gets an instance, of its own or one that the buckets have. -/
theorem call {t : InstanceTable} {c : InstanceCall} (agrees : Agrees s l)
    (generation : t.generation = s.table.generation) (flushes : c.flushes = s.flushes)
    (made : s.table.made ≤ t.made) (calls : ∀ i, (t.inst i).calls =
      (s.table.inst i).calls + if c.inst = i then 1 else 0)
    (keys : ∀ i < s.table.made, (t.inst i).plugin = (s.table.inst i).plugin ∧
      (t.inst i).principal = (s.table.inst i).principal) (unused : ∀ i, ¬t.Alive i → (t.inst i).calls = 0)
    (known : c.inst < t.made ∧ t.HasKey c.plugin c.principal c.inst) (sub : ∀ i ∈ m, i ∈ l ∨ i = c.inst)
    (named : c.inst ∈ m → c.principal ≠ 0 ∧ c.generation = s.table.generation)
    (old : ∀ d ∈ s.started, c.inst = d.inst → c.inst ∈ l ∧ c.inst ∈ m) :
    Agrees { s with table := t, started := c :: s.started, held := c :: s.held } m where
  generation := generation.trans agrees.generation
  counted := by
    intro i
    change (c :: s.held).countP _ = (t.inst i).calls
    rw [countP_cons, agrees.counted, calls]
    simp only [decide_eq_true_eq]
  unused := unused
  begun := by
    intro d mem
    rcases mem_cons.mp mem with rfl | mem
    · exact mem_cons_self
    · exact mem_cons_of_mem _ (agrees.begun d mem)
  known := by
    intro d mem
    rcases mem_cons.mp mem with rfl | mem
    · exact known
    · obtain ⟨before, key⟩ := agrees.known d mem
      refine ⟨Nat.lt_of_lt_of_le before made, ?_⟩
      change (t.inst d.inst).principal = _ ∧ (t.inst d.inst).plugin = _
      rw [(keys d.inst before).1, (keys d.inst before).2]
      exact key
  listed := by
    intro i mem
    rcases sub i mem with inside | rfl
    · obtain ⟨d, mem, same⟩ := agrees.listed i inside
      exact ⟨d, mem_cons_of_mem _ mem, same⟩
    · exact ⟨c, mem_cons_self, rfl⟩
  current := by
    intro d mem inside
    change _ ∧ _ = t.generation ∧ _
    rw [generation]
    rcases mem_cons.mp mem with rfl | mem
    · obtain ⟨some_, same⟩ := named inside
      exact ⟨some_, same, flushes⟩
    · rcases sub d.inst inside with listed | same
      · exact agrees.current d mem listed
      · exact agrees.current d mem (by rw [same]; exact (old d mem same.symm).1)
  shares := by
    refine pairwise_cons.mpr ⟨fun d mem same => ?_, agrees.shares⟩
    obtain ⟨listed, still⟩ := old d mem same
    obtain ⟨some_, begun⟩ := named still
    rw [same] at listed
    obtain ⟨-, begun', since⟩ := agrees.current d mem listed
    obtain ⟨before, key⟩ := agrees.known d mem
    have same_ := keys d.inst before
    have key' := known.2
    rw [same] at key'
    refine ⟨?_, ?_, some_, begun.trans begun'.symm, flushes.trans since.symm, ?_⟩
    · exact key'.2.symm.trans (same_.1.trans key.2)
    · exact key'.1.symm.trans (same_.2.trans key.1)
    · rw [begun, agrees.generation, flushes]

/-- An instance of the call's own. -/
theorem born {plugin principal generation : Nat} (agrees : Agrees s l) (placed : Placed env s.table l)
    (sub : ∀ i ∈ m, i ∈ l ∨ i = s.table.made)
    (named : s.table.made ∈ m → principal ≠ 0 ∧ generation = s.table.generation) {t : InstanceTable}
    (same : t.inst = (s.table.born (env.hash principal plugin) plugin principal).inst)
    (made : t.made = s.table.made + 1) (destroyed : t.destroyed = s.table.destroyed)
    (generation_ : t.generation = s.table.generation) : Agrees
      { s with
        table := t
        started := ⟨s.table.made, plugin, principal, generation, s.flushes⟩ :: s.started
        held := ⟨s.table.made, plugin, principal, generation, s.flushes⟩ :: s.held } m := by
  have self : t.inst s.table.made = { plugin, principal, calls := 1 } := by
    rw [same]
    exact s.table.born_self ..
  have inst : ∀ i ≠ s.table.made, t.inst i = s.table.inst i := by
    intro i other
    rw [same]
    exact born_of_ne other
  have blank : (s.table.inst s.table.made).calls = 0 :=
    agrees.unused _ fun alive => Nat.lt_irrefl _ alive.1
  refine agrees.call generation_ rfl ?_ ?_ ?_ ?_ ?_ sub named ?_
  · rw [made]
    exact Nat.le_succ _
  · intro i
    rcases eq_or_ne s.table.made i with rfl | other
    · rw [if_pos rfl, self, blank]
    · rw [if_neg other, inst i (Ne.symm other), Nat.add_zero]
  · intro i before
    rw [inst i (Nat.ne_of_lt before)]
    exact ⟨rfl, rfl⟩
  · intro i dead
    rcases eq_or_ne i s.table.made with rfl | other
    · refine absurd ⟨?_, ?_⟩ dead
      · rw [made]
        exact Nat.lt_succ_self _
      · rw [destroyed]
        exact fun mem => Nat.lt_irrefl _ (placed.made _ mem)
    · rw [inst i other]
      apply agrees.unused
      intro alive
      refine dead ⟨?_, ?_⟩
      · rw [made]
        exact Nat.lt_succ_of_lt alive.1
      · rw [destroyed]
        exact alive.2
  · refine ⟨?_, ?_⟩
    · rw [made]
      exact Nat.lt_succ_self _
    · change (t.inst s.table.made).principal = _ ∧ (t.inst s.table.made).plugin = _
      rw [self]
      exact ⟨rfl, rfl⟩
  · intro d mem same
    exact absurd same.symm (Nat.ne_of_lt (agrees.known d mem).1)

/-- An instance that the buckets have. -/
theorem again {i plugin principal : Nat} (agrees : Agrees s l) (placed : Placed env s.table l)
    (named : principal ≠ 0) (listed : i ∈ l) (key : s.table.HasKey plugin principal i) : Agrees
      { s with
        table := s.table.again i
        started := ⟨i, plugin, principal, s.table.generation, s.flushes⟩ :: s.started
        held := ⟨i, plugin, principal, s.table.generation, s.flushes⟩ :: s.held } l := by
  have self := s.table.again_self i
  have inst : ∀ j ≠ i, (s.table.again i).inst j = s.table.inst j := fun j other => again_of_ne other
  refine agrees.call rfl rfl (Nat.le_refl _) ?_ ?_ ?_ ?_ (fun j mem => .inl mem)
    (fun _ => ⟨named, rfl⟩) (fun _ _ _ => ⟨listed, listed⟩)
  · intro j
    rcases eq_or_ne i j with rfl | other
    · rw [self, if_pos rfl]
    · rw [inst j (Ne.symm other), if_neg other, Nat.add_zero]
  · intro j _
    rcases eq_or_ne j i with rfl | other
    · rw [self]
      exact ⟨rfl, rfl⟩
    · rw [inst j other]
      exact ⟨rfl, rfl⟩
  · intro j dead
    have other : j ≠ i := by
      rintro rfl
      exact dead (placed.alive j listed)
    rw [inst j other]
    exact agrees.unused j dead
  · refine ⟨(placed.alive i listed).1, ?_⟩
    change ((s.table.again i).inst i).principal = _ ∧ ((s.table.again i).inst i).plugin = _
    rw [self]
    exact key

theorem get {plugin principal generation : Nat} {share : MakeShare} (agrees : Agrees s l)
    (placed : Placed env s.table l) : ∃ m, Placed env (s.get env plugin principal generation share).table m ∧
      Agrees (s.get env plugin principal generation share) m := by
  obtain ⟨m, got, after⟩ := get_got placed plugin principal generation share
  rw [InstanceUse.get]
  cases whole : s.table.get env plugin principal generation share with
  | mk t result =>
    rw [whole] at got after
    have retired : ∀ i ∈ s.table.idle, Agrees { s with table := s.table.retire i } (l.erase i) := fun i mem =>
      agrees.quiet (Finset.erase_subset i l) ⟨rfl, rfl, [], (append_nil _).symm, nofun⟩ rfl
    cases got with
    | none | full | fails => exact ⟨l, placed, agrees⟩
    | @vain i e idle other => exact ⟨_, after, retired i idle⟩
    | alone =>
      refine ⟨l, after, agrees.born placed (fun i mem => .inl mem) (fun mem => ?_) rfl rfl rfl rfl⟩
      exact absurd (placed.alive _ mem).1 (Nat.lt_irrefl _)
    | again named same listed key =>
      rw [same]
      exact ⟨l, after, agrees.again placed named listed key⟩
    | @listed u m named same room =>
      refine ⟨_, after, ?_⟩
      have members : ∀ i ∈ insert u.made m, i ∈ m ∨ i = u.made :=
        fun i mem => (Finset.mem_insert.mp mem).symm
      rcases room with ⟨rfl, rfl⟩ | ⟨i, idle, rfl, rfl⟩
      · exact agrees.born placed members (fun _ => ⟨named, same⟩) rfl rfl rfl rfl
      · exact (retired i idle).born (placed.retire idle) members (fun _ => ⟨named, same⟩) rfl rfl rfl rfl

/-- What is left when a call is put back. -/
theorem put_frame (t : InstanceTable) (i : Nat) :
    (t.put (some i)).made = t.made ∧ (t.put (some i)).destroyed = t.destroyed ∧
      (t.put (some i)).generation = t.generation ∧ ∀ j, ((t.put (some i)).inst j).plugin = (t.inst j).plugin ∧
        ((t.put (some i)).inst j).principal = (t.inst j).principal ∧
        ((t.put (some i)).inst j).calls = (t.inst j).calls - if i = j then 1 else 0 := by
  have uncalled : ∀ j, ((t.uncall i).inst j).plugin = (t.inst j).plugin ∧
      ((t.uncall i).inst j).principal = (t.inst j).principal ∧
      ((t.uncall i).inst j).calls = (t.inst j).calls - if i = j then 1 else 0 := by
    intro j
    rcases eq_or_ne i j with rfl | other
    · rw [uncall_self, if_pos rfl]
      exact ⟨rfl, rfl, rfl⟩
    · rw [uncall_of_ne (Ne.symm other), if_neg other]
      exact ⟨rfl, rfl, rfl⟩
  have rested : ∀ j, (((t.uncall i).rest i).inst j).plugin = (t.inst j).plugin ∧
      (((t.uncall i).rest i).inst j).principal = (t.inst j).principal ∧
      (((t.uncall i).rest i).inst j).calls = (t.inst j).calls - if i = j then 1 else 0 := by
    intro j
    rcases eq_or_ne j i with rfl | other
    · rw [rest_self]
      exact uncalled j
    · rw [rest_of_ne other]
      exact uncalled j
  rw [InstanceTable.put]
  dsimp only
  split
  · exact ⟨rfl, rfl, rfl, uncalled⟩
  · split
    · exact ⟨rfl, rfl, rfl, rested⟩
    · exact ⟨rfl, rfl, rfl, rested⟩

/-- An instance that a call uses is busy. -/
theorem busy {c : InstanceCall} (agrees : Agrees s l) (placed : Placed env s.table l)
    (held : c ∈ s.held) : c.inst ∈ s.table.busy := by
  have some_ : 0 < (s.table.inst c.inst).calls := by
    rw [← agrees.counted, countP_pos_iff]
    exact ⟨c, held, decide_eq_true rfl⟩
  rw [placed.busy]
  refine ⟨?_, some_⟩
  by_contra dead
  rw [agrees.unused _ dead] at some_
  exact Nat.lt_irrefl 0 some_

theorem put {c : InstanceCall} (agrees : Agrees s l) (held : c ∈ s.held) :
    Agrees { s with table := s.table.put (some c.inst), held := s.held.erase c } l := by
  obtain ⟨made, destroyed, generation, inst⟩ := put_frame s.table c.inst
  refine
    { generation := generation.trans agrees.generation, counted := ?_, unused := ?_
      begun := fun d mem => agrees.begun d (mem_of_mem_erase mem), known := ?_
      listed := agrees.listed, current := ?_, shares := agrees.shares }
  · intro i
    change (s.held.erase c).countP _ = ((s.table.put _).inst i).calls
    rw [(inst i).2.2, ← agrees.counted]
    have less := countP_erase_add (fun d : InstanceCall => decide (d.inst = i)) held
    rcases eq_or_ne c.inst i with rfl | other
    · rw [if_pos rfl]
      rw [decide_eq_true rfl] at less
      exact Nat.eq_sub_of_add_eq less
    · rw [if_neg other, Nat.sub_zero]
      rw [decide_eq_false other] at less
      exact less
  · intro i dead
    change ((s.table.put _).inst i).calls = 0
    rw [(inst i).2.2, agrees.unused i, Nat.zero_sub]
    intro alive
    apply dead
    refine ⟨?_, ?_⟩
    · change i < (s.table.put _).made
      rw [made]
      exact alive.1
    · change i ∉ (s.table.put _).destroyed
      rw [destroyed]
      exact alive.2
  · intro d mem
    obtain ⟨before, key⟩ := agrees.known d mem
    refine ⟨?_, ?_⟩
    · change d.inst < (s.table.put _).made
      rw [made]
      exact before
    · change ((s.table.put _).inst d.inst).principal = _ ∧ ((s.table.put _).inst d.inst).plugin = _
      rw [(inst d.inst).1, (inst d.inst).2.1]
      exact key
  · intro d mem listed
    change _ ∧ _ = (s.table.put _).generation ∧ _
    rw [generation]
    exact agrees.current d mem listed

end Agrees

/-- The table is in order, with all its calls. -/
def Sound (env : Plugins) (s : InstanceUse) : Prop :=
  ∃ l, Placed env s.table l ∧ s.Agrees l

theorem step_sound {env : Plugins} {s s' : InstanceUse} {op : InstanceOp} (sound : Sound env s)
    (step : InstanceStep env s op s') : Sound env s' := by
  obtain ⟨l, placed, agrees⟩ := sound
  cases step with
  | get plugin principal generation share => exact agrees.get placed
  | put held => exact ⟨l, placed.put (agrees.busy placed held), agrees.put held⟩
  | putNone => exact ⟨l, placed, agrees⟩
  | flush => exact ⟨∅, placed.flush, agrees.flush⟩
  | relieve level max freed =>
    obtain ⟨m, sub, after, quiet, generation⟩ := placed.relieve level max freed
    exact ⟨m, after, agrees.quiet sub quiet generation⟩
  | @reap room ready =>
    obtain ⟨after, quiet⟩ := placed.step room
    refine ⟨l, after, agrees.quiet (Finset.Subset.refl l) quiet ?_⟩
    rw [InstanceTable.step, reap_eq]
    dsimp only
    split <;> rfl
  | tick later =>
    refine ⟨l, placed.tick later, agrees.quiet (Finset.Subset.refl l) ⟨rfl, rfl, [], ?_, by simp⟩ rfl⟩
    exact (append_nil _).symm

/-! ## Every run -/

/-- The buckets have the instance. -/
def Listed (s : InstanceUse) (i : Nat) : Prop :=
  ∃ b ≤ s.table.listed.mask, ∃ l,
    Chain (Htab.links s.table.node) (s.table.listed.buckets b) l ∧ i ∈ l

/-- What holds of the table and its calls. -/
structure InOrder (env : Plugins) (s : InstanceUse) : Prop where
  /-- The buckets have at most `INSTANCE_MAX` instances. -/
  full : ∃ l : Finset Nat, (∀ i, i ∈ l ↔ s.Listed i) ∧ l.card = s.table.listed.n ∧
    l.card ≤ instanceMax
  /-- One at most of a plugin and a principal. -/
  one : ∀ i j, s.Listed i → s.Listed j →
    s.table.HasKey (s.table.inst j).plugin (s.table.inst j).principal i → i = j
  /-- Each has been got by calls of the generation of the buckets, and by no others. -/
  current : ∀ i, s.Listed i → (∃ c ∈ s.started, c.inst = i) ∧ ∀ c ∈ s.started, c.inst = i →
    c.flushes = s.flushes ∧ c.generation = s.table.generation
  busy : ∀ i, s.table.Alive i → (i ∈ s.table.busy ↔ 0 < (s.table.inst i).calls)
  idle : ∀ i, s.table.Alive i → (i ∈ s.table.idle ↔ s.Listed i ∧ (s.table.inst i).calls = 0)
  gone : ∀ i, s.table.Alive i → (i ∈ s.table.gone ↔ i ∉ s.table.busy ∧ i ∉ s.table.idle)
  sorted : s.table.idle.Pairwise fun i j => (s.table.inst i).idle ≤ (s.table.inst j).idle
  /-- The calls of an instance are those that have not put it back. -/
  calls : ∀ i, (s.table.inst i).calls = s.held.countP fun c => decide (c.inst = i)
  /-- Calls that have got the same instance are alike. -/
  shares : s.started.Pairwise fun c d => c.inst = d.inst → c.Alike d
  /-- No instance is destroyed twice, while a call uses it or while it is on a list; all others are
  on one. -/
  once : s.table.destroyed.Nodup
  unused : ∀ c ∈ s.held, c.inst ∉ s.table.destroyed
  lists : ∀ i, s.table.Alive i ↔ i ∈ s.table.busy ++ s.table.idle ++ s.table.gone
  listsOnce : (s.table.busy ++ s.table.idle ++ s.table.gone).Nodup
  /-- What is gone will be destroyed by the table's step. -/
  ready : s.table.gone ≠ [] → s.table.ready = true
  /-- Only the table's step and a relief destroy instances, which no call uses. -/
  destroys : ∀ op s', InstanceStep env s op s' → ∃ front,
    s'.table.destroyed = s.table.destroyed ++ front ∧
      ∀ i ∈ front, (op = .reap ∨ op = .relieve) ∧ ∀ c ∈ s.held, c.inst ≠ i
  /-- The step destroys as many of the first that are gone as it may. -/
  reaps : ∀ room, (s.table.step room).destroyed = s.table.destroyed ++ s.table.gone.take room ∧
    (s.table.step room).gone = s.table.gone.drop room
  /-- Without calls, the end of the table destroys all that are left. -/
  ends : s.held = [] → (s.table.gone ++ s.table.idle).length < 2 ^ 64 →
    s.table.fini.destroyed.Nodup ∧ ∀ i < s.table.made, i ∈ s.table.fini.destroyed
  /-- `EBUSY` means that calls use all that the buckets may have. -/
  refused : ∀ plugin principal generation share,
    (s.table.get env plugin principal generation share).2 = .error ebusy →
      s.table.listed.n = instanceMax ∧ ∀ i, s.Listed i → 0 < (s.table.inst i).calls

variable {env : Plugins} {s s' : InstanceUse} {l : Finset Nat} {op : InstanceOp}

theorem get_destroyed (placed : Placed env s.table l) (plugin principal generation : Nat) (share : MakeShare) :
    (s.get env plugin principal generation share).table.destroyed = s.table.destroyed := by
  obtain ⟨m, got, -⟩ := get_got placed plugin principal generation share
  rw [InstanceUse.get]
  cases whole : s.table.get env plugin principal generation share with
  | mk t result =>
    rw [whole] at got
    cases got with
    | none | full | fails | vain | alone | again => rfl
    | listed named same room =>
      rcases room with ⟨rfl, rfl⟩ | ⟨i, idle, rfl, rfl⟩
      · rfl
      · rfl

theorem step_destroys (placed : Placed env s.table l) (agrees : s.Agrees l) (step : InstanceStep env s op s') :
    ∃ front, s'.table.destroyed = s.table.destroyed ++ front ∧
      ∀ i ∈ front, (op = .reap ∨ op = .relieve) ∧ ∀ c ∈ s.held, c.inst ≠ i := by
  have same : ∀ {d : List Nat}, d = s.table.destroyed → ∃ front, d = s.table.destroyed ++ front ∧
      ∀ i ∈ front, (op = .reap ∨ op = .relieve) ∧ ∀ c ∈ s.held, c.inst ≠ i :=
    fun same => ⟨[], same.trans (append_nil _).symm, nofun⟩
  have quiet : ∀ {t : InstanceTable}, Quiet s.table t → op = .reap ∨ op = .relieve →
      ∃ front, t.destroyed = s.table.destroyed ++ front ∧
        ∀ i ∈ front, (op = .reap ∨ op = .relieve) ∧ ∀ c ∈ s.held, c.inst ≠ i := by
    intro t quiet which
    obtain ⟨front, destroyed, none_⟩ := quiet.destroyed
    refine ⟨front, destroyed, fun i mem => ⟨which, ?_⟩⟩
    rintro c held rfl
    have busy := ((placed.busy _).mp (agrees.busy placed held)).2
    rw [none_ _ mem] at busy
    exact Nat.lt_irrefl 0 busy
  cases step with
  | get plugin principal generation share =>
    exact same (get_destroyed placed plugin principal generation share)
  | put held => exact same (Agrees.put_frame _ _).2.1
  | putNone | flush | tick => exact same rfl
  | relieve level max freed =>
    obtain ⟨-, -, -, quietly, -⟩ := placed.relieve level max freed
    exact quiet quietly (.inr rfl)
  | reap ready => exact quiet (placed.step _).2 (.inl rfl)

theorem fini_destroyed (t : InstanceTable) (few : (t.gone ++ t.idle).length < 2 ^ 64) :
    t.fini.destroyed = t.destroyed ++ (t.gone ++ t.idle) := by
  rw [fini, reap_eq]
  change t.destroyed ++ (t.gone ++ t.idle).take _ = _
  rw [take_of_length_le (Nat.le_sub_one_of_lt few)]

theorem step_reaps (t : InstanceTable) (room : Nat) : (t.step room).destroyed = t.destroyed ++ t.gone.take room ∧
      (t.step room).gone = t.gone.drop room := by
  rw [InstanceTable.step, reap_eq]
  dsimp only
  split
  · exact ⟨rfl, rfl⟩
  · exact ⟨rfl, rfl⟩

theorem Sound.inOrder (sound : Sound env s) : s.InOrder env := by
  obtain ⟨l, placed, agrees⟩ := sound
  have listed : ∀ i, s.Listed i ↔ i ∈ l := fun i => placed.stores.reached_iff
  have apart : ∀ i ∈ s.table.busy, i ∉ s.table.idle ∧ i ∉ s.table.gone := by
    intro i mem
    have some_ := ((placed.busy i).mp mem).2
    exact ⟨fun idle => Nat.ne_of_gt some_ ((placed.idle i).mp idle).2,
      fun gone => Nat.ne_of_gt some_ ((placed.gone i).mp gone).2.1⟩
  have lists : ∀ i, s.table.Alive i ↔ i ∈ s.table.busy ++ s.table.idle ++ s.table.gone := by
    intro i
    rw [mem_append, mem_append, placed.busy, placed.idle, placed.gone]
    constructor
    · intro alive
      rcases Nat.eq_zero_or_pos (s.table.inst i).calls with none_ | some_
      · by_cases mem : i ∈ l
        · exact .inl (.inr ⟨mem, none_⟩)
        · exact .inr ⟨alive, none_, mem⟩
      · exact .inl (.inl ⟨alive, some_⟩)
    · rintro ((busy | idle) | gone)
      · exact busy.1
      · exact placed.alive i idle.1
      · exact gone.1
  refine
    { full := ⟨l, fun i => (listed i).symm, placed.stores.n.symm, placed.full⟩, one := ?_
      current := ?_, busy := ?_, idle := ?_, gone := ?_, sorted := placed.sorted
      calls := fun i => (agrees.counted i).symm, shares := agrees.shares
      once := placed.destroyedOnce, unused := ?_, lists, listsOnce := ?_, ready := placed.ready
      destroys := fun op s' step => step_destroys placed agrees step
      reaps := step_reaps s.table, ends := ?_, refused := ?_ }
  · intro i j mem mem'
    exact placed.keys i ((listed i).mp mem) j ((listed j).mp mem')
  · intro i mem
    refine ⟨agrees.listed i ((listed i).mp mem), ?_⟩
    rintro c started rfl
    obtain ⟨-, generation, flushes⟩ := agrees.current c started ((listed _).mp mem)
    exact ⟨flushes, generation⟩
  · intro i alive
    rw [placed.busy]
    exact ⟨fun busy => busy.2, fun some_ => ⟨alive, some_⟩⟩
  · intro i _
    rw [placed.idle, listed]
  · intro i alive
    have member := (lists i).mp alive
    rw [mem_append, mem_append, or_assoc] at member
    constructor
    · intro gone
      refine ⟨fun busy => (apart i busy).2 gone, fun idle => ?_⟩
      exact ((placed.gone i).mp gone).2.2 ((placed.idle i).mp idle).1
    · rintro ⟨notBusy, notIdle⟩
      exact (member.resolve_left notBusy).resolve_left notIdle
  · intro c held
    exact ((placed.busy _).mp (agrees.busy placed held)).1.2
  · rw [nodup_append, nodup_append]
    refine ⟨⟨placed.busyOnce, placed.idleOnce, ?_⟩, placed.goneOnce, ?_⟩
    · rintro i busy j idle rfl
      exact (apart i busy).1 idle
    · rintro i front j gone rfl
      rcases mem_append.mp front with busy | idle
      · exact (apart i busy).2 gone
      · exact ((placed.gone i).mp gone).2.2 ((placed.idle i).mp idle).1
  · intro none_ few
    rw [fini_destroyed _ few]
    have left : ∀ i, i ∈ s.table.gone ++ s.table.idle ↔ s.table.Alive i := by
      intro i
      rw [lists, mem_append, mem_append, mem_append, or_comm, or_assoc]
      refine (or_iff_right fun busy => ?_).symm
      have some_ := ((placed.busy i).mp busy).2
      rw [← agrees.counted, none_] at some_
      cases some_
    refine ⟨?_, fun i made => ?_⟩
    · rw [nodup_append, nodup_append]
      refine ⟨placed.destroyedOnce, ⟨placed.goneOnce, placed.idleOnce, ?_⟩, ?_⟩
      · rintro i gone j idle rfl
        exact ((placed.gone i).mp gone).2.2 ((placed.idle i).mp idle).1
      · rintro i destroyed j mem rfl
        exact ((left i).mp mem).2 destroyed
    · by_cases destroyed : i ∈ s.table.destroyed
      · exact mem_append_left _ destroyed
      · exact mem_append_right _ ((left i).mpr ⟨made, destroyed⟩)
  · intro plugin principal generation share error
    obtain ⟨m, got, -⟩ := get_got placed plugin principal generation share
    rw [error] at got
    generalize refused : (Except.error ebusy : Except Int (Option Nat)) = result at got
    generalize (s.table.get env plugin principal generation share).1 = t at got
    cases got with
    | none | alone | again | listed => cases refused
    | fails other | vain _ other => exact absurd (Except.error.inj refused).symm other
    | full many idle =>
      refine ⟨placed.stores.n.trans many, fun i mem => ?_⟩
      rw [Nat.pos_iff_ne_zero]
      intro none_
      have waits := (placed.idle i).mpr ⟨(listed i).mp mem, none_⟩
      rw [idle] at waits
      cases waits

end InstanceUse

theorem instances_in_order {env : Plugins} {ops : List InstanceOp} {s : InstanceUse}
    (run : Trace (InstanceStep env) {} ops s) : s.InOrder env := by
  have sound : InstanceUse.Sound env s := by
    apply run.invariant
    · exact ⟨∅, .start, .start⟩
    · exact fun _ _ _ sound step => InstanceUse.step_sound sound step
  exact sound.inOrder

/-- Plugins that all have instances. -/
def somePlugins : Plugins where
  plugin := fun _ => { instanceSize := 8 }
  hash := fun principal plugin => principal + plugin

/-- A flush comes between a call and the end of another of the same user. -/
theorem instances_in_order_flush :
    ∃ s, Trace (InstanceStep somePlugins) {} [.get, .flush, .get, .put] s ∧ s.InOrder somePlugins ∧
      s.table.busy = [1] ∧ s.table.gone = [0] ∧ s.table.idle = [] := by
  have first := Trace.single (@InstanceStep.get somePlugins {} 3 5 0 {})
  have flushed := first.snoc .flush
  have second := flushed.snoc (.get 3 5 1 {})
  have back := second.snoc (@InstanceStep.put somePlugins _ ⟨0, 3, 5, 0, 0⟩ (by decide))
  exact ⟨_, back, instances_in_order back, by decide, by decide, by decide⟩

end Askai
