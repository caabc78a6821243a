import Askai.Plugin.Instances

/-!
# Where instances are

Each instance is on the list that its calls and the buckets say, and the buckets hold one of a key.
-/

namespace Askai

open Library List

namespace InstanceTable

/-- The instance has been made, and not been destroyed. -/
def Alive (t : InstanceTable) (i : Nat) : Prop :=
  i < t.made ∧ i ∉ t.destroyed

/-- The instance has the key. -/
def HasKey (t : InstanceTable) (plugin principal i : Nat) : Prop :=
  (t.inst i).principal = principal ∧ (t.inst i).plugin = plugin

theorem matches_iff (t : InstanceTable) (plugin principal i : Nat) :
    t.matches_ plugin principal i = true ↔ t.HasKey plugin principal i := by
  rw [matches_, Bool.and_eq_true, decide_eq_true_iff, decide_eq_true_iff, HasKey]

/-- The buckets hold the instances of `l`, and every instance is on the list it belongs on. -/
structure Placed (env : Plugins) (t : InstanceTable) (l : Finset Nat) : Prop where
  stores : t.listed.Stores t.node l
  full : l.card ≤ instanceMax
  alive : ∀ i ∈ l, t.Alive i
  keys : ∀ i ∈ l, ∀ j ∈ l, t.HasKey (t.inst j).plugin (t.inst j).principal i → i = j
  hashes : ∀ i, t.Alive i → (t.node i).hash = env.hash (t.inst i).principal (t.inst i).plugin
  busy : ∀ i, i ∈ t.busy ↔ t.Alive i ∧ 0 < (t.inst i).calls
  idle : ∀ i, i ∈ t.idle ↔ i ∈ l ∧ (t.inst i).calls = 0
  gone : ∀ i, i ∈ t.gone ↔ t.Alive i ∧ (t.inst i).calls = 0 ∧ i ∉ l
  busyOnce : t.busy.Nodup
  idleOnce : t.idle.Nodup
  goneOnce : t.gone.Nodup
  destroyedOnce : t.destroyed.Nodup
  made : ∀ i ∈ t.destroyed, i < t.made
  sorted : t.idle.Pairwise fun i j => (t.inst i).idle ≤ (t.inst j).idle
  past : ∀ i ∈ t.idle, (t.inst i).idle ≤ t.now
  ready : t.gone ≠ [] → t.ready = true

namespace Placed

variable {env : Plugins} {t t' : InstanceTable} {l : Finset Nat} {i j : Nat}

theorem start : Placed env {} ∅ where
  stores := .empty (fun _ => rfl) rfl
  full := Nat.zero_le _
  alive := by simp
  keys := by simp
  hashes := fun i alive => absurd alive.1 (Nat.not_lt_zero i)
  busy := fun i => ⟨nofun, fun alive => absurd alive.1.1 (Nat.not_lt_zero i)⟩
  idle := by simp
  gone := fun i => ⟨nofun, fun alive => absurd alive.1.1 (Nat.not_lt_zero i)⟩
  busyOnce := nodup_nil
  idleOnce := nodup_nil
  goneOnce := nodup_nil
  destroyedOnce := nodup_nil
  made := nofun
  sorted := List.Pairwise.nil
  past := nofun
  ready := fun some_ => absurd rfl some_

/-! ## Lists -/

/-- An instance that is retired leaves the buckets and `idle` for `gone`. -/
theorem retire (placed : Placed env t l) (idle : i ∈ t.idle) : Placed env (t.retire i) (l.erase i) := by
  obtain ⟨listed, unused⟩ := (placed.idle i).mp idle
  have stores := placed.stores.unlink listed
  have notBusy : i ∉ t.busy := by
    rw [placed.busy, unused]
    exact fun busy => Nat.lt_irrefl 0 busy.2
  have notGone : i ∉ t.gone := fun gone => ((placed.gone i).mp gone).2.2 listed
  have same : t.retire i =
      { t with
        listed := (t.listed.unlink t.node i).1, node := (t.listed.unlink t.node i).2
        idle := t.idle.erase i, gone := t.gone ++ [i], ready := true } := by
    rw [InstanceTable.retire]
    dsimp only [unhook]
    rw [erase_of_not_mem notBusy, erase_of_not_mem notGone]
  rw [same]
  refine
    { stores, full := ?_, alive := ?_, keys := ?_, hashes := ?_, busy := placed.busy, idle := ?_
      gone := ?_, busyOnce := placed.busyOnce, idleOnce := placed.idleOnce.erase i, goneOnce := ?_
      destroyedOnce := placed.destroyedOnce, made := placed.made, sorted := ?_, past := ?_
      ready := fun _ => rfl }
  · exact (Finset.card_erase_le).trans placed.full
  · exact fun j mem => placed.alive j (Finset.mem_of_mem_erase mem)
  · exact fun j mem k mem' => placed.keys j (Finset.mem_of_mem_erase mem) k (Finset.mem_of_mem_erase mem')
  · intro j alive
    dsimp only
    rw [Htab.unlink_hash]
    exact placed.hashes j alive
  · intro j
    dsimp only
    rw [placed.idleOnce.mem_erase_iff, placed.idle, Finset.mem_erase, and_assoc]
  · intro j
    dsimp only
    rw [mem_append, mem_singleton, placed.gone, Finset.mem_erase]
    constructor
    · rintro (⟨alive, unused, out⟩ | rfl)
      · exact ⟨alive, unused, fun mem => out mem.2⟩
      · exact ⟨placed.alive j listed, unused, fun mem => mem.1 rfl⟩
    · rintro ⟨alive, unused, out⟩
      rcases eq_or_ne j i with rfl | other
      · exact .inr rfl
      · exact .inl ⟨alive, unused, fun mem => out ⟨other, mem⟩⟩
  · dsimp only
    rw [nodup_append_comm, singleton_append, nodup_cons]
    exact ⟨notGone, placed.goneOnce⟩
  · exact placed.sorted.sublist erase_sublist
  · exact fun j mem => placed.past j (mem_of_mem_erase mem)

/-- Instances at the front of `gone` are destroyed. -/
theorem destroy {front back : List Nat} {ready : Bool} (placed : Placed env t l)
    (split : t.gone = front ++ back) (left : back ≠ [] → ready = true) :
    Placed env { t with gone := back, destroyed := t.destroyed ++ front, ready } l := by
  have once := placed.goneOnce
  rw [split, nodup_append] at once
  obtain ⟨frontOnce, backOnce, apart⟩ := once
  have inFront : ∀ j ∈ front, t.Alive j ∧ (t.inst j).calls = 0 ∧ j ∉ l := fun j mem =>
    (placed.gone j).mp (by rw [split]; exact mem_append_left _ mem)
  have alive : ∀ j, ({ t with gone := back, destroyed := t.destroyed ++ front, ready }
      : InstanceTable).Alive j ↔ t.Alive j ∧ j ∉ front := by
    intro j
    rw [Alive, mem_append, not_or, ← and_assoc]
    rfl
  refine
    { stores := placed.stores, full := placed.full, alive := ?_, keys := placed.keys, hashes := ?_
      busy := ?_, idle := placed.idle, gone := ?_, busyOnce := placed.busyOnce
      idleOnce := placed.idleOnce, goneOnce := backOnce, destroyedOnce := ?_, made := ?_
      sorted := placed.sorted, past := placed.past, ready := left }
  · exact fun j mem => (alive j).mpr ⟨placed.alive j mem, fun front => (inFront j front).2.2 mem⟩
  · exact fun j here => placed.hashes j ((alive j).mp here).1
  · intro j
    dsimp only
    rw [placed.busy, alive]
    constructor
    · rintro ⟨here, calls⟩
      refine ⟨⟨here, fun front => ?_⟩, calls⟩
      rw [(inFront j front).2.1] at calls
      exact Nat.lt_irrefl 0 calls
    · exact fun busy => ⟨busy.1.1, busy.2⟩
  · intro j
    dsimp only
    rw [alive]
    have member := placed.gone j
    rw [split, mem_append] at member
    constructor
    · intro mem
      obtain ⟨here, unused, out⟩ := member.mp (.inr mem)
      exact ⟨⟨here, fun front => apart j front j mem rfl⟩, unused, out⟩
    · rintro ⟨⟨here, notFront⟩, unused, out⟩
      exact (member.mpr ⟨here, unused, out⟩).resolve_left notFront
  · dsimp only
    rw [nodup_append]
    refine ⟨placed.destroyedOnce, frontOnce, ?_⟩
    rintro j mem k front rfl
    exact (inFront j front).1.2 mem
  · intro j mem
    rcases mem_append.mp mem with mem | mem
    · exact placed.made j mem
    · exact (inFront j mem).1.1

/-- The buckets are emptied, and what is idle is gone. -/
theorem flush (placed : Placed env t l) : Placed env t.flush ∅ := by
  refine
    { stores := .empty (fun _ => rfl) rfl, full := Nat.zero_le _, alive := by simp, keys := by simp
      hashes := placed.hashes, busy := placed.busy, idle := by simp [InstanceTable.flush], gone := ?_
      busyOnce := placed.busyOnce, idleOnce := nodup_nil, goneOnce := ?_
      destroyedOnce := placed.destroyedOnce, made := placed.made, sorted := .nil, past := nofun
      ready := fun _ => rfl }
  · intro j
    dsimp only [InstanceTable.flush]
    rw [mem_append, placed.gone, placed.idle]
    constructor
    · rintro (⟨alive, unused, -⟩ | ⟨mem, unused⟩)
      · exact ⟨alive, unused, Finset.notMem_empty j⟩
      · exact ⟨placed.alive j mem, unused, Finset.notMem_empty j⟩
    · rintro ⟨alive, unused, -⟩
      by_cases mem : j ∈ l
      · exact .inr ⟨mem, unused⟩
      · exact .inl ⟨alive, unused, mem⟩
  · dsimp only [InstanceTable.flush]
    rw [nodup_append]
    refine ⟨placed.goneOnce, placed.idleOnce, ?_⟩
    rintro j gone k idle rfl
    exact ((placed.gone j).mp gone).2.2 ((placed.idle j).mp idle).1

/-- Time goes by. -/
theorem tick {now : Nat} (placed : Placed env t l) (later : t.now ≤ now) : Placed env { t with now } l :=
  { placed with past := fun i mem => (placed.past i mem).trans later }

/-! ## Calls -/

/-- A new instance, which the buckets do not have. -/
theorem born {plugin principal : Nat} (placed : Placed env t l) :
    Placed env (t.born (env.hash principal plugin) plugin principal) l := by
  have old : ∀ j, t.Alive j → j ≠ t.made := fun j alive => Nat.ne_of_lt alive.1
  have fresh : t.made ∉ t.destroyed := fun mem => Nat.lt_irrefl _ (placed.made _ mem)
  have unlisted : t.made ∉ l := fun mem => old _ (placed.alive _ mem) rfl
  have idle : t.made ∉ t.idle := fun mem => unlisted ((placed.idle _).mp mem).1
  have alive : ∀ j, (t.born (env.hash principal plugin) plugin principal).Alive j ↔ t.Alive j ∨ j = t.made := by
    intro j
    change j < t.made + 1 ∧ j ∉ t.destroyed ↔ _
    rw [Nat.lt_succ_iff_lt_or_eq, or_and_right]
    refine or_congr_right ⟨fun here => here.1, ?_⟩
    rintro rfl
    exact ⟨rfl, fresh⟩
  have self : (t.born (env.hash principal plugin) plugin principal).inst t.made =
      { plugin, principal, calls := 1 } := t.born_self ..
  have nodeSelf : (t.born (env.hash principal plugin) plugin principal).node t.made =
      { hash := env.hash principal plugin } := Function.update_self ..
  have inst : ∀ j ≠ t.made, (t.born (env.hash principal plugin) plugin principal).inst j = t.inst j :=
    fun j other => born_of_ne other
  have node : ∀ j ≠ t.made, (t.born (env.hash principal plugin) plugin principal).node j = t.node j :=
    fun j other => Function.update_of_ne other _ _
  have listed : ∀ j ∈ l, j ≠ t.made := fun j mem => old j (placed.alive j mem)
  refine
    { stores := placed.stores.congr fun j mem => node j (listed j mem), full := placed.full
      alive := fun j mem => (alive j).mpr (.inl (placed.alive j mem)), keys := ?_, hashes := ?_
      busy := ?_, idle := ?_, gone := ?_, busyOnce := ?_, idleOnce := placed.idleOnce
      goneOnce := placed.goneOnce, destroyedOnce := placed.destroyedOnce, made := ?_, sorted := ?_
      past := ?_, ready := placed.ready }
  · intro j mem k mem' same
    rw [HasKey, inst j (listed j mem), inst k (listed k mem')] at same
    exact placed.keys j mem k mem' same
  · intro j here
    rcases (alive j).mp here with before | rfl
    · rw [inst j (old j before), node j (old j before)]
      exact placed.hashes j before
    · rw [self, nodeSelf]
  · intro j
    change j ∈ t.busy ++ [t.made] ↔ _
    rw [mem_append, mem_singleton, placed.busy, alive]
    rcases eq_or_ne j t.made with rfl | other
    · rw [self]
      exact ⟨fun _ => ⟨.inr rfl, Nat.one_pos⟩, fun _ => .inr rfl⟩
    · rw [inst j other]
      simp only [other, or_false]
  · intro j
    change j ∈ t.idle ↔ _
    rcases eq_or_ne j t.made with rfl | other
    · exact ⟨fun mem => absurd mem idle, fun mem => absurd mem.1 unlisted⟩
    · rw [inst j other, placed.idle]
  · intro j
    change j ∈ t.gone ↔ _
    rw [placed.gone, alive]
    rcases eq_or_ne j t.made with rfl | other
    · rw [self]
      refine ⟨fun gone => absurd rfl (old _ gone.1), fun gone => ?_⟩
      cases gone.2.1
    · rw [inst j other]
      simp only [other, or_false]
  · change (t.busy ++ [t.made]).Nodup
    rw [nodup_append_comm, singleton_append, nodup_cons]
    exact ⟨fun mem => old _ ((placed.busy _).mp mem).1 rfl, placed.busyOnce⟩
  · exact fun j mem => (placed.made j mem).trans (Nat.lt_succ_self _)
  · refine placed.sorted.imp_of_mem fun {j k} mem mem' le => ?_
    rw [inst j fun same => idle (same ▸ mem), inst k fun same => idle (same ▸ mem')]
    exact le
  · intro j mem
    rw [inst j fun same => idle (same ▸ mem)]
    exact placed.past j mem

/-- A busy instance that the buckets do not have, nor another of its key, is linked. -/
theorem link (placed : Placed env t l) (busy : i ∈ t.busy) (room : l.card < instanceMax)
    (new : ∀ j ∈ l, ¬t.HasKey (t.inst i).plugin (t.inst i).principal j) :
    Placed env { t with listed := (t.listed.link t.node i).1, node := (t.listed.link t.node i).2 } (insert i l) := by
  obtain ⟨here, calls⟩ := (placed.busy i).mp busy
  have fresh : i ∉ l := fun mem => new i mem ⟨rfl, rfl⟩
  refine
    { placed with
      stores := placed.stores.link fresh, full := ?_, alive := ?_, keys := ?_, hashes := ?_
      idle := ?_, gone := ?_ }
  · rw [Finset.card_insert_of_notMem fresh]
    exact room
  · intro j mem
    rcases Finset.mem_insert.mp mem with rfl | mem
    · exact here
    · exact placed.alive j mem
  · intro j mem k mem' same
    rcases Finset.mem_insert.mp mem with rfl | inside
    · rcases Finset.mem_insert.mp mem' with rfl | inside'
      · rfl
      · exact absurd ⟨same.1.symm, same.2.symm⟩ (new k inside')
    · rcases Finset.mem_insert.mp mem' with rfl | inside'
      · exact absurd same (new j inside)
      · exact placed.keys j inside k inside' same
  · intro j alive
    dsimp only
    rw [Htab.link_hash]
    exact placed.hashes j alive
  · intro j
    dsimp only
    rw [placed.idle, Finset.mem_insert]
    constructor
    · exact fun idle => ⟨.inr idle.1, idle.2⟩
    · rintro ⟨rfl | mem, unused⟩
      · rw [unused] at calls
        exact absurd calls (Nat.lt_irrefl 0)
      · exact ⟨mem, unused⟩
  · intro j
    dsimp only
    rw [placed.gone, Finset.mem_insert, not_or]
    constructor
    · rintro ⟨alive, unused, out⟩
      refine ⟨alive, unused, ?_, out⟩
      rintro rfl
      rw [unused] at calls
      exact Nat.lt_irrefl 0 calls
    · exact fun gone => ⟨gone.1, gone.2.1, gone.2.2.2⟩

/-- A call more, of an instance that the buckets have. -/
theorem again (placed : Placed env t l) (listed : i ∈ l) : Placed env (t.again i) l := by
  have here := placed.alive i listed
  have notGone : i ∉ t.gone := fun mem => ((placed.gone i).mp mem).2.2 listed
  have self := t.again_self i
  have inst : ∀ j ≠ i, (t.again i).inst j = t.inst j := fun j other => again_of_ne other
  have key : ∀ j, ((t.again i).inst j).plugin = (t.inst j).plugin ∧
      ((t.again i).inst j).principal = (t.inst j).principal := by
    intro j
    rcases eq_or_ne j i with rfl | other
    · rw [self]
      exact ⟨rfl, rfl⟩
    · rw [inst j other]
      exact ⟨rfl, rfl⟩
  refine
    { stores := placed.stores, full := placed.full, alive := placed.alive, keys := ?_, hashes := ?_
      busy := ?_, idle := ?_, gone := ?_, busyOnce := ?_, idleOnce := placed.idleOnce.erase i
      goneOnce := placed.goneOnce.erase i, destroyedOnce := placed.destroyedOnce, made := placed.made
      sorted := ?_, past := ?_, ready := ?_ }
  · intro j mem k mem' same
    rw [HasKey, (key j).1, (key j).2, (key k).1, (key k).2] at same
    exact placed.keys j mem k mem' same
  · intro j alive
    rw [(key j).1, (key j).2]
    exact placed.hashes j alive
  · intro j
    change j ∈ t.busy.erase i ++ [i] ↔ _
    rw [mem_append, mem_singleton, placed.busyOnce.mem_erase_iff, placed.busy]
    rcases eq_or_ne j i with rfl | other
    · rw [self]
      exact ⟨fun _ => ⟨here, Nat.succ_pos _⟩, fun _ => .inr rfl⟩
    · rw [inst j other]
      simp only [other, ne_eq, not_false_eq_true, true_and, or_false]
      rfl
  · intro j
    change j ∈ t.idle.erase i ↔ _
    rw [placed.idleOnce.mem_erase_iff, placed.idle]
    rcases eq_or_ne j i with rfl | other
    · rw [self]
      exact ⟨fun mem => absurd rfl mem.1, fun mem => absurd mem.2 (Nat.succ_ne_zero _)⟩
    · rw [inst j other]
      exact ⟨fun mem => mem.2, fun mem => ⟨other, mem⟩⟩
  · intro j
    change j ∈ t.gone.erase i ↔ _
    rw [erase_of_not_mem notGone, placed.gone]
    rcases eq_or_ne j i with rfl | other
    · exact ⟨fun mem => absurd listed mem.2.2, fun mem => absurd listed mem.2.2⟩
    · rw [inst j other]
      rfl
  · change (t.busy.erase i ++ [i]).Nodup
    rw [nodup_append_comm, singleton_append, nodup_cons]
    exact ⟨placed.busyOnce.not_mem_erase, placed.busyOnce.erase i⟩
  · refine (placed.sorted.sublist erase_sublist).imp_of_mem fun {j k} mem mem' le => ?_
    rw [inst j (placed.idleOnce.mem_erase_iff.mp mem).1, inst k (placed.idleOnce.mem_erase_iff.mp mem').1]
    exact le
  · intro j mem
    rw [inst j (placed.idleOnce.mem_erase_iff.mp mem).1]
    exact placed.past j (mem_of_mem_erase mem)
  · intro some_
    apply placed.ready
    rintro none_
    apply some_
    change t.gone.erase i = []
    rw [none_]
    rfl

/-- A call less, of an instance that more than one call uses. -/
theorem uncall (placed : Placed env t l) (more : (t.inst i).calls - 1 ≠ 0) : Placed env (t.uncall i) l := by
  have self := t.uncall_self i
  have inst : ∀ j ≠ i, (t.uncall i).inst j = t.inst j := fun j other => uncall_of_ne other
  have same : ∀ j, ((t.uncall i).inst j).plugin = (t.inst j).plugin ∧
      ((t.uncall i).inst j).principal = (t.inst j).principal ∧
      ((t.uncall i).inst j).idle = (t.inst j).idle ∧
      (((t.uncall i).inst j).calls = 0 ↔ (t.inst j).calls = 0) := by
    intro j
    rcases eq_or_ne j i with rfl | other
    · rw [self]
      exact ⟨rfl, rfl, rfl, by constructor <;> intro zero <;> dsimp only at zero ⊢ <;> omega⟩
    · rw [inst j other]
      exact ⟨rfl, rfl, rfl, Iff.rfl⟩
  refine
    { placed with
      keys := ?_, hashes := ?_, busy := ?_, idle := ?_, gone := ?_, sorted := ?_, past := ?_ }
  · intro j mem k mem' key
    rw [HasKey, (same j).1, (same j).2.1, (same k).1, (same k).2.1] at key
    exact placed.keys j mem k mem' key
  · intro j alive
    rw [(same j).1, (same j).2.1]
    exact placed.hashes j alive
  · intro j
    rw [Nat.pos_iff_ne_zero, ne_eq, (same j).2.2.2, ← ne_eq, ← Nat.pos_iff_ne_zero]
    exact placed.busy j
  · intro j
    rw [(same j).2.2.2]
    exact placed.idle j
  · intro j
    rw [(same j).2.2.2]
    exact placed.gone j
  · refine placed.sorted.imp_of_mem fun {j k} _ _ le => ?_
    rw [(same j).2.2.1, (same k).2.2.1]
    exact le
  · intro j mem
    rw [(same j).2.2.1]
    exact placed.past j mem

end Placed

/-- Every instance is where it belongs but `i`, which no call uses any more and which is on no list. -/
structure Loose (env : Plugins) (t : InstanceTable) (l : Finset Nat) (i : Nat) : Prop where
  stores : t.listed.Stores t.node l
  full : l.card ≤ instanceMax
  alive : ∀ j ∈ l, t.Alive j
  keys : ∀ j ∈ l, ∀ k ∈ l, t.HasKey (t.inst k).plugin (t.inst k).principal j → j = k
  hashes : ∀ j, t.Alive j → (t.node j).hash = env.hash (t.inst j).principal (t.inst j).plugin
  busy : ∀ j, j ∈ t.busy ↔ t.Alive j ∧ 0 < (t.inst j).calls
  idle : ∀ j, j ∈ t.idle ↔ j ≠ i ∧ j ∈ l ∧ (t.inst j).calls = 0
  gone : ∀ j, j ∈ t.gone ↔ j ≠ i ∧ t.Alive j ∧ (t.inst j).calls = 0 ∧ j ∉ l
  busyOnce : t.busy.Nodup
  idleOnce : t.idle.Nodup
  goneOnce : t.gone.Nodup
  destroyedOnce : t.destroyed.Nodup
  made : ∀ j ∈ t.destroyed, j < t.made
  sorted : t.idle.Pairwise fun j k => (t.inst j).idle ≤ (t.inst k).idle
  past : ∀ j ∈ t.idle, (t.inst j).idle ≤ t.now
  ready : t.gone ≠ [] → t.ready = true
  here : t.Alive i
  unused : (t.inst i).calls = 0
  now : (t.inst i).idle = t.now

namespace Loose

variable {env : Plugins} {t : InstanceTable} {l : Finset Nat} {i : Nat}

/-- The instance is found under its key if the buckets have it, and another otherwise. -/
theorem find_iff (loose : Loose env t l i) :
    t.find (t.node i).hash (t.inst i).plugin (t.inst i).principal = some i ↔ i ∈ l := by
  constructor
  · exact fun found => (loose.stores.find_some found).1
  · intro mem
    cases found : t.find (t.node i).hash (t.inst i).plugin (t.inst i).principal with
    | none =>
      have differs := loose.stores.find_none found mem rfl
      rw [Bool.eq_false_iff, ne_eq, matches_iff] at differs
      exact absurd ⟨rfl, rfl⟩ differs
    | some j =>
      obtain ⟨mem', -, key⟩ := loose.stores.find_some found
      rw [matches_iff] at key
      rw [loose.keys j mem' i mem key]

/-- An instance of the buckets waits for the next call of its user. -/
theorem waits (loose : Loose env t l i) (listed : i ∈ l) : Placed env { t with idle := t.idle ++ [i] } l where
  stores := loose.stores
  full := loose.full
  alive := loose.alive
  keys := loose.keys
  hashes := loose.hashes
  busy := loose.busy
  idle := by
    intro j
    rw [mem_append, mem_singleton, loose.idle]
    rcases eq_or_ne j i with rfl | other
    · exact ⟨fun _ => ⟨listed, loose.unused⟩, fun _ => .inr rfl⟩
    · simp only [other, ne_eq, not_false_eq_true, true_and, or_false]
  gone := by
    intro j
    rw [loose.gone]
    refine ⟨fun gone => gone.2, fun gone => ⟨?_, gone⟩⟩
    rintro rfl
    exact gone.2.2 listed
  busyOnce := loose.busyOnce
  idleOnce := by
    rw [nodup_append_comm, singleton_append, nodup_cons]
    exact ⟨fun mem => ((loose.idle i).mp mem).1 rfl, loose.idleOnce⟩
  goneOnce := loose.goneOnce
  destroyedOnce := loose.destroyedOnce
  made := loose.made
  sorted := by
    refine pairwise_append.mpr ⟨loose.sorted, pairwise_singleton .., fun j mem k last => ?_⟩
    rw [mem_singleton.mp last, loose.now]
    exact loose.past j mem
  past := by
    intro j mem
    rcases mem_append.mp mem with mem | mem
    · exact loose.past j mem
    · rw [mem_singleton.mp mem, loose.now]
  ready := loose.ready

/-- Any other is gone. -/
theorem goes (loose : Loose env t l i) (unlisted : i ∉ l) :
    Placed env { t with gone := t.gone ++ [i], ready := true } l where
  stores := loose.stores
  full := loose.full
  alive := loose.alive
  keys := loose.keys
  hashes := loose.hashes
  busy := loose.busy
  idle := by
    intro j
    rw [loose.idle]
    refine ⟨fun idle => idle.2, fun idle => ⟨?_, idle⟩⟩
    rintro rfl
    exact unlisted idle.1
  gone := by
    intro j
    rw [mem_append, mem_singleton, loose.gone]
    rcases eq_or_ne j i with rfl | other
    · exact ⟨fun _ => ⟨loose.here, loose.unused, unlisted⟩, fun _ => .inr rfl⟩
    · simp only [other, ne_eq, not_false_eq_true, true_and, or_false]
      rfl
  busyOnce := loose.busyOnce
  idleOnce := loose.idleOnce
  goneOnce := by
    rw [nodup_append_comm, singleton_append, nodup_cons]
    exact ⟨fun mem => ((loose.gone i).mp mem).1 rfl, loose.goneOnce⟩
  destroyedOnce := loose.destroyedOnce
  made := loose.made
  sorted := loose.sorted
  past := loose.past
  ready := fun _ => rfl

end Loose

namespace Placed

variable {env : Plugins} {t : InstanceTable} {l : Finset Nat} {i : Nat}

/-- The last call of an instance puts it back. -/
theorem last (placed : Placed env t l) (busy : i ∈ t.busy) (last : (t.inst i).calls - 1 = 0) :
    Loose env ((t.uncall i).rest i) l i := by
  obtain ⟨here, calls⟩ := (placed.busy i).mp busy
  have notIdle : i ∉ t.idle := by
    rw [placed.idle]
    exact fun idle => Nat.ne_of_gt calls idle.2
  have notGone : i ∉ t.gone := by
    rw [placed.gone]
    exact fun gone => Nat.ne_of_gt calls gone.2.1
  have idleSame : ((t.uncall i).rest i).idle = t.idle := erase_of_not_mem notIdle
  have goneSame : ((t.uncall i).rest i).gone = t.gone := erase_of_not_mem notGone
  have self : ((t.uncall i).rest i).inst i = { t.inst i with calls := 0, idle := t.now } := by
    rw [rest_self, uncall_self, last]
    rfl
  have inst : ∀ j ≠ i, ((t.uncall i).rest i).inst j = t.inst j := fun j other =>
    (rest_of_ne other).trans (uncall_of_ne other)
  have key : ∀ j, (((t.uncall i).rest i).inst j).plugin = (t.inst j).plugin ∧
      (((t.uncall i).rest i).inst j).principal = (t.inst j).principal := by
    intro j
    rcases eq_or_ne j i with rfl | other
    · rw [self]
      exact ⟨rfl, rfl⟩
    · rw [inst j other]
      exact ⟨rfl, rfl⟩
  have idleOf : ∀ j ∈ t.idle, ((t.uncall i).rest i).inst j = t.inst j :=
    fun j mem => inst j fun same => notIdle (same ▸ mem)
  refine
    { stores := placed.stores, full := placed.full, alive := placed.alive, keys := ?_, hashes := ?_
      busy := ?_, idle := ?_, gone := ?_, busyOnce := placed.busyOnce.erase i
      idleOnce := placed.idleOnce.erase i, goneOnce := placed.goneOnce.erase i
      destroyedOnce := placed.destroyedOnce, made := placed.made, sorted := ?_, past := ?_, ready := ?_
      here, unused := ?_, now := ?_ }
  · intro j mem k mem' same
    rw [HasKey, (key j).1, (key j).2, (key k).1, (key k).2] at same
    exact placed.keys j mem k mem' same
  · intro j alive
    rw [(key j).1, (key j).2]
    exact placed.hashes j alive
  · intro j
    change j ∈ t.busy.erase i ↔ _
    rw [placed.busyOnce.mem_erase_iff, placed.busy]
    rcases eq_or_ne j i with rfl | other
    · rw [self]
      exact ⟨fun mem => absurd rfl mem.1, fun mem => absurd mem.2 (Nat.lt_irrefl 0)⟩
    · rw [inst j other]
      exact ⟨fun mem => mem.2, fun mem => ⟨other, mem⟩⟩
  · intro j
    rw [idleSame, placed.idle]
    rcases eq_or_ne j i with rfl | other
    · exact ⟨fun mem => absurd mem.2 (Nat.ne_of_gt calls), fun mem => absurd rfl mem.1⟩
    · rw [inst j other]
      exact ⟨fun mem => ⟨other, mem⟩, fun mem => mem.2⟩
  · intro j
    rw [goneSame, placed.gone]
    rcases eq_or_ne j i with rfl | other
    · exact ⟨fun mem => absurd mem.2.1 (Nat.ne_of_gt calls), fun mem => absurd rfl mem.1⟩
    · rw [inst j other]
      exact ⟨fun mem => ⟨other, mem⟩, fun mem => mem.2⟩
  · rw [idleSame]
    refine placed.sorted.imp_of_mem fun {j k} mem mem' le => ?_
    rw [idleOf j mem, idleOf k mem']
    exact le
  · rw [idleSame]
    intro j mem
    rw [idleOf j mem]
    exact placed.past j mem
  · rw [goneSame]
    exact placed.ready
  · rw [self]
  · rw [self]
    rfl

/-- An instance is put back. -/
theorem put (placed : Placed env t l) (busy : i ∈ t.busy) : Placed env (t.put (some i)) l := by
  rw [InstanceTable.put]
  dsimp only
  rw [uncall_self]
  dsimp only
  split
  · next more => exact placed.uncall more
  · next none_ =>
      have loose := placed.last busy (not_not.mp none_)
      split
      · next found => exact loose.waits (loose.find_iff.mp found)
      · next other => exact loose.goes fun mem => other (loose.find_iff.mpr mem)

end Placed

end InstanceTable

end Askai
