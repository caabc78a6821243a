import Askai.Plugin.Placed

/-!
# Calls that share an instance

What `instance_table_get` gives a call, and what the calls of every run of the table have in common.
-/

namespace Askai

open Library List

namespace InstanceTable

variable {env : Plugins} {t : InstanceTable} {l : Finset Nat}

/-! ## Getting an instance -/

/-- The ways in which `instance_table_get` ends: the table, what it returns, and what the buckets hold
then. -/
inductive Got (env : Plugins) (t : InstanceTable) (l : Finset Nat) (plugin principal generation : Nat) :
    InstanceTable → Except Int (Option Nat) → Finset Nat → Prop
  /-- The plugin has no instances. -/
  | none : Got env t l plugin principal generation t (.ok none) l
  /-- Calls use all that the buckets may have. -/
  | full (many : l.card = instanceMax) (idle : t.idle = []) :
      Got env t l plugin principal generation t (.error ebusy) l
  | fails {e : Int} (other : e ≠ ebusy) : Got env t l plugin principal generation t (.error e) l
  /-- An instance made way for one that is not made. -/
  | vain {i : Nat} {e : Int} (idle : i ∈ t.idle) (other : e ≠ ebusy) :
      Got env t l plugin principal generation (t.retire i) (.error e) (l.erase i)
  /-- An instance of the call's own. -/
  | alone : Got env t l plugin principal generation
      (t.born (env.hash principal plugin) plugin principal) (.ok (some t.made)) l
  /-- An instance that the buckets have. -/
  | again {i : Nat} (named : principal ≠ 0) (same : generation = t.generation) (listed : i ∈ l)
      (key : t.HasKey plugin principal i) :
      Got env t l plugin principal generation (t.again i) (.ok (some i)) l
  /-- A new instance that the buckets have from now on. -/
  | listed {u : InstanceTable} {m : Finset Nat} (named : principal ≠ 0)
      (same : generation = t.generation)
      (room : u = t ∧ m = l ∨ ∃ i ∈ t.idle, u = t.retire i ∧ m = l.erase i) :
      Got env t l plugin principal generation
        (let b := u.born (env.hash principal plugin) plugin principal
         { b with listed := (b.listed.link b.node u.made).1, node := (b.listed.link b.node u.made).2 })
        (.ok (some u.made)) (insert u.made m)

theorem make_cases (t : InstanceTable) (hash plugin principal : Nat) (share : MakeShare) :
    (∃ e, e ≠ ebusy ∧ t.make hash plugin principal share = (t, .error e)) ∨
      t.make hash plugin principal share = (t.born hash plugin principal, .ok t.made) := by
  rw [make]
  split
  · exact .inl ⟨enomem, by decide, rfl⟩
  · split
    · refine .inl ⟨_, ?_, rfl⟩
      split
      · next positive => exact positive.2
      · decide
    · exact .inr rfl

theorem makeRoom_cases (placed : Placed env t l) : (t.makeRoom = .none ∧ l.card = instanceMax ∧ t.idle = []) ∨
      (t.makeRoom = some t ∧ l.card < instanceMax) ∨
      ∃ i ∈ t.idle, t.makeRoom = some (t.retire i) ∧ (l.erase i).card < instanceMax := by
  rw [makeRoom, placed.stores.n]
  split
  · next many =>
      cases idle : t.idle with
      | nil => exact .inl ⟨rfl, many, rfl⟩
      | cons i rest =>
        have mem : i ∈ t.idle := by rw [idle]; exact mem_cons_self
        refine .inr (.inr ⟨i, mem_cons_self, rfl, ?_⟩)
        rw [Finset.card_erase_of_mem ((placed.idle i).mp mem).1, many]
        decide
  · next few => exact .inr (.inl ⟨rfl, Nat.lt_of_le_of_ne placed.full few⟩)

/-- A new instance of a key that the buckets do not have is linked. -/
theorem Placed.enter {u : InstanceTable} {m : Finset Nat} {plugin principal : Nat}
    (placed : Placed env u m) (room : m.card < instanceMax) (new : ∀ j ∈ m, ¬u.HasKey plugin principal j) : Placed env
      (let b := u.born (env.hash principal plugin) plugin principal
       { b with listed := (b.listed.link b.node u.made).1, node := (b.listed.link b.node u.made).2 })
      (insert u.made m) := by
  refine placed.born.link (mem_append_right _ mem_cons_self) room ?_
  intro j mem
  have other : j ≠ u.made := Nat.ne_of_lt (placed.alive j mem).1
  rw [born_self, HasKey, born_of_ne other]
  exact new j mem

theorem get_got (placed : Placed env t l) (plugin principal generation : Nat) (share : MakeShare) :
    ∃ l', Got env t l plugin principal generation (t.get env plugin principal generation share).1
        (t.get env plugin principal generation share).2 l' ∧
      Placed env (t.get env plugin principal generation share).1 l' := by
  rw [get]
  split
  · exact ⟨l, .none, placed⟩
  · dsimp only
    split
    · rcases t.make_cases (env.hash principal plugin) plugin principal share with ⟨e, other, made⟩ | made
      · rw [made]
        exact ⟨l, .fails other, placed⟩
      · rw [made]
        exact ⟨l, .alone, placed.born⟩
    · next named =>
        push Not at named
        obtain ⟨named, same⟩ := named
        cases found : t.find (env.hash principal plugin) plugin principal with
        | some i =>
          obtain ⟨mem, -, key⟩ := placed.stores.find_some found
          rw [matches_iff] at key
          exact ⟨l, .again named same mem key, placed.again mem⟩
        | none =>
          have new : ∀ j ∈ l, ¬t.HasKey plugin principal j := by
            intro j mem key
            have hash : (t.node j).hash = env.hash principal plugin := by
              rw [placed.hashes j (placed.alive j mem), key.1, key.2]
            have differs := placed.stores.find_none found mem hash
            rw [Bool.eq_false_iff, ne_eq, matches_iff] at differs
            exact differs key
          rcases makeRoom_cases placed with ⟨none_, many, idle⟩ | ⟨room, few⟩ | ⟨i, idle, room, few⟩
          · rw [none_]
            exact ⟨l, .full many idle, placed⟩
          · rw [room]
            dsimp only
            rcases t.make_cases (env.hash principal plugin) plugin principal share with ⟨e, other, made⟩ | made
            · rw [made]
              exact ⟨l, .fails other, placed⟩
            · rw [made]
              exact ⟨_, .listed named same (.inl ⟨rfl, rfl⟩), placed.enter few new⟩
          · rw [room]
            dsimp only
            rcases (t.retire i).make_cases (env.hash principal plugin) plugin principal share with
              ⟨e, other, made⟩ | made
            · rw [made]
              exact ⟨_, .vain idle other, placed.retire idle⟩
            · rw [made]
              refine ⟨_, .listed named same (.inr ⟨i, idle, rfl, rfl⟩), (placed.retire idle).enter few fun j mem => ?_⟩
              exact new j (Finset.mem_of_mem_erase mem)

/-! ## Steps that no call takes -/

theorem reap_eq (max : Nat) (t : InstanceTable) : reap max t =
      ({ t with gone := t.gone.drop max, destroyed := t.destroyed ++ t.gone.take max }, min max t.gone.length) := by
  induction max generalizing t with
  | zero => simp [reap]
  | succ max ih =>
    rw [reap]
    cases gone : t.gone with
    | nil =>
      have same : ({ t with gone := [] } : InstanceTable) = t := by rw [← gone]
      rw [drop_nil, take_nil, append_nil, same]
      rfl
    | cons i rest =>
      dsimp only
      rw [ih]
      simp [Nat.succ_min_succ]

/-- The instances, and how many have been made, stay as they are; what is destroyed has no calls. -/
structure Quiet (t t' : InstanceTable) : Prop where
  inst : t'.inst = t.inst
  made : t'.made = t.made
  destroyed : ∃ front, t'.destroyed = t.destroyed ++ front ∧ ∀ i ∈ front, (t.inst i).calls = 0

theorem Quiet.refl (t : InstanceTable) : Quiet t t :=
  ⟨rfl, rfl, [], (append_nil _).symm, nofun⟩

theorem Quiet.trans {t u v : InstanceTable} (front : Quiet t u) (back : Quiet u v) : Quiet t v := by
  obtain ⟨first, some_, none_⟩ := front.destroyed
  obtain ⟨more, some', none'⟩ := back.destroyed
  refine ⟨back.inst.trans front.inst, back.made.trans front.made, first ++ more, ?_, fun i mem => ?_⟩
  · rw [some', some_, append_assoc]
  · rcases mem_append.mp mem with mem | mem
    · exact none_ i mem
    · rw [← front.inst]
      exact none' i mem

theorem Placed.reap (placed : Placed env t l) (max : Nat) :
    Placed env (InstanceTable.reap max t).1 l ∧ Quiet t (InstanceTable.reap max t).1 := by
  rw [reap_eq]
  have split : t.gone = t.gone.take max ++ t.gone.drop max := (take_append_drop max t.gone).symm
  refine ⟨placed.destroy split fun some_ => placed.ready ?_, rfl, rfl, _, rfl, fun i mem => ?_⟩
  · intro none_
    rw [none_] at some_
    exact some_ drop_nil
  · exact ((placed.gone i).mp (mem_of_mem_take mem)).2.1

theorem Placed.step (placed : Placed env t l) (room : Nat) : Placed env (t.step room) l ∧ Quiet t (t.step room) := by
  have split : t.gone = t.gone.take room ++ t.gone.drop room :=
    (take_append_drop room t.gone).symm
  have quiet : ∀ i ∈ t.gone.take room, (t.inst i).calls = 0 :=
    fun i mem => ((placed.gone i).mp (mem_of_mem_take mem)).2.1
  rw [InstanceTable.step, reap_eq]
  dsimp only
  split
  · next none_ =>
      exact ⟨placed.destroy split fun some_ => absurd none_ some_, rfl, rfl, _, rfl, quiet⟩
  · exact ⟨placed.destroy split fun _ => rfl, rfl, rfl, _, rfl, quiet⟩

theorem Placed.retireIdle (placed : Placed env t l) (keep max : Nat) :
    ∃ m ⊆ l, Placed env (InstanceTable.retireIdle keep max t) m ∧ Quiet t (InstanceTable.retireIdle keep max t) ∧
      (InstanceTable.retireIdle keep max t).generation = t.generation := by
  induction max generalizing t l with
  | zero => exact ⟨l, Finset.Subset.refl l, placed, .refl t, rfl⟩
  | succ max ih =>
    rw [InstanceTable.retireIdle]
    cases idle : t.idle with
    | nil => exact ⟨l, Finset.Subset.refl l, placed, .refl t, rfl⟩
    | cons i rest =>
      dsimp only
      split
      · exact ⟨l, Finset.Subset.refl l, placed, .refl t, rfl⟩
      · have mem : i ∈ t.idle := by rw [idle]; exact mem_cons_self
        obtain ⟨m, sub, after, quiet, generation⟩ := ih (placed.retire mem)
        have retired : Quiet t (t.retire i) := ⟨rfl, rfl, [], (append_nil _).symm, nofun⟩
        exact ⟨m, sub.trans (Finset.erase_subset i l), after, retired.trans quiet, generation⟩

theorem Placed.relieve (placed : Placed env t l) (level : BufPressure) (max : Nat) (freed : Nat → Nat) :
    ∃ m ⊆ l, Placed env (t.relieve env level max freed).1 m ∧ Quiet t (t.relieve env level max freed).1 ∧
      (t.relieve env level max freed).1.generation = t.generation := by
  obtain ⟨m, sub, after, quiet, generation⟩ := placed.retireIdle (keep level) max
  obtain ⟨reaped, quiet'⟩ := after.reap max
  refine ⟨m, sub, reaped, quiet.trans quiet', ?_⟩
  rw [← generation]
  change (InstanceTable.reap max _).1.generation = _
  rw [reap_eq]

end InstanceTable

end Askai
