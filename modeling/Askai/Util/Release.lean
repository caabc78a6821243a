import Askai.Util.Accounts

/-!
# What a stash releases

`buf_stash_release` under the accounts, and runs of a thread whose blocks are all from its own stash.
-/

namespace Askai

open Library

/-! ## A release -/

/-- The units released are at most so many, or those of the one block released. -/
def WithinUnits (max : Nat) (s s' : BufStash) (done : Nat) : Prop :=
  done ≤ max ∨ ∃ c < bufClasses, (s.kept c).n ≠ 0 ∧ done = bufUnits (bufClassSize c) ∧
    s'.kept = Function.update s.kept c (bufKeptDrop (s.kept c))

/-- What a release leaves of a stash: of each class it frees at most what is unused, all of that unless
the next block would exceed the units. -/
structure Released (level : BufPressure) (max : Nat) (s s' : BufStash) (done : Nat) : Prop where
  fewer : ∀ c, (s'.kept c).n ≤ (s.kept c).n
  most : ∀ c < bufClasses, (s.kept c).n ≤ (s'.kept c).n + bufKeptUnused (s.kept c) level
  whole : (∀ c < bufClasses, (s'.kept c).n + bufKeptUnused (s.kept c) level = (s.kept c).n) ∨
    0 < done ∧ ∃ c < bufClasses, (s.kept c).n < (s'.kept c).n + bufKeptUnused (s.kept c) level ∧
      max < done + bufUnits (bufClassSize c)
  units : WithinUnits max s s' done

/-- A release in progress. -/
structure Releasing (max : Nat) (m m' : StashMemory) (done : Nat) : Prop extends Drops m m' where
  same : done = 0 → m'.stash.kept = m.stash.kept
  units : WithinUnits max m.stash m'.stash done

theorem Releasing.start (max : Nat) (m : StashMemory) : Releasing max m m 0 :=
  ⟨.refl m, fun _ => rfl, .inl (Nat.zero_le _)⟩

variable {m m' : StashMemory} {holding : List (Block × Nat)} {items : Nat → List Block} {max done : Nat}

/-- One block more, the first or one that fits. -/
theorem Releasing.drop {m'' : StashMemory} {c : Nat} (releasing : Releasing max m m' done)
    (inside : c < bufClasses) (some_ : (m'.stash.kept c).n ≠ 0)
    (fits : done = 0 ∨ done + bufUnits (bufClassSize c) ≤ max) (drops : Drops m' m'')
    (kept : m''.stash.kept = Function.update m'.stash.kept c (bufKeptDrop (m'.stash.kept c))) :
    Releasing max m m'' (done + bufUnits (bufClassSize c)) := by
  refine ⟨releasing.toDrops.trans drops, fun zero => ?_, ?_⟩
  · have := bufUnits_pos (bufClassSize c)
    omega
  · rcases fits with zero | fits
    · have same := releasing.same zero
      rw [same] at kept some_
      exact .inr ⟨c, inside, some_, by rw [zero, Nat.zero_add], kept⟩
    · exact .inl fits

namespace Accounts

theorem releaseClass (acc : Accounts m' holding items) (releasing : Releasing max m m' done) {c : Nat}
    (inside : c < bufClasses) {n : Nat} (enough : n ≤ (m'.stash.kept c).n) :
    ∃ m'' done' left items', bufStashReleaseClass max c n done m' = some (m'', done', left) ∧
      Accounts m'' holding items' ∧ Releasing max m m'' done' ∧
      (∀ d, d ≠ c → m''.stash.kept d = m'.stash.kept d) ∧ left ≤ n ∧
      (m''.stash.kept c).n + n = (m'.stash.kept c).n + left ∧
      (left ≠ 0 → 0 < done' ∧ max < done' + bufUnits (bufClassSize c)) := by
  induction n generalizing m' done items with
  | zero =>
    exact ⟨m', done, 0, items, rfl, acc, releasing, fun _ _ => rfl, Nat.le_refl _, rfl, absurd rfl⟩
  | succ n ih =>
    rw [bufStashReleaseClass]
    split
    · rename_i fits
      have some_ : (m'.stash.kept c).n ≠ 0 := by omega
      obtain ⟨next, dropped, acc', drops, kept⟩ := acc.drop inside some_
      have here : (next.stash.kept c).n = (m'.stash.kept c).n - 1 := by
        rw [kept, Function.update_self, bufKeptDrop]
      obtain ⟨m'', done', left, items', released, acc'', releasing', others, less, count, stop⟩ :=
        ih acc' (releasing.drop inside some_ fits drops kept) (by omega)
      refine ⟨m'', done', left, items', by rw [dropped, Option.bind_some, released], acc'', releasing',
        fun d other => ?_, Nat.le_succ_of_le less, by omega, stop⟩
      rw [others d other, kept, Function.update_of_ne other]
    · rename_i full
      refine ⟨m', done, n + 1, items, rfl, acc, releasing, fun _ _ => rfl, Nat.le_refl _, rfl, fun _ => ?_⟩
      omega

theorem releaseClasses (level : BufPressure) {k : Nat} (acc : Accounts m' holding items)
    (releasing : Releasing max m m' done) (inside : k ≤ bufClasses) (below : ∀ c < k, m'.stash.kept c = m.stash.kept c)
    (above : ∀ c < bufClasses, k ≤ c →
      (m'.stash.kept c).n + bufKeptUnused (m.stash.kept c) level = (m.stash.kept c).n) :
    ∃ m'' done' items', bufStashReleaseClasses level max k done m' = some (m'', done') ∧
      Accounts m'' holding items' ∧ Unraised m m'' ∧ Released level max m.stash m''.stash done' := by
  induction k generalizing m' done items with
  | zero =>
    have whole := fun c less => above c less (Nat.zero_le c)
    have released : Released level max m.stash m'.stash done :=
      ⟨releasing.n, fun c less => (whole c less).ge, .inl whole, releasing.units⟩
    refine ⟨_, done, items, rfl, ?_⟩
    split
    · rename_i critical
      refine ⟨⟨acc.blocks, acc.sizes, acc.count, acc.low, acc.retained, acc.held, Nat.le_refl _, ?_⟩,
        ⟨releasing.low, releasing.idle⟩, ⟨released.fewer, released.most, released.whole, released.units⟩⟩
      have none_ : retainedBytes m'.stash.kept = 0 := by
        apply retainedBytes_eq_zero
        intro c less
        have here := whole c less
        rw [bufKeptUnused, if_pos critical] at here
        omega
      have retained := acc.retained
      dsimp only
      omega
    · exact ⟨acc, releasing.toUnraised, released⟩
  | succ k ih =>
    have unused : bufKeptUnused (m'.stash.kept k) level ≤ (m'.stash.kept k).n :=
      bufKeptUnused_le _ (acc.low k) level
    obtain ⟨m'', done', left, items', class_, acc', releasing', others, less, count, stop⟩ :=
      acc.releaseClass releasing (c := k) inside unused
    have own := below k (Nat.lt_succ_self k)
    rw [own] at count less
    rw [bufStashReleaseClasses, class_, Option.bind_some]
    dsimp only
    by_cases full : left ≠ 0
    · rw [if_pos full]
      obtain ⟨some_, next⟩ := stop full
      refine ⟨m'', done', items', rfl, acc', releasing'.toUnraised, releasing'.n, fun c small => ?_,
        .inr ⟨some_, k, inside, by omega, next⟩, releasing'.units⟩
      rcases Nat.lt_trichotomy c k with before | rfl | behind
      · rw [others c (Nat.ne_of_lt before), below c (Nat.lt_succ_of_lt before)]
        exact Nat.le_add_right ..
      · omega
      · rw [others c (Nat.ne_of_gt behind)]
        exact (above c small behind).ge
    · rw [if_neg full]
      apply ih acc' releasing' (Nat.le_of_succ_le inside)
      · intro c before
        rw [others c (Nat.ne_of_lt before), below c (Nat.lt_succ_of_lt before)]
      · intro c small from_
        rcases Nat.eq_or_lt_of_le from_ with rfl | behind
        · omega
        · rw [others c (Nat.ne_of_gt behind)]
          exact above c small behind

/-- A release finds a top wherever it frees a block, and keeps the accounts. -/
theorem release (acc : Accounts m holding items) (level : BufPressure) (max : Nat) :
    ∃ m' done items', bufStashRelease level max m = some (m', done) ∧ Accounts m' holding items' ∧
      Unraised m m' ∧ Released level max m.stash m'.stash done :=
  acc.releaseClasses level (Releasing.start max m) (Nat.le_refl _) (fun _ _ => rfl)
    fun _ small behind => absurd small (Nat.not_lt.mpr behind)

end Accounts

/-! ## Runs -/

/-- A thread's stash, and the storage that its buffers hold. -/
structure StashWorld where
  memory : StashMemory
  holding : List (Block × Nat) := []

/-- One operation of the thread, but for the beginning of a window. -/
inductive StashStep : StashWorld → StashWorld → Prop
  | take {w : StashWorld} {m : StashMemory} {data : Option Block} {cap : Nat} (malloc : Malloc) (size : Nat)
      (taken : bufStashTake malloc w.memory size = some (m, data, cap)) :
      StashStep w { memory := m, holding := heldWith data cap w.holding }
  | give {w : StashWorld} {data : Block} {cap : Nat} (pressure : BufPressure)
      (held : (data, cap) ∈ w.holding) :
      StashStep w
        { memory := bufStashGive pressure w.memory (some data) cap,
          holding := w.holding.erase (data, cap) }
  /-- An empty buffer gives up no storage. -/
  | giveNone {w : StashWorld} (pressure : BufPressure) :
      StashStep w { w with memory := bufStashGive pressure w.memory none 0 }
  /-- A buffer's bytes are written. -/
  | write {w : StashWorld} {data : Block} {cap : Nat} (held : (data, cap) ∈ w.holding)
      (word : Option Block) :
      StashStep w { w with memory := { w.memory with word := Function.update w.memory.word data word } }
  | release {w : StashWorld} {m : StashMemory} {done : Nat} (level : BufPressure) (max : Nat)
      (released : bufStashRelease level max w.memory = some (m, done)) :
      StashStep w { w with memory := m }

/-- A run from a zeroed stash, with its states since the current window began and those of the window
before. -/
inductive StashRun : StashWorld → List StashWorld → List StashWorld → Prop
  | start (word : Block → Option Block) (live : Block → Bool) :
      StashRun { memory := { word, live } } [{ memory := { word, live } }] []
  | step {w w' : StashWorld} {now before : List StashWorld} (run : StashRun w now before)
      (step : StashStep w w') : StashRun w' (w' :: now) before
  | age {w : StashWorld} {now before : List StashWorld} (run : StashRun w now before) :
      StashRun { w with memory := bufStashAge w.memory } [{ w with memory := bufStashAge w.memory }] now

theorem StashStep.keeps {w w' : StashWorld} {items : Nat → List Block} (step : StashStep w w')
    (acc : Accounts w.memory w.holding items) :
    (∃ items', Accounts w'.memory w'.holding items') ∧ Unraised w.memory w'.memory := by
  cases step with
  | take malloc size taken =>
    obtain ⟨m', data, cap, items', taken', acc', unraised⟩ := acc.take malloc size
    rw [taken] at taken'
    cases taken'
    exact ⟨⟨items', acc'⟩, unraised⟩
  | give pressure held => exact acc.give pressure held
  | giveNone pressure => exact ⟨⟨items, acc⟩, .refl _⟩
  | write held word =>
    refine ⟨⟨items, acc.blocks.write held word, acc.sizes, acc.count, acc.low, acc.retained, acc.held,
      acc.most, acc.twice⟩, fun _ => Nat.le_refl _, fun _ => Nat.le_refl _⟩
  | release level max released =>
    obtain ⟨m', done, items', released', acc', unraised, -⟩ := acc.release level max
    rw [released] at released'
    cases released'
    exact ⟨⟨items', acc'⟩, unraised⟩

/-- No more blocks count as unused in a window than were kept at any time of it. -/
structure Fewest (w : StashWorld) (now before : List StashWorld) : Prop where
  low : ∀ c, ∀ v ∈ now, (w.memory.stash.kept c).low ≤ (v.memory.stash.kept c).n
  idle : ∀ c < bufClasses, ∀ v ∈ before, (w.memory.stash.kept c).idle ≤ (v.memory.stash.kept c).n

theorem StashRun.accounts {w : StashWorld} {now before : List StashWorld} (run : StashRun w now before) :
    (∃ items, Accounts w.memory w.holding items) ∧ Fewest w now before := by
  induction run with
  | start word live =>
    refine ⟨⟨fun _ => [], ⟨.empty word, nofun, nofun, nofun, List.nodup_nil⟩, nofun, fun _ => rfl,
      fun _ => Nat.le_refl _, (retainedBytes_eq_zero fun _ _ => rfl).symm, rfl, Nat.le_refl _,
      Nat.le_refl _⟩, ⟨fun c v mem => Nat.zero_le _, nofun⟩⟩
  | step run step ih =>
    obtain ⟨⟨items, acc⟩, fewest⟩ := ih
    obtain ⟨⟨items', acc'⟩, unraised⟩ := step.keeps acc
    refine ⟨⟨items', acc'⟩, fun c v mem => ?_, fun c small v mem => ?_⟩
    · rcases List.mem_cons.mp mem with rfl | mem
      · exact acc'.low c
      · exact Nat.le_trans (unraised.low c) (fewest.low c v mem)
    · exact Nat.le_trans (unraised.idle c) (fewest.idle c small v mem)
  | age run ih =>
    obtain ⟨⟨items, acc⟩, fewest⟩ := ih
    refine ⟨⟨items, acc.age⟩, fun c v mem => ?_, fun c small v mem => ?_⟩
    · obtain rfl := List.mem_singleton.mp mem
      exact acc.age.low c
    · apply Nat.le_trans (Nat.le_of_eq _) (fewest.low c v mem)
      rw [bufStashAge]
      dsimp only
      rw [if_pos small, bufKeptAge]

/-- After any takes, gives, ages and releases: the counts of a stash are the lengths of its lists, with
what they come to in bytes; what it keeps and its buffers hold is within twice the peak; what is unused at
`BUF_HIGH` is at most what was kept at any time since the window before the current one began, and at
`BUF_CRITICAL` it is all; and no release or take reads the top of an empty list. -/
theorem stash_accounts {w : StashWorld} {now before : List StashWorld} (run : StashRun w now before) :
    (∃ items, Stacks w.memory.word w.memory.stash.top items ∧ ∀ c, (w.memory.stash.kept c).n = (items c).length) ∧
    w.memory.stash.retained = ∑ c ∈ Finset.range bufClasses, (w.memory.stash.kept c).n * bufClassSize c ∧
    w.memory.stash.held = heldBytes w.holding ∧
    w.memory.stash.retained + w.memory.stash.held ≤ 2 * w.memory.stash.peak ∧
    w.memory.stash.held ≤ w.memory.stash.peak ∧ (∀ c, (w.memory.stash.kept c).low ≤ (w.memory.stash.kept c).n) ∧
    (∀ c < bufClasses, ∀ v ∈ now ++ before, bufKeptUnused (w.memory.stash.kept c) .high ≤ (v.memory.stash.kept c).n) ∧
    (∀ c, bufKeptUnused (w.memory.stash.kept c) .critical = (w.memory.stash.kept c).n) ∧
    (∀ level max, ∃ m done, bufStashRelease level max w.memory = some (m, done) ∧
      Released level max w.memory.stash m.stash done) ∧
    ∀ malloc size, ∃ m data cap, bufStashTake malloc w.memory size = some (m, data, cap) := by
  obtain ⟨⟨items, acc⟩, fewest⟩ := run.accounts
  refine ⟨⟨items, acc.blocks.lists, acc.count⟩, acc.retained, acc.held, acc.twice, acc.most, acc.low,
    fun c small v mem => ?_, fun c => if_pos rfl, fun level max => ?_, fun malloc size => ?_⟩
  · rw [bufKeptUnused, if_neg (by decide)]
    rcases List.mem_append.mp mem with mem | mem
    · have := fewest.low c v mem
      split <;> omega
    · have := fewest.idle c small v mem
      split <;> omega
  · obtain ⟨m, done, -, released, -, -, left⟩ := acc.release level max
    exact ⟨m, done, released, left⟩
  · obtain ⟨m, data, cap, -, taken, -⟩ := acc.take malloc size
    exact ⟨m, data, cap, taken⟩

/-- An allocator of one block. -/
def oneBlock : Malloc where
  get m _ := if m.live 7 then none else some 7
  fresh m size data got := by
    split at got
    · cases got
    · rename_i free_
      cases got
      simpa using free_

/-- After the one block is taken. -/
theorem stash_accounts_one : ∃ m data cap, bufStashTake oneBlock { word := fun _ => none, live := fun _ => false } 1 =
      some (m, data, cap) ∧ m.stash.held = heldBytes (heldWith data cap []) :=
  ⟨_, _, _, rfl, (stash_accounts (.step (.start (fun _ => none) fun _ => false) (.take oneBlock 1 rfl))).2.2.1⟩

end Askai
