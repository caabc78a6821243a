import Askai.Util.Stash

/-!
# The stash's accounts

What the counts of a stash say of its blocks and of those that buffers hold, after any takes, gives,
ages and releases.
-/

namespace Askai

open Library List

/-! ## Sizes -/

theorem bufClass_size (c : Nat) : bufClass (bufClassSize c) = c := by
  have some_ : 2 ^ (12 + c) = 2 * 2 ^ (11 + c) := by
    rw [← Nat.pow_succ']
    congr 1
    omega
  have one : 1 ≤ 2 ^ (11 + c) := Nat.one_le_two_pow
  have more : 1 < 2 ^ (12 + c) := by omega
  have log : Nat.log2 (2 ^ (12 + c) - 1) = 11 + c := by
    apply (Nat.log2_eq_iff (by omega)).mpr
    rw [Nat.pow_succ]
    omega
  rw [bufClass, bufClassSize, if_pos more, log]
  omega

theorem bufBlock_eq {size : Nat} (inside : bufClass size < bufClasses) :
    bufBlock size = bufClassSize (bufClass size) := by
  rw [bufBlock, if_pos inside, bufClassSize]

/-- The class of a block is the class it was taken for. -/
theorem bufClass_block (size : Nat) : bufClass (bufBlock size) = bufClass size := by
  rcases Nat.lt_or_ge (bufClass size) bufClasses with inside | large
  · rw [bufBlock_eq inside, bufClass_size]
  · rw [bufBlock, if_neg (Nat.not_lt.mpr large)]

theorem bufBlock_block (size : Nat) : bufBlock (bufBlock size) = bufBlock size := by
  rcases Nat.lt_or_ge (bufClass size) bufClasses with inside | large
  · rw [bufBlock_eq (by rwa [bufClass_block]), bufClass_block, bufBlock_eq inside]
  · have same : bufBlock size = size := by rw [bufBlock, if_neg (Nat.not_lt.mpr large)]
    rw [same, same]

theorem bufUnits_pos (bytes : Nat) : 0 < bufUnits bytes := by
  rw [bufUnits]
  split <;> omega

/-! ## What is kept and what is held -/

/-- The bytes of the blocks kept. -/
def retainedBytes (kept : Nat → BufKept) : Nat :=
  ∑ c ∈ Finset.range bufClasses, (kept c).n * bufClassSize c

/-- The bytes of the class blocks that buffers hold. -/
def heldBytes (holding : List (Block × Nat)) : Nat :=
  ((holding.filter fun block => bufClass block.2 < bufClasses).map Prod.snd).sum

theorem retainedBytes_update {c : Nat} (inside : c < bufClasses) (kept : Nat → BufKept) (x : BufKept) :
    retainedBytes (Function.update kept c x) + (kept c).n * bufClassSize c =
      retainedBytes kept + x.n * bufClassSize c := by
  have whole : (fun d => (Function.update kept c x d).n * bufClassSize d) =
      Function.update (fun d => (kept d).n * bufClassSize d) c (x.n * bufClassSize c) := by
    funext d
    exact Function.apply_update (fun d (k : BufKept) => k.n * bufClassSize d) kept c x d
  have sum := tally_update inside id (fun d => (kept d).n * bufClassSize d) (x.n * bufClassSize c)
  rw [← whole] at sum
  exact sum

theorem retainedBytes_congr {kept kept' : Nat → BufKept} (same : ∀ c < bufClasses, (kept' c).n = (kept c).n) :
    retainedBytes kept' = retainedBytes kept := by
  apply Finset.sum_congr rfl
  intro c mem
  rw [same c (Finset.mem_range.mp mem)]

theorem retainedBytes_eq_zero {kept : Nat → BufKept} (none_ : ∀ c < bufClasses, (kept c).n = 0) :
    retainedBytes kept = 0 := by
  apply Finset.sum_eq_zero
  intro c mem
  rw [none_ c (Finset.mem_range.mp mem), Nat.zero_mul]

theorem heldBytes_cons (block : Block × Nat) (holding : List (Block × Nat)) : heldBytes (block :: holding) =
      (if bufClass block.2 < bufClasses then block.2 else 0) + heldBytes holding := by
  rw [heldBytes, filter_cons]
  by_cases inside : bufClass block.2 < bufClasses
  · rw [if_pos (decide_eq_true inside), if_pos inside, map_cons, sum_cons, heldBytes]
  · rw [if_neg (by simpa using inside), if_neg inside, Nat.zero_add, heldBytes]

theorem heldBytes_erase {holding : List (Block × Nat)} {block : Block × Nat} (mem : block ∈ holding) :
    heldBytes holding = (if bufClass block.2 < bufClasses then block.2 else 0) + heldBytes (holding.erase block) := by
  rw [← heldBytes_cons]
  exact (((perm_cons_erase mem).filter _).map _).sum_eq

/-! ## The blocks -/

/-- Every block is allocated, and is in one list of the stash or held by one buffer. -/
structure StashBlocks (word : Block → Option Block) (live : Block → Bool) (top : Nat → Option Block)
    (holding : List (Block × Nat)) (items : Nat → List Block) : Prop where
  lists : Stacks word top items
  keptLive : ∀ {c x}, x ∈ items c → live x = true
  unheld : ∀ {c x}, x ∈ items c → x ∉ holding.map Prod.fst
  heldLive : ∀ {x}, x ∈ holding.map Prod.fst → live x = true
  distinct : (holding.map Prod.fst).Nodup

namespace StashBlocks

variable {word : Block → Option Block} {live : Block → Bool} {top : Nat → Option Block}
  {holding : List (Block × Nat)} {items : Nat → List Block} {c cap : Nat} {data : Block}

/-- A block that `malloc` gives is in no list and no buffer. -/
theorem malloc (blocks : StashBlocks word live top holding items) (fresh : live data = false)
    (cap : Nat) : StashBlocks word (Function.update live data true) top ((data, cap) :: holding) items := by
  have other : ∀ {x}, live x = true → x ≠ data := by
    rintro x alive rfl
    rw [fresh] at alive
    cases alive
  refine ⟨blocks.lists, fun mem => ?_, fun mem => ?_, fun mem => ?_, ?_⟩
  · have alive := blocks.keptLive mem
    rwa [Function.update_of_ne (other alive)]
  · exact not_mem_cons_of_ne_of_not_mem (other (blocks.keptLive mem)) (blocks.unheld mem)
  · rcases mem_cons.mp mem with rfl | mem
    · exact Function.update_self ..
    · have alive := blocks.heldLive mem
      rwa [Function.update_of_ne (other alive)]
  · exact nodup_cons.mpr ⟨fun mem => other (blocks.heldLive mem) rfl, blocks.distinct⟩

/-- The block at the top of a list goes to a buffer. -/
theorem pop (blocks : StashBlocks word live top holding items) (first : top c = some data) (cap : Nat) :
    StashBlocks word live (Function.update top c (word data)) ((data, cap) :: holding)
      (Function.update items c (items c).tail) := by
  have own := blocks.lists.top_mem first
  refine ⟨blocks.lists.pop first, fun mem => ?_, fun mem => ?_, fun mem => ?_, ?_⟩
  · exact blocks.keptLive (Stacks.mem_of_mem_tail mem)
  · refine not_mem_cons_of_ne_of_not_mem ?_ (blocks.unheld (Stacks.mem_of_mem_tail mem))
    rintro rfl
    exact blocks.lists.mem_tail first mem
  · rcases mem_cons.mp mem with rfl | mem
    · exact blocks.keptLive own
    · exact blocks.heldLive mem
  · exact nodup_cons.mpr ⟨blocks.unheld own, blocks.distinct⟩

/-- A block that a buffer holds is freed. -/
theorem free (blocks : StashBlocks word live top holding items) (mem : (data, cap) ∈ holding) :
    StashBlocks word (Function.update live data false) top (holding.erase (data, cap)) items := by
  have perm : (holding.map Prod.fst).Perm (data :: (holding.erase (data, cap)).map Prod.fst) :=
    (perm_cons_erase mem).map Prod.fst
  obtain ⟨gone, distinct⟩ := nodup_cons.mp (perm.nodup_iff.mp blocks.distinct)
  refine ⟨blocks.lists, fun kept => ?_, fun kept held => ?_, fun held => ?_, distinct⟩
  · have alive := blocks.keptLive kept
    rw [Function.update_of_ne]
    · exact alive
    · rintro rfl
      exact blocks.unheld kept (perm.mem_iff.mpr mem_cons_self)
  · exact blocks.unheld kept (perm.mem_iff.mpr (mem_cons_of_mem _ held))
  · have alive := blocks.heldLive (perm.mem_iff.mpr (mem_cons_of_mem _ held))
    rw [Function.update_of_ne]
    · exact alive
    · rintro rfl
      exact gone held

/-- The block at the top of a list is freed. -/
theorem drop (blocks : StashBlocks word live top holding items) (first : top c = some data) :
    StashBlocks word (Function.update live data false) (Function.update top c (word data)) holding
      (Function.update items c (items c).tail) := by
  have freed := (blocks.pop first 0).free mem_cons_self
  rwa [erase_cons_head] at freed

/-- A buffer writes into its block. -/
theorem write (blocks : StashBlocks word live top holding items) (mem : (data, cap) ∈ holding)
    (b : Option Block) : StashBlocks (Function.update word data b) live top holding items := by
  refine ⟨blocks.lists.write (fun _ kept => ?_) b, blocks.keptLive, blocks.unheld, blocks.heldLive, blocks.distinct⟩
  exact blocks.unheld kept (mem_map_of_mem mem)

/-- A buffer gives its block to a list. -/
theorem push (blocks : StashBlocks word live top holding items) (mem : (data, cap) ∈ holding) (c : Nat) :
    StashBlocks (Function.update word data (top c)) live (Function.update top c (some data))
      (holding.erase (data, cap)) (Function.update items c (data :: items c)) := by
  have held := mem_map_of_mem (f := Prod.fst) mem
  have outside : ∀ d, data ∉ items d := fun d kept => blocks.unheld kept held
  have rest := blocks.free mem
  have perm : (holding.map Prod.fst).Perm (data :: (holding.erase (data, cap)).map Prod.fst) :=
    (perm_cons_erase mem).map Prod.fst
  obtain ⟨gone, -⟩ := nodup_cons.mp (perm.nodup_iff.mp blocks.distinct)
  refine ⟨blocks.lists.push outside, fun kept => ?_, fun kept => ?_, fun held => ?_, rest.distinct⟩
  · rcases Stacks.mem_push kept with ⟨rfl, -⟩ | kept
    · exact blocks.heldLive held
    · exact blocks.keptLive kept
  · rcases Stacks.mem_push kept with ⟨rfl, -⟩ | kept
    · exact gone
    · exact rest.unheld kept
  · exact blocks.heldLive (perm.mem_iff.mpr (mem_cons_of_mem _ held))

end StashBlocks

/-! ## The accounts -/

/-- The counts of a stash are those of its lists and of what buffers hold, which have not been more than
the peak, and the peak bounds what both come to. -/
structure Accounts (m : StashMemory) (holding : List (Block × Nat)) (items : Nat → List Block) :
    Prop where
  blocks : StashBlocks m.word m.live m.stash.top holding items
  sizes : ∀ {block}, block ∈ holding → bufBlock block.2 = block.2
  count : ∀ c, (m.stash.kept c).n = (items c).length
  low : ∀ c, (m.stash.kept c).low ≤ (m.stash.kept c).n
  retained : m.stash.retained = retainedBytes m.stash.kept
  held : m.stash.held = heldBytes holding
  most : m.stash.held ≤ m.stash.peak
  twice : m.stash.retained + m.stash.held ≤ 2 * m.stash.peak

/-- No count of unused blocks is larger than before. -/
structure Unraised (m m' : StashMemory) : Prop where
  low : ∀ c, (m'.stash.kept c).low ≤ (m.stash.kept c).low
  idle : ∀ c, (m'.stash.kept c).idle ≤ (m.stash.kept c).idle

/-- What freeing blocks of a stash changes. -/
structure Drops (m m' : StashMemory) : Prop extends Unraised m m' where
  held : m'.stash.held = m.stash.held
  peak : m'.stash.peak = m.stash.peak
  n : ∀ c, (m'.stash.kept c).n ≤ (m.stash.kept c).n
  retained : m'.stash.retained ≤ m.stash.retained

theorem Unraised.refl (m : StashMemory) : Unraised m m :=
  ⟨fun _ => Nat.le_refl _, fun _ => Nat.le_refl _⟩

theorem Drops.refl (m : StashMemory) : Drops m m :=
  ⟨.refl m, rfl, rfl, fun _ => Nat.le_refl _, Nat.le_refl _⟩

theorem Drops.trans {m m' m'' : StashMemory} (first : Drops m m') (second : Drops m' m'') : Drops m m'' where
  low c := Nat.le_trans (second.low c) (first.low c)
  idle c := Nat.le_trans (second.idle c) (first.idle c)
  held := second.held.trans first.held
  peak := second.peak.trans first.peak
  n c := Nat.le_trans (second.n c) (first.n c)
  retained := Nat.le_trans second.retained first.retained

variable {m : StashMemory} {holding : List (Block × Nat)} {items : Nat → List Block}

theorem bufKeptUnused_le (kept : BufKept) (less : kept.low ≤ kept.n) (level : BufPressure) :
    bufKeptUnused kept level ≤ kept.n := by
  rw [bufKeptUnused]
  split
  · exact Nat.le_refl _
  · split <;> omega

/-- What buffers hold when one has taken storage, where there was some. -/
def heldWith (data : Option Block) (cap : Nat) (holding : List (Block × Nat)) : List (Block × Nat) :=
  match data with
  | none => holding
  | some data => (data, cap) :: holding

variable {data : Block}

theorem bufStashDrop_eq {c : Nat} (first : m.stash.top c = some data) (alive : m.live data = true) :
    bufStashDrop m c = some { m.free data with
      stash := { m.stash with
        top := Function.update m.stash.top c (m.word data)
        kept := Function.update m.stash.kept c (bufKeptDrop (m.stash.kept c))
        retained := m.stash.retained - bufClassSize c } } := by
  rw [bufStashDrop, first]
  exact if_pos alive

namespace Accounts

/-- A list of so many blocks has a top, which is allocated. -/
theorem first (acc : Accounts m holding items) {c : Nat} (some_ : (m.stash.kept c).n ≠ 0) :
    ∃ data, m.stash.top c = some data ∧ m.live data = true := by
  cases first : m.stash.top c with
  | none =>
    rw [acc.count c, acc.blocks.lists.top_eq_none.mp first] at some_
    exact absurd rfl some_
  | some data => exact ⟨data, rfl, acc.blocks.keptLive (acc.blocks.lists.top_mem first)⟩

/-- Freeing one block of a class that has some. -/
theorem drop (acc : Accounts m holding items) {c : Nat} (inside : c < bufClasses) (some_ : (m.stash.kept c).n ≠ 0) :
    ∃ m', bufStashDrop m c = some m' ∧ Accounts m' holding (Function.update items c (items c).tail) ∧ Drops m m' ∧
      m'.stash.kept = Function.update m.stash.kept c (bufKeptDrop (m.stash.kept c)) := by
  obtain ⟨data, first, alive⟩ := acc.first some_
  have sum := retainedBytes_update inside m.stash.kept (bufKeptDrop (m.stash.kept c))
  rw [← acc.retained] at sum
  have count := acc.count
  have low := acc.low
  have twice := acc.twice
  obtain ⟨n, n_eq⟩ : ∃ n, (m.stash.kept c).n = n + 1 := ⟨_, (Nat.succ_pred some_).symm⟩
  have dropped : (bufKeptDrop (m.stash.kept c)).n = n := by rw [bufKeptDrop, n_eq, Nat.add_sub_cancel]
  rw [dropped, n_eq, Nat.succ_mul] at sum
  refine ⟨_, bufStashDrop_eq first alive, ⟨acc.blocks.drop first, acc.sizes, ?_, ?_, ?_, acc.held,
    acc.most, ?_⟩, ⟨⟨?_, ?_⟩, rfl, rfl, ?_, ?_⟩, rfl⟩
  · intro d
    dsimp only
    rcases eq_or_ne d c with rfl | other
    · rw [Function.update_self, Function.update_self, dropped, length_tail, ← count, n_eq, Nat.add_sub_cancel]
    · rw [Function.update_of_ne other, Function.update_of_ne other, count]
  · refine (Function.forall_update_iff m.stash.kept fun _ k => k.low ≤ k.n).mpr ⟨?_, fun d _ => low d⟩
    have := low c
    rw [bufKeptDrop]
    dsimp only
    split <;> omega
  · dsimp only
    omega
  · dsimp only
    omega
  · apply (Function.forall_update_iff m.stash.kept fun d k => k.low ≤ (m.stash.kept d).low).mpr
    exact ⟨Nat.sub_le .., fun _ _ => Nat.le_refl _⟩
  · apply (Function.forall_update_iff m.stash.kept fun d k => k.idle ≤ (m.stash.kept d).idle).mpr
    exact ⟨Nat.sub_le .., fun _ _ => Nat.le_refl _⟩
  · apply (Function.forall_update_iff m.stash.kept fun d k => k.n ≤ (m.stash.kept d).n).mpr
    exact ⟨Nat.sub_le .., fun _ _ => Nat.le_refl _⟩
  · exact Nat.sub_le ..

/-- The blocks of a class that do not fit are freed, until the rest does or there are none. -/
theorem shrink (acc : Accounts m holding items) {d : Nat} (inside : d < bufClasses) (room : Nat) {n : Nat}
    (enough : (m.stash.kept d).n ≤ n) :
    ∃ m' items', bufStashShrink room d n m = some m' ∧ Accounts m' holding items' ∧ Drops m m' ∧
      (m'.stash.retained ≤ room ∨ (m'.stash.kept d).n = 0) := by
  induction n generalizing m items with
  | zero => exact ⟨m, items, rfl, acc, .refl m, .inr (Nat.le_zero.mp enough)⟩
  | succ n ih =>
    rw [bufStashShrink]
    split
    · rename_i more
      obtain ⟨m', dropped, acc', drops, kept⟩ := acc.drop inside more.1
      have less : (m'.stash.kept d).n ≤ n := by
        rw [kept, Function.update_self, bufKeptDrop]
        exact Nat.sub_le_of_le_add enough
      obtain ⟨m'', items', shrunk, acc'', drops', fits⟩ := ih acc' less
      exact ⟨m'', items', by rw [dropped, Option.bind_some, shrunk], acc'', drops.trans drops', fits⟩
    · rename_i stop
      refine ⟨m, items, rfl, acc, .refl m, ?_⟩
      rw [not_and_or, not_not, Nat.not_lt] at stop
      exact stop.symm

/-- The same of all classes below one. -/
theorem makeRoom (acc : Accounts m holding items) (room : Nat) {k : Nat} (inside : k ≤ bufClasses) :
    ∃ m' items', bufStashMakeRoom room k m = some m' ∧ Accounts m' holding items' ∧ Drops m m' ∧
      (m'.stash.retained ≤ room ∨ ∀ d < k, (m'.stash.kept d).n = 0) := by
  induction k generalizing m items with
  | zero => exact ⟨m, items, rfl, acc, .refl m, .inr fun d less => absurd less (Nat.not_lt_zero d)⟩
  | succ k ih =>
    obtain ⟨m', items', shrunk, acc', drops, fits⟩ := acc.shrink inside room (Nat.le_refl _)
    obtain ⟨m'', items'', made, acc'', drops', fits'⟩ := ih acc' (Nat.le_of_succ_le inside)
    refine ⟨m'', items'', by rw [bufStashMakeRoom, shrunk, Option.bind_some, made], acc'', drops.trans drops', ?_⟩
    rcases fits with fits | none_
    · exact .inl (Nat.le_trans drops'.retained fits)
    · refine fits'.imp_right fun rest d less => ?_
      rcases Nat.lt_succ_iff_lt_or_eq.mp less with below | rfl
      · exact rest d below
      · exact Nat.le_zero.mp (none_ ▸ drops'.n d)

/-- A buffer takes a block that was freed up to now. -/
theorem malloc (acc : Accounts m holding items) (fresh : m.live data = false)
    {cap : Nat} (size : bufBlock cap = cap) (large : bufClasses ≤ bufClass cap) :
    Accounts (m.malloc (some data)) ((data, cap) :: holding) items := by
  refine ⟨acc.blocks.malloc fresh cap, ?_, acc.count, acc.low, acc.retained, ?_, acc.most, acc.twice⟩
  · intro block mem
    rcases mem_cons.mp mem with rfl | mem
    · exact size
    · exact acc.sizes mem
  · rw [heldBytes_cons, if_neg (Nat.not_lt.mpr large), Nat.zero_add]
    exact acc.held

/-- The same of a block of a class, with room for it. -/
theorem hold (acc : Accounts m holding items) (fresh : m.live data = false)
    {cap : Nat} (size : bufBlock cap = cap) (inside : bufClass cap < bufClasses)
    (room : m.stash.retained + (m.stash.held + cap) ≤
      2 * if m.stash.peak < m.stash.held + cap then m.stash.held + cap else m.stash.peak) :
    Accounts ((m.malloc (some data)).hold cap) ((data, cap) :: holding) items := by
  refine ⟨acc.blocks.malloc fresh cap, ?_, acc.count, acc.low, acc.retained, ?_, ?_, room⟩
  · intro block mem
    rcases mem_cons.mp mem with rfl | mem
    · exact size
    · exact acc.sizes mem
  · rw [heldBytes_cons, if_pos inside, Nat.add_comm cap, ← acc.held]
    rfl
  · change m.stash.held + cap ≤ if m.stash.peak < m.stash.held + cap then m.stash.held + cap else m.stash.peak
    split <;> omega

/-- The block at the top of a class's list goes to a buffer. -/
theorem hit (acc : Accounts m holding items) {c : Nat} (inside : c < bufClasses)
    (some_ : (m.stash.kept c).n ≠ 0) (first : m.stash.top c = some data) :
    Accounts (StashMemory.hold { m with
      stash := { m.stash with
        top := Function.update m.stash.top c (m.word data)
        kept := Function.update m.stash.kept c (bufKeptTake (m.stash.kept c))
        retained := m.stash.retained - bufClassSize c } } (bufClassSize c))
      ((data, bufClassSize c) :: holding) (Function.update items c (items c).tail) := by
  have class_ := bufClass_size c
  have sum := retainedBytes_update inside m.stash.kept (bufKeptTake (m.stash.kept c))
  rw [← acc.retained] at sum
  have count := acc.count
  have most := acc.most
  have twice := acc.twice
  obtain ⟨n, n_eq⟩ : ∃ n, (m.stash.kept c).n = n + 1 := ⟨_, (Nat.succ_pred some_).symm⟩
  have taken : (bufKeptTake (m.stash.kept c)).n = n := by rw [bufKeptTake, n_eq, Nat.add_sub_cancel]
  rw [taken, n_eq, Nat.succ_mul] at sum
  refine ⟨acc.blocks.pop first (bufClassSize c), ?_, ?_, ?_, ?_, ?_, ?_, ?_⟩
  · intro block mem
    rcases mem_cons.mp mem with rfl | mem
    · rw [bufBlock_eq (by rwa [class_]), class_]
    · exact acc.sizes mem
  · intro d
    rw [StashMemory.hold]
    dsimp only
    rcases eq_or_ne d c with rfl | other
    · rw [Function.update_self, Function.update_self, taken, length_tail, ← count, n_eq, Nat.add_sub_cancel]
    · rw [Function.update_of_ne other, Function.update_of_ne other, count]
  · apply (Function.forall_update_iff m.stash.kept fun _ k => k.low ≤ k.n).mpr
    refine ⟨?_, fun d _ => acc.low d⟩
    rw [bufKeptTake]
    dsimp only
    split <;> omega
  · rw [StashMemory.hold]
    dsimp only
    omega
  · rw [heldBytes_cons, if_pos (by rwa [class_]), ← acc.held, Nat.add_comm]
    rfl
  · rw [StashMemory.hold]
    dsimp only
    split <;> omega
  · rw [StashMemory.hold]
    dsimp only
    split <;> omega

/-- A take finds a top where its class has blocks, and keeps the accounts. -/
theorem take (acc : Accounts m holding items) (malloc : Malloc) (size : Nat) :
    ∃ m' data cap items', bufStashTake malloc m size = some (m', data, cap) ∧
      Accounts m' (heldWith data cap holding) items' ∧ Unraised m m' := by
  rw [bufStashTake]
  dsimp only
  have class_ := bufClass_block size
  have block := bufBlock_block size
  rcases Nat.lt_or_ge (bufClass size) bufClasses with inside | large
  · rw [if_neg (Nat.not_le.mpr inside)]
    by_cases some_ : (m.stash.kept (bufClass size)).n ≠ 0
    · rw [if_pos some_]
      obtain ⟨data, first, alive⟩ := acc.first some_
      rw [first]
      dsimp only
      rw [if_pos alive, bufBlock_eq inside]
      refine ⟨_, _, _, _, rfl, acc.hit inside some_ first, ?_, ?_⟩
      · apply (Function.forall_update_iff m.stash.kept fun d k => k.low ≤ (m.stash.kept d).low).mpr
        refine ⟨?_, fun _ _ => Nat.le_refl _⟩
        rw [bufKeptTake]
        dsimp only
        split <;> omega
      · apply (Function.forall_update_iff m.stash.kept fun d k => k.idle ≤ (m.stash.kept d).idle).mpr
        exact ⟨Nat.le_refl _, fun _ _ => Nat.le_refl _⟩
    · rw [if_neg some_]
      obtain ⟨room, room_eq⟩ : ∃ room, room = 2 * (if m.stash.peak < m.stash.held + bufBlock size
        then m.stash.held + bufBlock size else m.stash.peak) - (m.stash.held + bufBlock size) := ⟨_, rfl⟩
      rw [← room_eq]
      obtain ⟨m', items', made, acc', drops, fits⟩ := acc.makeRoom room (Nat.le_refl _)
      rw [made, Option.map_some]
      cases got : malloc.get m' (bufBlock size) with
      | none => exact ⟨_, _, _, items', rfl, acc', drops.toUnraised⟩
      | some data =>
        refine ⟨_, _, _, items', rfl, acc'.hold (malloc.fresh _ _ _ got) block (by rwa [class_]) ?_,
          ⟨drops.low, drops.idle⟩⟩
        have within : m'.stash.retained ≤ room := by
          rcases fits with fits | none_
          · exact fits
          · rw [acc'.retained, retainedBytes_eq_zero none_]
            exact Nat.zero_le _
        rw [drops.held, drops.peak]
        split at room_eq <;> split <;> omega
  · rw [if_pos large]
    cases got : malloc.get m (bufBlock size) with
    | none => exact ⟨_, _, _, items, rfl, acc, .refl m⟩
    | some data =>
      exact ⟨_, _, _, items, rfl, acc.malloc (malloc.fresh _ _ _ got) block (by rwa [class_]),
        fun _ => Nat.le_refl _, fun _ => Nat.le_refl _⟩

/-- A buffer gives up its block. -/
theorem give (acc : Accounts m holding items) (pressure : BufPressure) {cap : Nat} (mem : (data, cap) ∈ holding) :
    (∃ items', Accounts (bufStashGive pressure m (some data) cap) (holding.erase (data, cap)) items') ∧
      Unraised m (bufStashGive pressure m (some data) cap) := by
  have sizes : ∀ {block}, block ∈ holding.erase (data, cap) → bufBlock block.2 = block.2 :=
    fun rest => acc.sizes (mem_of_mem_erase rest)
  have held := heldBytes_erase mem
  rw [← acc.held] at held
  dsimp only at held
  have most := acc.most
  have twice := acc.twice
  rw [bufStashGive]
  dsimp only
  rcases Nat.lt_or_ge (bufClass cap) bufClasses with inside | large
  · rw [if_pos inside] at held
    rw [if_neg (Nat.not_le.mpr inside)]
    have given : m.stash.held - (if m.stash.held < cap then m.stash.held else cap) =
        heldBytes (holding.erase (data, cap)) := by
      split <;> omega
    rw [given]
    split
    · refine ⟨⟨items, acc.blocks.free mem, sizes, acc.count, acc.low, acc.retained, rfl, ?_, ?_⟩,
        fun _ => Nat.le_refl _, fun _ => Nat.le_refl _⟩
      · change heldBytes (holding.erase (data, cap)) ≤ m.stash.peak
        omega
      · change m.stash.retained + heldBytes (holding.erase (data, cap)) ≤ 2 * m.stash.peak
        omega
    · have size : bufClassSize (bufClass cap) = cap := by rw [← bufBlock_eq inside, acc.sizes mem]
      have sum := retainedBytes_update inside m.stash.kept
        { m.stash.kept (bufClass cap) with n := (m.stash.kept (bufClass cap)).n + 1 }
      dsimp only at sum
      rw [Nat.succ_mul, size, ← acc.retained] at sum
      refine ⟨⟨_, acc.blocks.push mem (bufClass cap), sizes, ?_, ?_, ?_, rfl, ?_, ?_⟩, ?_, ?_⟩
      · intro d
        dsimp only
        rcases eq_or_ne d (bufClass cap) with rfl | other
        · rw [Function.update_self, Function.update_self, length_cons, acc.count]
        · rw [Function.update_of_ne other, Function.update_of_ne other, acc.count]
      · apply (Function.forall_update_iff m.stash.kept fun _ k => k.low ≤ k.n).mpr
        exact ⟨Nat.le_succ_of_le (acc.low _), fun d _ => acc.low d⟩
      · dsimp only
        omega
      · dsimp only
        omega
      · dsimp only
        omega
      · apply (Function.forall_update_iff m.stash.kept fun d k => k.low ≤ (m.stash.kept d).low).mpr
        exact ⟨Nat.le_refl _, fun _ _ => Nat.le_refl _⟩
      · apply (Function.forall_update_iff m.stash.kept fun d k => k.idle ≤ (m.stash.kept d).idle).mpr
        exact ⟨Nat.le_refl _, fun _ _ => Nat.le_refl _⟩
  · rw [if_neg (Nat.not_lt.mpr large), Nat.zero_add] at held
    rw [if_pos large]
    exact ⟨⟨items, acc.blocks.free mem, sizes, acc.count, acc.low, acc.retained, held, acc.most, acc.twice⟩,
      fun _ => Nat.le_refl _, fun _ => Nat.le_refl _⟩

/-- A new window, in which all that is kept is unused so far. -/
theorem age (acc : Accounts m holding items) : Accounts (bufStashAge m) holding items := by
  have same : ∀ c, ((bufStashAge m).stash.kept c).n = (m.stash.kept c).n := by
    intro c
    rw [bufStashAge]
    dsimp only
    split <;> rfl
  refine ⟨acc.blocks, acc.sizes, fun c => (same c).trans (acc.count c), fun c => ?_, ?_, acc.held, acc.most, acc.twice⟩
  · rw [bufStashAge]
    dsimp only
    split
    · exact Nat.le_refl _
    · exact acc.low c
  · exact acc.retained.trans (retainedBytes_congr fun c _ => same c).symm

end Accounts

end Askai
