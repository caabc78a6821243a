import Askai.Library.Bytes
import Askai.Library.Lists
import Askai.Util.Accounts
import Askai.Util.Htab

/-!
# Stored responses

The table of stored web responses and the list that keeps them in the order in which they expire
(`web_unlink`, `web_keep`, `web_relieve` of `web.c`).
-/

namespace Askai

open Library List

/-- `WEB_CACHE_MAX`. -/
abbrev webCacheMax : Nat := 64 * 2 ^ 20

/-- `struct web_key`, with the bytes that follow it. -/
structure WebKey where
  max : Nat
  url : Nat
  body : Nat
  lines : Nat
  nLines : Nat
  post : Bool
  data : Bytes
  /-- `web_key_size`. -/
  sized : data.length = url + 1 + lines + 1 + body
  deriving DecidableEq

/-- `struct web_entry`, whose `hook` is its place in the list `kept`. -/
structure WebEntry where
  node : HtabNode Nat
  reply : Nat
  expires : Nat
  key : WebKey

/-- The table and the list of `struct web`, with the entries in memory. -/
structure WebCache where
  entries : Nat → WebEntry
  table : Htab Nat
  kept : List Nat
  bytes : Nat

namespace WebCache

/-- The nodes of the entries. -/
def nodes (w : WebCache) (x : Nat) : HtabNode Nat :=
  (w.entries x).node

/-- `web_find`. -/
def find (w : WebCache) (hash : Nat) (key : WebKey) : Option Nat :=
  w.table.find w.nodes hash fun x => (w.entries x).key = key

/-- `web_unlink`, where an entry counts `size`. -/
def unlink (size : Nat → Nat) (w : WebCache) (x : Nat) : WebCache :=
  let (table, node) := w.table.unlink w.nodes x
  { entries := fun y => { w.entries y with node := node y }
    table := table
    kept := w.kept.erase x
    bytes := w.bytes - size x }

/-- The loop of `web_keep` that makes room for `need` bytes, with the entries that it removed. -/
def room (size : Nat → Nat) (need : Nat) (w : WebCache) (gone : List Nat) : WebCache × List Nat :=
  match _kept : w.kept with
  | [] => (w, gone)
  | x :: _ =>
    if webCacheMax < w.bytes + need then room size need (w.unlink size x) (x :: gone) else (w, gone)
termination_by w.kept.length
decreasing_by
  change (w.kept.erase x).length < w.kept.length
  rw [_kept, erase_cons_head]
  exact Nat.lt_succ_self _

/-- The end of `web_keep`: the entry goes into the table and into the list. -/
def link (size : Nat → Nat) (w : WebCache) (x : Nat) : WebCache :=
  let (table, node) := w.table.link w.nodes x
  { entries := fun y => { w.entries y with node := node y }
    table := table
    kept := insertBack (fun y => (w.entries x).expires < (w.entries y).expires) x w.kept
    bytes := w.bytes + size x }

/-- The start of `web_keep`: the entry with an equal key goes. -/
def replace (size : Nat → Nat) (w : WebCache) (x : Nat) : WebCache × List Nat :=
  match w.find (w.entries x).node.hash (w.entries x).key with
  | some old => (w.unlink size old, [old])
  | none => (w, [])

/-- `web_keep`, with the entries that it removed. -/
def keep (size : Nat → Nat) (w : WebCache) (x : Nat) : WebCache × List Nat :=
  let (w, gone) := w.replace size x
  let (w, gone) := w.room size (size x) gone
  (w.link size x, gone)

/-- The loop of `web_relieve`, with the units and the entries that it removed. -/
def relieve (size : Nat → Nat) (level : BufPressure) (max now : Nat) (w : WebCache) (units : Nat)
    (gone : List Nat) : WebCache × Nat × List Nat :=
  match _kept : w.kept with
  | [] => (w, units, gone)
  | x :: _ =>
    if ¬ (units = 0 ∨ units < max) then (w, units, gone)
    else if level ≠ .critical ∧ now < (w.entries x).expires then (w, units, gone)
    else relieve size level max now (w.unlink size x) (units + bufUnits (size x)) (x :: gone)
termination_by w.kept.length
decreasing_by
  change (w.kept.erase x).length < w.kept.length
  rw [_kept, erase_cons_head]
  exact Nat.lt_succ_self _

/-! ## What holds of the cache -/

/-- The entries are the same but for where the table links them. -/
structure Alike (w w' : WebCache) : Prop where
  key : ∀ x, (w'.entries x).key = (w.entries x).key
  reply : ∀ x, (w'.entries x).reply = (w.entries x).reply
  expires : ∀ x, (w'.entries x).expires = (w.entries x).expires
  hash : ∀ x, (w'.entries x).node.hash = (w.entries x).node.hash

theorem Alike.refl (w : WebCache) : Alike w w :=
  ⟨fun _ => rfl, fun _ => rfl, fun _ => rfl, fun _ => rfl⟩

theorem Alike.trans {w w' w'' : WebCache} (first : Alike w w') (second : Alike w' w'') : Alike w w'' :=
  ⟨fun x => (second.key x).trans (first.key x), fun x => (second.reply x).trans (first.reply x),
    fun x => (second.expires x).trans (first.expires x), fun x => (second.hash x).trans (first.hash x)⟩

/-- The table and the list have the same entries, each once and one for each key, in the order in which
they expire, and their bytes are counted and bounded. -/
structure Sound (hash : WebKey → Nat) (size : Nat → Nat) (w : WebCache) : Prop where
  distinct : w.kept.Nodup
  stores : w.table.Stores w.nodes w.kept.toFinset
  hashes : ∀ x ∈ w.kept, (w.entries x).node.hash = hash (w.entries x).key
  keys : ∀ x ∈ w.kept, ∀ y ∈ w.kept, (w.entries x).key = (w.entries y).key → x = y
  sorted : w.kept.Pairwise fun x y => (w.entries x).expires ≤ (w.entries y).expires
  bytes : w.bytes = (w.kept.map size).sum
  most : w.bytes ≤ webCacheMax
  quarter : ∀ x ∈ w.kept, size x ≤ webCacheMax / 4

variable {hash : WebKey → Nat} {size : Nat → Nat} {w : WebCache} {x : Nat}

theorem unlink_alike (size : Nat → Nat) (w : WebCache) (x : Nat) : Alike w (w.unlink size x) :=
  ⟨fun _ => rfl, fun _ => rfl, fun _ => rfl, fun y => Htab.unlink_hash w.table w.nodes x y⟩

theorem link_alike (size : Nat → Nat) (w : WebCache) (x : Nat) : Alike w (w.link size x) :=
  ⟨fun _ => rfl, fun _ => rfl, fun _ => rfl, fun y => Htab.link_hash w.table w.nodes x y⟩

variable {w' : WebCache}

/-- What is not in the cache may change. -/
theorem Sound.congr {size' : Nat → Nat} (sound : Sound hash size w) (table : w'.table = w.table)
    (kept : w'.kept = w.kept) (bytes : w'.bytes = w.bytes)
    (entries : ∀ y ∈ w.kept, w'.entries y = w.entries y) (sizes : ∀ y ∈ w.kept, size' y = size y) :
    Sound hash size' w' := by
  refine ⟨kept ▸ sound.distinct, ?_, ?_, ?_, ?_, ?_, bytes ▸ sound.most, ?_⟩
  · rw [kept, table]
    apply sound.stores.congr
    intro y member
    rw [nodes, entries y (mem_toFinset.mp member), nodes]
  · rw [kept]
    intro y member
    rw [entries y member]
    exact sound.hashes y member
  · rw [kept]
    intro y member z member'
    rw [entries y member, entries z member']
    exact sound.keys y member z member'
  · rw [kept]
    apply sound.sorted.imp_of_mem
    intro y z member member' least
    rw [entries y member, entries z member']
    exact least
  · rw [kept, bytes, sound.bytes, map_congr_left sizes]
  · rw [kept]
    intro y member
    rw [sizes y member]
    exact sound.quarter y member

theorem Sound.sum_erase (sound : Sound hash size w) (inside : x ∈ w.kept) :
    ((w.kept.erase x).map size).sum + size x = w.bytes := by
  have perm := (perm_cons_erase inside).map size
  rw [sound.bytes, perm.sum_eq, map_cons, sum_cons, Nat.add_comm]

/-- An entry that is unlinked is in neither. -/
theorem Sound.unlink (sound : Sound hash size w) (inside : x ∈ w.kept) :
    Sound hash size (w.unlink size x) ∧ (w.unlink size x).bytes + size x = w.bytes := by
  have sum := sound.sum_erase inside
  have alike := unlink_alike size w x
  have sub : ∀ y ∈ (w.unlink size x).kept, y ∈ w.kept := fun y member => mem_of_mem_erase member
  have bytes : (w.unlink size x).bytes = ((w.kept.erase x).map size).sum := by
    change w.bytes - size x = _
    omega
  refine ⟨⟨sound.distinct.erase x, ?_, ?_, ?_, ?_, bytes, ?_, ?_⟩, ?_⟩
  · have stores := sound.stores.unlink (mem_toFinset.mpr inside)
    have same : (w.unlink size x).kept.toFinset = w.kept.toFinset.erase x := by
      ext y
      change y ∈ (w.kept.erase x).toFinset ↔ _
      rw [mem_toFinset, sound.distinct.mem_erase_iff, Finset.mem_erase, mem_toFinset]
    rw [same]
    exact stores
  · intro y member
    rw [alike.hash, alike.key]
    exact sound.hashes y (sub y member)
  · intro y member z member'
    rw [alike.key, alike.key]
    exact sound.keys y (sub y member) z (sub z member')
  · simp only [alike.expires]
    exact sound.sorted.sublist erase_sublist
  · have most := sound.most
    omega
  · exact fun y member => sound.quarter y (sub y member)
  · omega

theorem unlink_head {x : Nat} {l : List Nat} (kept : w.kept = x :: l) : (w.unlink size x).kept = l := by
  change w.kept.erase x = l
  rw [kept, erase_cons_head]

/-- What the loops that remove entries from the front of the list did: the entries that they removed were
in front of those that they left. -/
structure Drops (hash : WebKey → Nat) (size : Nat → Nat) (w : WebCache) (gone dropped : List Nat)
    (w' : WebCache) (gone' : List Nat) : Prop where
  sound : Sound hash size w'
  alike : Alike w w'
  kept : w.kept = dropped ++ w'.kept
  gone : gone' = dropped.reverse ++ gone

theorem Drops.none (sound : Sound hash size w) (gone : List Nat) : Drops hash size w gone [] w gone :=
  ⟨sound, Alike.refl w, rfl, rfl⟩

/-- One more entry was removed before. -/
theorem Drops.cons {gone gone' dropped l : List Nat} (kept : w.kept = x :: l)
    (drops : Drops hash size (w.unlink size x) (x :: gone) dropped w' gone') :
    Drops hash size w gone (x :: dropped) w' gone' where
  sound := drops.sound
  alike := (unlink_alike size w x).trans drops.alike
  kept := by
    have rest := drops.kept
    rw [unlink_head kept] at rest
    rw [kept, rest, cons_append]
  gone := by rw [drops.gone, reverse_cons, append_assoc, singleton_append]

theorem Drops.bytes {gone gone' dropped : List Nat} (sound : Sound hash size w)
    (drops : Drops hash size w gone dropped w' gone') : w.bytes = (dropped.map size).sum + w'.bytes := by
  rw [sound.bytes, drops.kept, map_append, sum_append, drops.sound.bytes]

/-- No entry is lost. -/
theorem Drops.perm {gone gone' dropped : List Nat}
    (drops : Drops hash size w gone dropped w' gone') : (w'.kept ++ gone').Perm (w.kept ++ gone) := by
  rw [drops.kept, drops.gone, ← append_assoc]
  apply List.Perm.append_right
  exact perm_append_comm.trans ((reverse_perm dropped).append_right _)

/-- There is room once the loop ends, and each entry that it removed did not fit beside the new one. -/
theorem Sound.room {need : Nat} (gone : List Nat) (sound : Sound hash size w) (quarter : need ≤ webCacheMax / 4) :
    ∃ dropped, Drops hash size w gone dropped (w.room size need gone).1 (w.room size need gone).2 ∧
      (w.room size need gone).1.bytes + need ≤ webCacheMax ∧ ∀ before y after, dropped = before ++ y :: after →
        webCacheMax < ((y :: after).map size).sum + (w.room size need gone).1.bytes + need := by
  induction length : w.kept.length generalizing w gone with
  | zero =>
    have nothing := length_eq_zero_iff.mp length
    have none_ : w.bytes = 0 := by rw [sound.bytes, nothing, map_nil, sum_nil]
    have same : w.room size need gone = (w, gone) := by
      rw [room.eq_def]
      split
      · rfl
      · next _ _ kept => exact absurd (nothing.symm.trans kept) (cons_ne_nil _ _).symm
    have fits : w.bytes + need ≤ webCacheMax := by omega
    rw [same]
    refine ⟨[], Drops.none sound gone, fits, ?_⟩
    rintro (_ | _) y after equal
    all_goals exact absurd equal (by simp)
  | succ n ih =>
    obtain ⟨x, l, kept⟩ := exists_cons_of_length_eq_add_one length
    have inside : x ∈ w.kept := by rw [kept]; exact mem_cons_self
    have step : w.room size need gone = if webCacheMax < w.bytes + need
        then (w.unlink size x).room size need (x :: gone) else (w, gone) := by
      rw [room.eq_def]
      split
      · next kept' => exact absurd (kept.symm.trans kept') (cons_ne_nil _ _)
      · next y _ kept' =>
        obtain ⟨rfl, -⟩ := List.cons.inj (kept.symm.trans kept')
        rfl
    rw [step]
    split
    · next full =>
      obtain ⟨sound', bytes⟩ := sound.unlink inside
      have length' : (w.unlink size x).kept.length = n := by
        rw [unlink_head kept]
        rw [kept, length_cons] at length
        omega
      obtain ⟨dropped, drops, fits, each⟩ := ih (x :: gone) sound' length'
      have counted := drops.bytes sound'
      refine ⟨x :: dropped, drops.cons kept, fits, ?_⟩
      rintro (_ | ⟨z, before⟩) y after equal
      · obtain ⟨rfl, rfl⟩ := List.cons.inj equal
        rw [map_cons, sum_cons]
        omega
      · obtain ⟨rfl, rfl⟩ := List.cons.inj equal
        exact each before y after rfl
    · next roomy =>
      refine ⟨[], Drops.none sound gone, Nat.le_of_not_lt roomy, ?_⟩
      rintro (_ | _) y after equal
      all_goals exact absurd equal (by simp)

/-- The entry is one of the cache, first of all in the place that its expiry gives it. -/
theorem Sound.link (sound : Sound hash size w) (fresh : x ∉ w.kept)
    (hashed : (w.entries x).node.hash = hash (w.entries x).key)
    (new : ∀ y ∈ w.kept, (w.entries y).key ≠ (w.entries x).key)
    (fits : w.bytes + size x ≤ webCacheMax) (quarter : size x ≤ webCacheMax / 4) : Sound hash size (w.link size x) := by
  have alike := link_alike size w x
  have mem : ∀ y, y ∈ (w.link size x).kept ↔ y = x ∨ y ∈ w.kept := fun y => mem_insertBack
  refine ⟨nodup_insertBack.mpr ⟨fresh, sound.distinct⟩, ?_, ?_, ?_, ?_, ?_, fits, ?_⟩
  · have stores := sound.stores.link fun inside => fresh (mem_toFinset.mp inside)
    have same : (w.link size x).kept.toFinset = insert x w.kept.toFinset := by
      ext y
      rw [mem_toFinset, mem, Finset.mem_insert, mem_toFinset]
    rw [same]
    exact stores
  · intro y member
    rw [alike.hash, alike.key]
    rcases (mem y).mp member with rfl | old
    · exact hashed
    · exact sound.hashes y old
  · intro y member z member'
    rw [alike.key, alike.key]
    rcases (mem y).mp member with rfl | old <;> rcases (mem z).mp member' with rfl | old'
    · exact fun _ => rfl
    · exact fun equal => absurd equal.symm (new z old')
    · exact fun equal => absurd equal (new y old)
    · exact sound.keys y old z old'
  · simp only [alike.expires]
    apply pairwise_insertBack _ _ _ sound.sorted
    · exact fun _ _ _ => Nat.le_trans
    · exact fun y after => (of_decide_eq_true after).le
    · exact fun y stopped => Nat.le_of_not_lt fun less => stopped (decide_eq_true less)
  · change w.bytes + size x = _
    have perm := (insertBack_perm (fun y => (w.entries x).expires < (w.entries y).expires) x w.kept).map size
    rw [show (w.link size x).kept = insertBack _ x w.kept from rfl, perm.sum_eq, map_cons, sum_cons,
      sound.bytes, Nat.add_comm]
  · intro y member
    rcases (mem y).mp member with rfl | old
    · exact quarter
    · exact sound.quarter y old

/-- What is kept without an entry of the key. -/
def others (w : WebCache) (x : Nat) : List Nat :=
  w.kept.filter fun y => (w.entries y).key ≠ (w.entries x).key

/-- What `web_keep` does: an entry of the same key goes, then those at the front that do not fit beside
the new one, which takes its place among the rest. -/
structure Keeps (hash : WebKey → Nat) (size : Nat → Nat) (w : WebCache) (x : Nat) (dropped rest : List Nat)
    (w' : WebCache) (gone : List Nat) : Prop where
  sound : Sound hash size w'
  alike : Alike w w'
  split : w.others x = dropped ++ rest
  kept : w'.kept = insertBack (fun y => (w.entries x).expires < (w.entries y).expires) x rest
  gone : gone = dropped.reverse ++ w.kept.filter fun y => (w.entries y).key = (w.entries x).key
  full : ∀ before y after, dropped = before ++ y :: after →
    webCacheMax < ((y :: after ++ rest).map size).sum + size x

theorem Keeps.perm {dropped rest gone : List Nat}
    (keeps : Keeps hash size w x dropped rest w' gone) : (w'.kept ++ gone).Perm (x :: w.kept) := by
  have parts := filter_append_perm (fun y => decide ((w.entries y).key = (w.entries x).key)) w.kept
  have others : w.kept.filter (fun y => !decide ((w.entries y).key = (w.entries x).key)) = dropped ++ rest := by
    rw [← keeps.split, WebCache.others]
    simp only [ne_eq, decide_not]
  rw [others] at parts
  rw [keeps.kept, keeps.gone]
  calc
    (insertBack _ x rest ++ (dropped.reverse ++ _)).Perm ((x :: rest) ++ (dropped ++ _)) :=
      (insertBack_perm _ x rest).append ((reverse_perm dropped).append_right _)
    _ = x :: ((rest ++ dropped) ++ _) := by rw [cons_append, append_assoc]
    (x :: ((rest ++ dropped) ++ _)).Perm (x :: w.kept) :=
      ((perm_append_comm.trans (perm_append_comm.append_left _)).trans parts).cons x

/-- The entries of the new one's key, of which there is at most one, are those that go first. -/
theorem Sound.replace (sound : Sound hash size w) (hashed : (w.entries x).node.hash = hash (w.entries x).key) :
    Sound hash size (w.replace size x).1 ∧ Alike w (w.replace size x).1 ∧ (w.replace size x).1.kept = w.others x ∧
      (w.replace size x).2 = w.kept.filter fun y => (w.entries y).key = (w.entries x).key := by
  rw [WebCache.replace]
  cases found : w.find (w.entries x).node.hash (w.entries x).key with
  | none =>
    have new : ∀ y ∈ w.kept, (w.entries y).key ≠ (w.entries x).key := by
      intro y member equal
      have missed := sound.stores.find_none found (mem_toFinset.mpr member)
        (by rw [hashed, ← equal]; exact sound.hashes y member)
      exact of_decide_eq_false missed equal
    refine ⟨sound, Alike.refl w, ?_, ?_⟩
    · rw [others, filter_eq_self.mpr fun y member => decide_eq_true (new y member)]
    · rw [filter_eq_nil_iff.mpr fun y member equal => new y member (of_decide_eq_true equal)]
  | some old =>
    obtain ⟨inside, -, equal⟩ := sound.stores.find_some found
    replace inside := mem_toFinset.mp inside
    replace equal : (w.entries old).key = (w.entries x).key := of_decide_eq_true equal
    have only : ∀ y ∈ w.kept, (w.entries y).key = (w.entries x).key ↔ y = old := by
      intro y member
      constructor
      · exact fun same => sound.keys y member old inside (same.trans equal.symm)
      · rintro rfl
        exact equal
    refine ⟨(sound.unlink inside).1, unlink_alike size w old, ?_, ?_⟩
    · change w.kept.erase old = _
      rw [sound.distinct.erase_eq_filter old, others]
      apply filter_congr
      intro y member
      rw [decide_eq_decide.mpr (only y member).not, decide_not]
      rfl
    · have same : w.kept.filter (fun y => (w.entries y).key = (w.entries x).key) = w.kept.filter fun y => y = old :=
        filter_congr fun y member => decide_eq_decide.mpr (only y member)
      rw [same, filter_eq, count_eq_one_of_mem sound.distinct inside, replicate_one]

theorem Sound.keep (sound : Sound hash size w) (fresh : x ∉ w.kept)
    (hashed : (w.entries x).node.hash = hash (w.entries x).key) (quarter : size x ≤ webCacheMax / 4) :
    ∃ dropped rest, Keeps hash size w x dropped rest (w.keep size x).1 (w.keep size x).2 := by
  obtain ⟨sound', alike, split, equal⟩ := sound.replace hashed
  obtain ⟨dropped, drops, fits, full⟩ := sound'.room (w.replace size x).2 quarter
  rw [WebCache.keep]
  obtain ⟨roomy, roomyIs⟩ : ∃ roomy, roomy = (w.replace size x).1.room size (size x) (w.replace size x).2 :=
    ⟨_, rfl⟩
  rw [← roomyIs] at drops fits full
  dsimp only
  rw [← roomyIs]
  have alike' := alike.trans drops.alike
  have split' := drops.kept
  rw [split] at split'
  have sub : ∀ y ∈ roomy.1.kept, y ∈ w.others x := by
    intro y member
    rw [split']
    exact mem_append_right dropped member
  refine ⟨dropped, roomy.1.kept, ?_, alike'.trans (link_alike size _ x), split', ?_, ?_, ?_⟩
  · apply drops.sound.link
    · exact fun inside => fresh (mem_of_mem_filter (sub x inside))
    · rw [alike'.hash, alike'.key]
      exact hashed
    · intro y member
      rw [alike'.key, alike'.key]
      exact of_decide_eq_true (mem_filter.mp (sub y member)).2
    · exact fits
    · exact quarter
  · change insertBack _ x roomy.1.kept = _
    simp only [alike'.expires]
  · rw [drops.gone, equal]
  · intro before y after parts
    rw [map_append, sum_append, ← drops.sound.bytes]
    exact full before y after parts

/-- What `web_relieve` does, which had freed `units`: below the critical level it takes only what is
expired, and it takes more only while it has freed nothing or less than `max`. -/
structure Relieves (hash : WebKey → Nat) (size : Nat → Nat) (level : BufPressure) (max now : Nat)
    (w : WebCache) (units : Nat) (gone dropped : List Nat) (w' : WebCache) (units' : Nat)
    (gone' : List Nat) : Prop extends Drops hash size w gone dropped w' gone' where
  counted : units' = units + (dropped.map fun y => bufUnits (size y)).sum
  expired : level ≠ .critical → ∀ y ∈ dropped, (w.entries y).expires ≤ now
  wanted : ∀ before y after, dropped = before ++ y :: after →
    units + (before.map fun z => bufUnits (size z)).sum = 0 ∨
      units + (before.map fun z => bufUnits (size z)).sum < max
  stopped : w'.kept = [] ∨ (units' ≠ 0 ∧ max ≤ units') ∨
    (level ≠ .critical ∧ ∃ y l, w'.kept = y :: l ∧ now < (w'.entries y).expires)

variable {level : BufPressure} {max now units units' : Nat} {gone gone' dropped l : List Nat}
  {w' : WebCache}

theorem Relieves.none (sound : Sound hash size w) (gone : List Nat) (stopped : w.kept = [] ∨ (units ≠ 0 ∧ max ≤ units) ∨
      (level ≠ .critical ∧ ∃ y l, w.kept = y :: l ∧ now < (w.entries y).expires)) :
    Relieves hash size level max now w units gone [] w units gone :=
  { Drops.none sound gone with
    counted := rfl
    expired := fun _ y member => absurd member not_mem_nil
    wanted := fun before y after equal => absurd equal (by simp)
    stopped := stopped }

/-- One more entry was taken before. -/
theorem Relieves.cons (kept : w.kept = x :: l) (more : units = 0 ∨ units < max)
    (due : level ≠ .critical → (w.entries x).expires ≤ now)
    (relieves : Relieves hash size level max now (w.unlink size x) (units + bufUnits (size x)) (x :: gone)
      dropped w' units' gone') : Relieves hash size level max now w units gone (x :: dropped) w' units' gone' where
  toDrops := relieves.toDrops.cons kept
  counted := by rw [relieves.counted, map_cons, sum_cons, Nat.add_assoc]
  expired := by
    intro below y member
    rcases mem_cons.mp member with rfl | later
    · exact due below
    · rw [← (unlink_alike size w x).expires]
      exact relieves.expired below y later
  wanted := by
    rintro (_ | ⟨z, before⟩) y after equal
    · exact more
    · obtain ⟨rfl, rfl⟩ := List.cons.inj equal
      rw [map_cons, sum_cons, ← Nat.add_assoc]
      exact relieves.wanted before y after rfl
  stopped := relieves.stopped

theorem Sound.relieve (level : BufPressure) (max now units : Nat) (gone : List Nat) (sound : Sound hash size w) :
    ∃ dropped, Relieves hash size level max now w units gone dropped
      (w.relieve size level max now units gone).1 (w.relieve size level max now units gone).2.1
      (w.relieve size level max now units gone).2.2 := by
  induction length : w.kept.length generalizing w units gone with
  | zero =>
    have nothing := length_eq_zero_iff.mp length
    have same : w.relieve size level max now units gone = (w, units, gone) := by
      rw [relieve.eq_def]
      split
      · rfl
      · next _ _ kept => exact absurd (nothing.symm.trans kept) (cons_ne_nil _ _).symm
    rw [same]
    exact ⟨[], Relieves.none sound gone (.inl nothing)⟩
  | succ n ih =>
    obtain ⟨x, l, kept⟩ := exists_cons_of_length_eq_add_one length
    have inside : x ∈ w.kept := by rw [kept]; exact mem_cons_self
    have step : w.relieve size level max now units gone = if ¬ (units = 0 ∨ units < max) then (w, units, gone)
        else if level ≠ .critical ∧ now < (w.entries x).expires then (w, units, gone)
        else (w.unlink size x).relieve size level max now (units + bufUnits (size x)) (x :: gone) := by
      rw [relieve.eq_def]
      split
      · next kept' => exact absurd (kept.symm.trans kept') (cons_ne_nil _ _)
      · next y _ kept' =>
        obtain ⟨rfl, -⟩ := List.cons.inj (kept.symm.trans kept')
        rfl
    rw [step]
    split
    · next enough =>
      exact ⟨[], Relieves.none sound gone (.inr (.inl (by omega)))⟩
    · next more =>
      split
      · next fresh =>
        exact ⟨[], Relieves.none sound gone (.inr (.inr ⟨fresh.1, x, l, kept, fresh.2⟩))⟩
      · next due =>
        have length' : (w.unlink size x).kept.length = n := by
          rw [unlink_head kept]
          rw [kept, length_cons] at length
          omega
        obtain ⟨dropped, relieves⟩ := ih (units + bufUnits (size x)) (x :: gone) (sound.unlink inside).1 length'
        refine ⟨x :: dropped, relieves.cons kept (not_not.mp more) fun below => ?_⟩
        exact Nat.le_of_not_lt fun later => due ⟨below, later⟩

end WebCache

end Askai
