import Askai.Library.Trace
import Askai.Web.Refs
import Askai.Web.Waits

/-!
# The bounds of the cache

What holds of the stored responses in every state that the threads reach, and how each step changes them.
-/

namespace Askai

open Library List

/-- What an entry of the table has: a whole 2xx answer, within the bound of its request. -/
structure WebEntry.Whole (entry : WebEntry) (reply : WebReply) : Prop where
  e : reply.e = none
  status : 200 ≤ reply.status ∧ reply.status < 300
  most : reply.body.length ≤ entry.key.max

/-- What does not change of a reply. -/
def WebReply.said (reply : WebReply) : WebReply :=
  { reply with refs := 0, freed := false }

theorem WebReply.size_of_said {reply reply' : WebReply} (same : reply'.said = reply.said) :
    reply'.size = reply.size := by
  change reply'.said.size = reply.said.size
  rw [same]

theorem WebReply.body_of_said {reply reply' : WebReply} (same : reply'.said = reply.said) :
    reply'.body = reply.body := by
  change reply'.said.body = reply.said.body
  rw [same]

theorem WebEntry.Whole.congr {entry entry' : WebEntry} {reply reply' : WebReply} (whole : entry.Whole reply)
    (key : entry'.key = entry.key) (same : reply'.said = reply.said) : entry'.Whole reply' where
  e := by
    change reply'.said.e = none
    rw [same]
    exact whole.e
  status := by
    change 200 ≤ reply'.said.status ∧ reply'.said.status < 300
    rw [same]
    exact whole.status
  most := by
    change reply'.said.body.length ≤ _
    rw [same, key]
    exact whole.most

namespace WebWorld

theorem said_get (replies : Nat → WebReply) (r s : Nat) : (get replies r s).said = (replies s).said := by
  rw [get]
  rcases eq_or_ne s r with rfl | other
  · rw [Function.update_self]
    rfl
  · rw [Function.update_of_ne other]

theorem said_put (replies : Nat → WebReply) (r s : Nat) : (put replies r s).said = (replies s).said := by
  rw [put]
  rcases eq_or_ne s r with rfl | other
  · rw [Function.update_self]
    rfl
  · rw [Function.update_of_ne other]

theorem said_take {use : (Nat → WebReply) → Nat → Nat → WebReply}
    (same : ∀ replies r s, (use replies r s).said = (replies s).said) (replies : Nat → WebReply)
    (r : Option Nat) (s : Nat) : (take use replies r s).said = (replies s).said := by
  cases r with
  | none => rfl
  | some r => exact same replies r s

/-- What holds of the stored responses. -/
structure Stored (hash : WebKey → Nat) (w : WebWorld) : Prop where
  sound : w.cache.Sound hash w.entryBytes
  distinct : (w.cache.kept ++ w.gone).Nodup
  made : ∀ x ∈ w.cache.kept ++ w.gone, x < w.nEntries
  whole : ∀ x ∈ w.cache.kept, (w.cache.entries x).Whole (w.replies (w.cache.entries x).reply)

variable {hash : WebKey → Nat} {w w' : WebWorld}

theorem Stored.create (hash : WebKey → Nat) (w : WebWorld) : Stored hash w.create where
  sound :=
    { distinct := nodup_nil
      stores := Htab.Stores.empty (fun _ => rfl) rfl
      hashes := fun _ inside => absurd inside not_mem_nil
      keys := fun _ inside => absurd inside not_mem_nil
      sorted := List.Pairwise.nil
      bytes := rfl
      most := Nat.zero_le _
      quarter := fun _ inside => absurd inside not_mem_nil }
  distinct := nodup_nil
  made _ inside := absurd inside not_mem_nil
  whole _ inside := absurd inside not_mem_nil

/-- The cache is as it was, and so is what its replies say. -/
theorem Stored.frame (stored : Stored hash w) (cache : w'.cache = w.cache) (gone : w'.gone.Sublist w.gone)
    (nEntries : w'.nEntries = w.nEntries) (said : ∀ x ∈ w.cache.kept,
      (w'.replies (w.cache.entries x).reply).said = (w.replies (w.cache.entries x).reply).said) : Stored hash w' := by
  have sub : (w'.cache.kept ++ w'.gone).Sublist (w.cache.kept ++ w.gone) := by
    rw [cache]
    exact (List.Sublist.refl _).append gone
  refine ⟨?_, stored.distinct.sublist sub, fun x inside => ?_, ?_⟩
  · rw [cache]
    apply stored.sound.congr rfl rfl rfl
    · exact fun _ _ => rfl
    · intro x inside
      rw [entryBytes, cache, WebReply.size_of_said (said x inside), entryBytes]
  · rw [nEntries]
    exact stored.made x (sub.subset inside)
  · rw [cache]
    exact fun x inside => (stored.whole x inside).congr rfl (said x inside)

/-- An entry that is made is not yet in the cache. -/
theorem Stored.fresh (stored : Stored hash w) : w.nEntries ∉ w.cache.kept ++ w.gone :=
  fun inside => absurd (stored.made _ inside) (Nat.lt_irrefl _)

theorem entryBytes_alike {cache : WebCache} (alike : w.cache.Alike cache) :
    entryBytes { w with cache := cache } = w.entryBytes := by
  funext x
  rw [entryBytes, alike.key, alike.reply, entryBytes]

/-- Under memory pressure, entries leave the table. -/
theorem Stored.relieve (stored : Stored hash w) (level : BufPressure) (max now : Nat) :
    Stored hash (w.relieve level max now) ∧ ∀ r, (w.relieve level max now).holders r = w.holders r := by
  obtain ⟨dropped, relieves⟩ := stored.sound.relieve level max now 0 []
  have bytes : (w.relieve level max now).entryBytes = w.entryBytes := entryBytes_alike relieves.alike
  have perm := relieves.perm.append_right w.gone
  rw [append_nil, append_assoc] at perm
  have sub : ∀ x ∈ (w.relieve level max now).cache.kept, x ∈ w.cache.kept := by
    intro x inside
    rw [relieves.kept]
    exact mem_append_right _ inside
  refine ⟨⟨?_, perm.nodup_iff.mpr stored.distinct, fun x inside => stored.made x (perm.mem_iff.mp inside), ?_⟩, ?_⟩
  · rw [bytes]
    exact relieves.sound
  · intro x inside
    have whole := stored.whole x (sub x inside)
    rw [← relieves.alike.reply] at whole
    exact whole.congr (relieves.alike.key x) rfl
  · intro r
    have entries : entryHolders (w.relieve level max now).cache.entries
        ((w.relieve level max now).cache.kept ++ (w.relieve level max now).gone) r =
        entryHolders w.cache.entries (w.cache.kept ++ w.gone) r :=
      (entryHolders_perm perm r).trans (entryHolders_congr (fun x _ => relieves.alike.reply x) r)
    rw [holders, entries]
    rfl

/-- A reply in memory changes none of those before. -/
theorem Stored.addReply (stored : Stored hash w) (counted : Counted w) (reply : WebReply) :
    Stored hash (w.addReply reply) := by
  have old : ∀ x ∈ w.cache.kept, ((w.addReply reply).replies (w.cache.entries x).reply).said =
      (w.replies (w.cache.entries x).reply).said := by
    intro x inside
    have other := Nat.ne_of_lt (counted.made _ (holders_entry (mem_append_left _ inside)))
    rw [WebWorld.addReply]
    dsimp only
    rw [Function.update_of_ne other]
  exact stored.frame rfl (List.Sublist.refl _) rfl old

/-- What `web_run_end` stores of a run, as the cache changes. -/
structure Enters (w : WebWorld) (run : WebRun) (x : Nat) (dropped rest : List Nat)
    (w' : WebWorld) : Prop where
  fresh : x ∉ w.cache.kept
  key : (w'.cache.entries x).key = run.key
  /-- An entry with an equal key makes way, then those at the front that do not fit beside the new one. -/
  split : w.cache.kept.filter (fun y => (w'.cache.entries y).key ≠ run.key) = dropped ++ rest
  full : ∀ before y after, dropped = before ++ y :: after →
    webCacheMax < ((y :: after ++ rest).map w'.entryBytes).sum + w'.entryBytes x
  kept : w'.cache.kept =
    insertBack (fun y => (w'.cache.entries x).expires < (w'.cache.entries y).expires) x rest

/-- An entry in memory that is not yet in the table. -/
structure Added (w : WebWorld) (run : WebRun) (r : Nat) (v : WebWorld) : Prop where
  entry : v.cache.entries w.nEntries =
    { node := { hash := run.hash }, reply := r,
      expires := ((w.replies r).received + run.most * Home.ns) % 2 ^ 64, key := run.key }
  entries : ∀ y ≠ w.nEntries, v.cache.entries y = w.cache.entries y
  said : ∀ s, (v.replies s).said = (w.replies s).said
  table : v.cache.table = w.cache.table
  kept : v.cache.kept = w.cache.kept
  bytes : v.cache.bytes = w.cache.bytes
  gone : v.gone = w.gone
  nEntries : v.nEntries = w.nEntries + 1
  waits : v.waits = w.waits
  live : v.live = w.live
  ending : v.ending = w.ending

theorem added (w : WebWorld) (run : WebRun) (r : Nat) : Added w run r (w.addEntry run r) where
  entry := Function.update_self _ _ _
  entries _ other := Function.update_of_ne other _ _
  said := said_get w.replies r
  table := rfl
  kept := rfl
  bytes := rfl
  gone := rfl
  nEntries := rfl
  waits := rfl
  live := rfl
  ending := rfl

variable {run : WebRun} {r : Nat} {v : WebWorld}

theorem Added.old (added : Added w run r v) (stored : Stored hash w) {y : Nat}
    (inside : y ∈ w.cache.kept ++ w.gone) : v.cache.entries y = w.cache.entries y :=
  added.entries y fun same => stored.fresh (same ▸ inside)

theorem Added.sound (added : Added w run r v) (stored : Stored hash w) : v.cache.Sound hash v.entryBytes := by
  apply stored.sound.congr added.table added.kept added.bytes
  · exact fun y inside => added.old stored (mem_append_left _ inside)
  · intro y inside
    rw [entryBytes, added.old stored (mem_append_left _ inside), entryBytes, WebReply.size_of_said (added.said _)]

/-- The new entry enters the table. -/
theorem Added.keep (added : Added w run r v) (stored : Stored hash w) (hashed : run.hash = hash run.key)
    (stores : WebWorld.stores run (w.replies r) = true) :
    ∃ dropped rest, WebCache.Keeps hash v.entryBytes v.cache w.nEntries dropped rest
      (v.keep w.nEntries).cache (v.cache.keep v.entryBytes w.nEntries).2 := by
  rw [WebWorld.stores, decide_eq_true_eq] at stores
  obtain ⟨-, -, -, -, quarter⟩ := stores
  apply (added.sound stored).keep
  · rw [added.kept]
    exact fun inside => stored.fresh (mem_append_left _ inside)
  · rw [added.entry]
    exact hashed
  · rw [entryBytes, added.entry, WebReply.size_of_said (added.said r)]
    exact quarter

theorem Added.stored (added : Added w run r v) (stored : Stored hash w)
    (stores : WebWorld.stores run (w.replies r) = true) (most : (w.replies r).body.length ≤ run.key.max)
    {dropped rest : List Nat} (keeps : WebCache.Keeps hash v.entryBytes v.cache w.nEntries dropped rest
      (v.keep w.nEntries).cache (v.cache.keep v.entryBytes w.nEntries).2) :
    Stored hash (v.keep w.nEntries) ∧ Enters w run w.nEntries dropped rest (v.keep w.nEntries) ∧
      ((v.keep w.nEntries).cache.entries w.nEntries).reply = r ∧
      ∀ s, (v.keep w.nEntries).holders s = w.holders s + if r = s then 1 else 0 := by
  have bytes : (v.keep w.nEntries).entryBytes = v.entryBytes := entryBytes_alike keeps.alike
  have alike := keeps.alike
  have perm : ((v.keep w.nEntries).cache.kept ++ (v.keep w.nEntries).gone).Perm
      (w.nEntries :: (w.cache.kept ++ w.gone)) := by
    have perm := keeps.perm.append_right v.gone
    rw [append_assoc, cons_append, added.kept] at perm
    refine perm.trans ?_
    rw [added.gone]
  have said : ∀ s, ((v.keep w.nEntries).replies s).said = (w.replies s).said := added.said
  have reply : ((v.keep w.nEntries).cache.entries w.nEntries).reply = r := by
    rw [alike.reply, added.entry]
  have key : ((v.keep w.nEntries).cache.entries w.nEntries).key = run.key := by
    rw [alike.key, added.entry]
  refine ⟨⟨?_, ?_, ?_, ?_⟩, ⟨?_, key, ?_, ?_, ?_⟩, reply, ?_⟩
  · rw [bytes]
    exact keeps.sound
  · exact perm.nodup_iff.mpr (nodup_cons.mpr ⟨stored.fresh, stored.distinct⟩)
  · intro y inside
    change y < v.nEntries
    rw [added.nEntries]
    rcases mem_cons.mp (perm.mem_iff.mp inside) with rfl | old
    · exact Nat.lt_succ_self _
    · exact Nat.lt_succ_of_lt (stored.made y old)
  · intro y inside
    rw [keeps.kept, mem_insertBack] at inside
    rcases inside with rfl | old
    · rw [WebWorld.stores, decide_eq_true_eq] at stores
      obtain ⟨-, e, least, below, -⟩ := stores
      have whole : ({ (v.keep w.nEntries).cache.entries w.nEntries with key := run.key } : WebEntry).Whole
          (w.replies r) := ⟨e, ⟨least, below⟩, most⟩
      exact whole.congr key (by rw [reply]; exact said r)
    · have inside : y ∈ v.cache.others w.nEntries := by
        rw [keeps.split]
        exact mem_append_right _ old
      replace inside := mem_of_mem_filter inside
      rw [added.kept] at inside
      have same := added.old stored (mem_append_left _ inside)
      apply (stored.whole y inside).congr
      · rw [alike.key, same]
      · rw [alike.reply, same]
        exact said _
  · exact fun inside => stored.fresh (mem_append_left _ inside)
  · rw [← keeps.split, WebCache.others, added.kept, added.entry]
    simp only [alike.key]
  · rw [bytes]
    exact keeps.full
  · rw [keeps.kept]
    simp only [alike.expires]
  · intro s
    have entries : entryHolders (v.keep w.nEntries).cache.entries
        ((v.keep w.nEntries).cache.kept ++ (v.keep w.nEntries).gone) s =
        entryHolders w.cache.entries (w.cache.kept ++ w.gone) s + if r = s then 1 else 0 := by
      rw [entryHolders_perm perm, entryHolders_cons, reply]
      congr 1
      apply entryHolders_congr
      intro y inside
      rw [alike.reply, added.old stored inside]
    rw [holders, entries, holders]
    change _ + waitHolders v.waits v.live s + homeHolds v.ending s = _
    rw [added.waits, added.live, added.ending]
    omega

/-! ## The end of a run -/

theorem done_ok {result : CurlResult} {status retry : Int} {type error strerror : Bytes}
    (ok : (run.done result status retry type error strerror).e = none) : run.fault = none ∧ result = .ok := by
  rw [WebRun.done] at ok
  dsimp only at ok
  split at ok
  · cases ok
  · cases ok
  · cases ok
  · split at ok
    · next same => exact ⟨ok, same⟩
    · cases ok

/-- `web_run_end` stores only what came whole. -/
theorem stores_done {result : CurlResult} {status retry : Int} {type error strerror : Bytes} {clock : Nat}
    (stored : stores run (run.reply (run.done result status retry type error strerror) clock) = true) :
    run.keep ≠ 0 ∧ run.fault = none ∧ result = .ok ∧ 200 ≤ status ∧ status < 300 ∧
      (run.reply (run.done result status retry type error strerror) clock).body = run.body := by
  rw [stores, decide_eq_true_eq] at stored
  obtain ⟨keep, e, least, below, -⟩ := stored
  have e' : (run.done result status retry type error strerror).e = none := e
  obtain ⟨fault, ok⟩ := done_ok e'
  have whole : (run.reply (run.done result status retry type error strerror) clock).body = run.body := by
    rw [WebRun.reply]
    exact if_neg (not_not.mpr e')
  change 200 ≤ (if 0 < status ∧ status < 1000 then status.toNat else 0) at least
  change (if 0 < status ∧ status < 1000 then status.toNat else 0) < 300 at below
  split at least
  · next inside =>
    rw [if_pos inside] at below
    exact ⟨keep, fault, ok, by omega, by omega, whole⟩
  · omega

theorem stores_fails {error : Bytes} {e : WebErrno} {clock : Nat} :
    stores run (run.reply { error := error, e := some e } clock) = false := by
  rw [stores, decide_eq_false_iff_not]
  rintro ⟨-, none_, -⟩
  cases none_

/-- Home has what its run's waits are to have. -/
theorem holders_close (idle : w.ending = none) (i : Nat) (reply : Option Nat) (s : Nat) :
    (w.close i reply).holders s = w.holders s + if reply = some s then 1 else 0 := by
  have waits : waitHolders (w.close i reply).waits w.live s = waitHolders w.waits w.live s := by
    apply waitHolders_congr
    intro v _
    rw [close]
    dsimp only
    split
    · rfl
    · rfl
  rw [holders, holders, idle]
  change entryHolders w.cache.entries (w.cache.kept ++ w.gone) s +
    waitHolders (w.close i reply).waits w.live s + homeHolds (some (reply, _)) s = _ + _ + homeHolds none s + _
  rw [waits]
  rfl

/-- What holds of the service. -/
structure Standing (hash : WebKey → Nat) (w : WebWorld) : Prop where
  stored : Stored hash w
  counted : Counted w
  awaited : Awaited hash w

/-- How a step changes the stored responses: not at all, or a run's end stores its reply, or memory
pressure takes the first of them. -/
inductive Changes (hash : WebKey → Nat) (w : WebWorld) : WebEvent → WebWorld → Prop
  | same {event : WebEvent} {w' : WebWorld} (cache : w'.cache = w.cache) : Changes hash w event w'
  | enters {i x : Nat} {status : Int} {w' : WebWorld} {dropped rest : List Nat}
      (keep : (w.runs i).keep ≠ 0) (fault : (w.runs i).fault = none) (least : 200 ≤ status)
      (below : status < 300) (body : (w'.replies (w'.cache.entries x).reply).body = (w.runs i).given)
      (most : (w.runs i).given.length ≤ (w.runs i).key.max)
      (enters : Enters w (w.runs i) x dropped rest w') : Changes hash w (.done i .ok status) w'
  | leaves {level : BufPressure} {max now units : Nat} {w' : WebWorld} {dropped gone : List Nat}
      (relieves : w.cache.Relieves hash w.entryBytes level max now 0 [] dropped w'.cache units gone) :
      Changes hash w (.relieves level max now) w'

theorem Standing.runEnd (standing : Standing hash w) {i : Nat} (under : i ∈ w.under) (idle : w.ending = none)
    (response : WebResponse) (clock : Nat) (memory : Bool × Bool) : Standing hash (w.runEnd i response clock memory) ∧
      ((w.runEnd i response clock memory).cache = w.cache ∨ stores (w.runs i) ((w.runs i).reply response clock) = true ∧
          ∃ dropped rest, Enters w (w.runs i) w.nEntries dropped rest (w.runEnd i response clock memory) ∧
            ((w.runEnd i response clock memory).replies
              ((w.runEnd i response clock memory).cache.entries w.nEntries).reply).said =
              ((w.runs i).reply response clock).said) := by
  obtain ⟨stored, counted, awaited⟩ := standing
  have received := awaited.received i under
  obtain ⟨reply, replyIs⟩ : ∃ reply, reply = (w.runs i).reply response clock := ⟨_, rfl⟩
  have most : reply.body.length ≤ (w.runs i).key.max := by
    rw [replyIs, WebRun.reply]
    dsimp only
    split
    · exact Nat.zero_le _
    · exact received.most
  have made : Counts (w.addReply reply).replies (w.nReplies + 1) fun s =>
      w.holders s + if w.nReplies = s then 1 else 0 :=
    counted.make (by rw [replyIs]; rfl) (by rw [replyIs]; rfl) fun _ => rfl
  have stored' := stored.addReply counted reply
  rw [WebWorld.runEnd]
  dsimp only
  rw [← replyIs]
  split
  · refine ⟨⟨stored.frame rfl (List.Sublist.refl _) rfl fun _ _ => rfl, ?_, awaited.close under none⟩, .inl rfl⟩
    apply counted.congr
    intro s
    rw [holders_close idle, if_neg nofun, Nat.add_zero]
  · split
    · next stores =>
      obtain ⟨stores, -⟩ := stores
      have new : (w.addReply reply).replies w.nReplies = reply := Function.update_self _ _ _
      have added := added (w.addReply reply) (w.runs i) w.nReplies
      rw [← new] at stores most
      obtain ⟨dropped, rest, keeps⟩ := added.keep stored' received.hashed stores
      obtain ⟨stored', enters, has, holders⟩ := added.stored stored' stores most keeps
      obtain ⟨v, vIs⟩ : ∃ v, v = ((w.addReply reply).addEntry (w.runs i) w.nReplies).keep w.nEntries := ⟨_, rfl⟩
      have idle' : v.ending = none := by rw [vIs]; exact idle
      have awaited' : Awaited hash v := by
        rw [vIs]
        exact awaited.frame _ _ _ _ _
      have under' : i ∈ v.under := by rw [vIs]; exact under
      have got := made.get (r := w.nReplies) (by rw [if_pos rfl]; exact Nat.succ_ne_zero _) fun _ => rfl
      refine ⟨⟨stored'.frame rfl (List.Sublist.refl _) rfl fun _ _ => rfl, ?_, ?_⟩, .inr ⟨?_, dropped, rest, ?_, ?_⟩⟩
      · apply got.congr
        intro s
        have more : v.holders s = (w.addReply reply).holders s + if w.nReplies = s then 1 else 0 := by
          rw [vIs]
          exact holders s
        rw [← vIs, holders_close idle', more]
        simp only [Option.some.injEq]
        rfl
      · rw [← vIs]
        exact awaited'.close under' _
      · rw [new] at stores
        exact stores
      · exact ⟨enters.fresh, enters.key, enters.split, enters.full, enters.kept⟩
      · have same := added.said w.nReplies
        rw [new] at same
        change (((w.addReply reply).addEntry (w.runs i) w.nReplies).replies _).said = _
        rw [← same]
        congr 2
    · refine ⟨⟨stored'.frame rfl (List.Sublist.refl _) rfl fun _ _ => rfl, ?_, ?_⟩, .inl rfl⟩
      · apply made.congr
        intro s
        have idle' : (w.addReply reply).ending = none := idle
        rw [holders_close idle']
        simp only [Option.some.injEq]
        rfl
      · have awaited' : Awaited hash (w.addReply reply) := awaited.frame _ _ _ _ _
        have under' : i ∈ (w.addReply reply).under := under
        exact awaited'.close under' _

/-! ## The other steps -/

theorem Standing.await (standing : Standing hash w) {i : Nat} (under : i ∈ w.under) (keep : Nat) :
    Standing hash (w.await i keep) := by
  obtain ⟨stored, counted, awaited⟩ := standing
  refine ⟨stored.frame rfl (List.Sublist.refl _) rfl fun _ _ => rfl, ?_, awaited.await under keep⟩
  apply counted.congr
  intro s
  change (w.addWait { run := some i }).holders s = _
  rw [holders_addWait awaited.made, if_neg nofun, Nat.add_zero]

theorem Standing.ask (standing : Standing hash w) (key : WebKey) (keep timeout now : Nat) :
    Standing hash (w.ask hash key keep timeout now).1 ∧ (w.ask hash key keep timeout now).1.cache = w.cache := by
  obtain ⟨stored, counted, awaited⟩ := standing
  rw [WebWorld.ask]
  split
  · next x found =>
    have inside : x ∈ w.cache.kept := by
      rw [hit] at found
      split at found
      · cases found
      · obtain ⟨found, -⟩ := Option.filter_eq_some_iff.mp found
        exact mem_toFinset.mp (stored.sound.stores.find_some found).1
    refine ⟨⟨?_, ?_, ?_⟩, rfl⟩
    · exact stored.frame rfl (List.Sublist.refl _) rfl fun y _ => said_get _ _ _
    · apply counted.get (holders_entry (mem_append_left _ inside))
      intro s
      have more := holders_addWait awaited.made { reply := some (w.cache.entries x).reply, done := true } s
      simp only [Option.some.injEq] at more
      exact more
    · exact (awaited.addWait rfl).frame _ _ _ _ _
  · split
    · next i found =>
      have under : i ∈ w.under := by
        split at found
        · cases found
        · exact (awaited.shared i (mem_of_find?_eq_some found)).1
      exact ⟨Standing.await ⟨stored, counted, awaited⟩ under keep, rfl⟩
    · split
      · exact ⟨⟨stored, counted, awaited⟩, rfl⟩
      · dsimp only
        refine ⟨Standing.await ⟨?_, ?_, ?_⟩ ?_ keep, rfl⟩
        · exact stored.frame rfl (List.Sublist.refl _) rfl fun _ _ => rfl
        · exact counted
        · apply awaited.start rfl ⟨rfl, Nat.zero_le _, fun _ => rfl⟩
          split
          · exact .inl rfl
          · next keeps => exact .inr ⟨keeps, rfl⟩
        · exact mem_append_right _ mem_cons_self

theorem Standing.mail (standing : Standing hash w) {wait : Nat} (posted : (w.waits wait).posted = true) :
    Standing hash (w.mail wait) := by
  obtain ⟨stored, counted, awaited⟩ := standing
  refine ⟨stored.frame rfl (List.Sublist.refl _) rfl fun _ _ => rfl, ?_, awaited.mail posted⟩
  apply counted.congr
  intro s
  have waits : waitHolders (w.mail wait).waits w.live s = waitHolders w.waits w.live s := by
    apply waitHolders_congr
    intro v _
    rw [WebWorld.mail]
    dsimp only
    rcases eq_or_ne v wait with rfl | other
    · rw [Function.update_self]
    · rw [Function.update_of_ne other]
  exact congrArg (fun n => entryHolders w.cache.entries (w.cache.kept ++ w.gone) s + n + homeHolds w.ending s) waits

theorem Standing.leave (standing : Standing hash w) {wait : Nat} (live : wait ∈ w.live) :
    Standing hash (w.leave wait) ∧ (w.leave wait).cache = w.cache := by
  obtain ⟨stored, counted, awaited⟩ := standing
  have awaited' := awaited.leave wait
  have less : ∀ s, w.holders s = entryHolders w.cache.entries (w.cache.kept ++ w.gone) s +
      waitHolders w.waits (w.live.erase wait) s + homeHolds w.ending s +
        if (w.waits wait).reply = some s then 1 else 0 := by
    intro s
    rw [holders, waitHolders_erase w.waits live]
    omega
  rw [WebWorld.leave] at awaited' ⊢
  split
  · next done =>
    rw [if_pos done] at awaited'
    refine ⟨⟨?_, ?_, awaited'⟩, rfl⟩
    · exact stored.frame rfl (List.Sublist.refl _) rfl fun _ _ => said_take said_put _ _ _
    · exact counted.take_put (fun s has => holders_wait live has) less
  · next waits =>
    rw [if_neg waits] at awaited'
    split
    · next i on =>
      rw [on] at awaited'
      refine ⟨⟨stored.frame rfl (List.Sublist.refl _) rfl fun _ _ => rfl, ?_, awaited'⟩, rfl⟩
      apply counted.congr
      intro s
      -- a wait on a run's list has no reply
      obtain ⟨under, here⟩ := awaited.listed wait live i on
      have none_ := (awaited.waits i under wait here).2.reply
      rw [less, none_, if_neg (by simp), Nat.add_zero]
      rfl
    · exact ⟨⟨stored, counted, awaited⟩, rfl⟩

theorem Standing.touch (standing : Standing hash w) {i : Nat} {record : WebRun}
    (waits : record.waits = (w.runs i).waits) (keep : record.keep = (w.runs i).keep)
    (received : i ∈ w.under → record.Received hash) :
    Standing hash { w with runs := Function.update w.runs i record } :=
  ⟨standing.stored.frame rfl (List.Sublist.refl _) rfl fun _ _ => rfl, standing.counted,
    standing.awaited.update waits keep received⟩

theorem Standing.give (standing : Standing hash w) {reply : Option Nat} {wait : Nat} {rest : List Nat}
    (ends : w.ending = some (reply, wait :: rest)) : Standing hash (w.give reply wait rest) := by
  obtain ⟨stored, counted, awaited⟩ := standing
  obtain ⟨live, pending⟩ := (awaited.ending reply _ ends).2 wait mem_cons_self
  refine ⟨?_, ?_, awaited.give ends⟩
  · exact stored.frame rfl (List.Sublist.refl _) rfl fun _ _ => said_take said_get _ _ _
  · apply counted.take_get
    · rintro s rfl
      exact holders_home ends
    · intro s
      have waits : waitHolders (w.give reply wait rest).waits w.live s =
          waitHolders w.waits w.live s + if reply = some s then 1 else 0 :=
        waitHolders_update w.waits awaited.live live _ pending.reply s
      rw [holders, holders, ends]
      change _ + waitHolders (w.give reply wait rest).waits w.live s + homeHolds (some (reply, rest)) s =
        _ + homeHolds (some (reply, wait :: rest)) s + _
      rw [waits]
      change entryHolders w.cache.entries (w.cache.kept ++ w.gone) s + _ + homeHolds (some (reply, rest)) s =
        _ + homeHolds (some (reply, rest)) s + _
      omega

theorem Standing.finish (standing : Standing hash w) {reply : Option Nat} (ends : w.ending = some (reply, [])) :
    Standing hash (w.finish reply) := by
  obtain ⟨stored, counted, awaited⟩ := standing
  refine ⟨?_, ?_, ?_⟩
  · exact stored.frame rfl (List.Sublist.refl _) rfl fun _ _ => said_take said_put _ _ _
  · apply counted.take_put
    · rintro s rfl
      exact holders_home ends
    · intro s
      rw [holders, ends]
      rfl
  · have idle : Awaited hash { w with ending := none } := { awaited with ending := (by simp) }
    exact idle.frame _ _ _ _ _

theorem Standing.free (standing : Standing hash w) {x : Nat} (gone : x ∈ w.gone) : Standing hash (w.free x) := by
  obtain ⟨stored, counted, awaited⟩ := standing
  refine ⟨?_, ?_, awaited.frame _ _ _ _ _⟩
  · exact stored.frame rfl erase_sublist rfl fun _ _ => said_put _ _ _
  · apply counted.put (holders_entry (mem_append_right _ gone))
    intro s
    have perm : (w.cache.kept ++ w.gone).Perm (x :: (w.cache.kept ++ w.gone.erase x)) :=
      ((perm_cons_erase gone).append_left _).trans perm_middle
    rw [holders, entryHolders_perm perm, entryHolders_cons]
    change _ = entryHolders w.cache.entries (w.cache.kept ++ w.gone.erase x) s + waitHolders w.waits w.live s +
      homeHolds w.ending s + _
    omega

/-! ## Runs -/

theorem Standing.create (hash : WebKey → Nat) (w : WebWorld) : Standing hash w.create where
  stored := Stored.create hash w
  counted := ⟨fun _ has => absurd rfl has, fun _ inside => absurd inside (Nat.not_lt_zero _),
    fun _ inside => absurd inside (Nat.not_lt_zero _)⟩
  awaited := Awaited.create w

theorem Standing.relieve (standing : Standing hash w) (level : BufPressure) (max now : Nat) :
    Standing hash (w.relieve level max now) := by
  obtain ⟨stored, holders⟩ := standing.stored.relieve level max now
  exact ⟨stored, standing.counted.congr holders, standing.awaited.frame _ _ _ _ _⟩

/-- Each step keeps what holds, and changes the stored responses as it may. -/
theorem Standing.step {event : WebEvent} (standing : Standing hash w) (step : WebStep hash w event w') :
    Standing hash w' ∧ Changes hash w event w' := by
  cases step with
  | ask key keep timeout now =>
    obtain ⟨standing', cache⟩ := standing.ask key keep timeout now
    exact ⟨standing', .same cache⟩
  | mail _ posted => exact ⟨standing.mail posted, .same rfl⟩
  | leave live =>
    obtain ⟨standing', cache⟩ := standing.leave live
    exact ⟨standing', .same cache⟩
  | @write i under data memory =>
    obtain ⟨waits, keep⟩ := (w.runs i).write_same data memory
    refine ⟨standing.touch waits keep fun _ => ?_, .same rfl⟩
    exact (standing.awaited.received i under).write data memory
  | @late i under =>
    refine ⟨standing.touch rfl rfl fun _ => ?_, .same rfl⟩
    have received := standing.awaited.received i under
    exact ⟨received.hashed, received.most, nofun⟩
  | @done i under idle result status retry type error strerror clock memory =>
    obtain ⟨standing', same | ⟨stores, dropped, rest, enters, said⟩⟩ := standing.runEnd under idle
      ((w.runs i).done result status retry type error strerror) clock memory
    · exact ⟨standing', .same same⟩
    · obtain ⟨keep, fault, rfl, least, below, body⟩ := stores_done stores
      have received := standing.awaited.received i under
      have given := received.whole fault
      refine ⟨standing', .enters keep fault least below ?_ ?_ enters⟩
      · rw [← given, ← body]
        exact WebReply.body_of_said said
      · rw [← given]
        exact received.most
  | @fails i under idle e error clock memory =>
    obtain ⟨standing', same | ⟨stores, -⟩⟩ := standing.runEnd under idle { error := error, e := some e } clock memory
    · exact ⟨standing', .same same⟩
    · exact nomatch stores_fails.symm.trans stores
  | give ends => exact ⟨standing.give ends, .same rfl⟩
  | finish ends => exact ⟨standing.finish ends, .same rfl⟩
  | free gone => exact ⟨standing.free gone, .same rfl⟩
  | relieve level max now =>
    obtain ⟨dropped, relieves⟩ := standing.stored.sound.relieve level max now 0 []
    exact ⟨standing.relieve level max now, .leaves relieves⟩

/-- The parts of what holds of the stored responses and the replies in every state, and how the next step
changes the stored responses. -/
theorem stored_responses {start : WebWorld} {events : List WebEvent}
    (trace : Trace (WebStep hash) start.create events w) : w.cache.Sound hash w.entryBytes ∧
      (∀ x ∈ w.cache.kept, (w.cache.entries x).Whole (w.replies (w.cache.entries x).reply)) ∧
      (∀ r < w.nReplies, (w.replies r).freed = true ↔ (∀ x ∈ w.cache.kept ++ w.gone, (w.cache.entries x).reply ≠ r) ∧
          (∀ v ∈ w.live, (w.waits v).reply ≠ some r) ∧ ∀ rest, w.ending ≠ some (some r, rest)) ∧
      ∀ event w', WebStep hash w event w' → Changes hash w event w' := by
  have keeps : ∀ v event v', Standing hash v → WebStep hash v event v' → Standing hash v' :=
    fun _ _ _ standing step => (standing.step step).1
  have standing := trace.invariant (Standing.create hash start) keeps
  refine ⟨standing.stored.sound, standing.stored.whole, ?_, fun _ _ step => (standing.step step).2⟩
  intro r made
  rw [standing.counted.freed r made]
  constructor
  · intro none_
    refine ⟨?_, ?_, ?_⟩
    · rintro x inside rfl
      exact holders_entry inside none_
    · exact fun v live has => holders_wait live has none_
    · exact fun rest ends => holders_home ends none_
  · rintro ⟨entries, waits, home⟩
    have entries' : entryHolders w.cache.entries (w.cache.kept ++ w.gone) r = 0 :=
      countP_eq_zero.mpr fun x inside has => entries x inside (of_decide_eq_true has)
    have waits' : waitHolders w.waits w.live r = 0 :=
      countP_eq_zero.mpr fun v live has => waits v live (of_decide_eq_true has)
    have home' : homeHolds w.ending r = 0 := by
      rw [homeHolds]
      apply if_neg
      intro has
      obtain ⟨⟨reply, rest⟩, ends, rfl⟩ := Option.bind_eq_some_iff.mp has
      exact home rest ends
    rw [holders, entries', waits', home']

/-- The key of a request without a URL, lines or a body. -/
def bareKey : WebKey :=
  { max := 4, url := 0, body := 0, lines := 0, nLines := 0, post := false, data := [nul, nul], sized := rfl }

/-- Memory in which nothing was made. -/
def bareWorld : WebWorld :=
  { cache :=
      { entries := fun _ => { node := {}, reply := 0, expires := 0, key := bareKey }
        table := { mask := 0 }
        kept := []
        bytes := 0 }
    replies := fun _ => {}
    runs := fun _ => { key := bareKey, hash := 0, keep := 0, most := 0, timeout := 0 }
    waits := fun _ => {} }

/-- The service after a request was made in it, and after the answer came. -/
def askedWorld : WebWorld :=
  (bareWorld.create.ask (fun _ => 7) bareKey 1 1 0).1

def answeredWorld : WebWorld :=
  askedWorld.runEnd 0 ((askedWorld.runs 0).done .ok 200 0 [] [] []) 0 (true, true)

/-- A request that is answered, and whose answer is stored. -/
theorem stored_responses_one : Trace (WebStep fun _ => 7) bareWorld.create [.other, .done 0 .ok 200] answeredWorld ∧
      answeredWorld.cache.kept = [0] ∧
      (answeredWorld.cache.entries 0).Whole (answeredWorld.replies (answeredWorld.cache.entries 0).reply) := by
  have asked : WebStep (fun _ => 7) bareWorld.create .other askedWorld := .ask bareKey 1 1 0
  have answered : WebStep (fun _ => 7) askedWorld (.done 0 .ok 200) answeredWorld :=
    .done (by decide) rfl .ok 200 0 [] [] [] 0 (true, true)
  have trace := (Trace.nil.snoc asked).snoc answered
  have kept : answeredWorld.cache.kept = [0] := by decide +kernel
  refine ⟨trace, kept, ?_⟩
  apply (stored_responses trace).2.1
  rw [kept]
  exact mem_cons_self

end WebWorld

end Askai
