import Askai.Journal.Space

/-!
# Reading the journal back

A checkpoint that was written is read back as it is, and what the legacy WAL says of a job is never
unsaid by its later records.
-/

namespace Askai

open Library List

variable {I : Type} [DecidableEq I]

/-! ## Bytes -/

omit [DecidableEq I] in
@[simp]
theorem diskBytes_append (front back : List (JournalRecord I)) :
    diskBytes (front ++ back) = diskBytes front + diskBytes back := by
  simp [diskBytes]

omit [DecidableEq I] in
theorem memoryBytes_append (front back : List (JournalRecord I)) :
    memoryBytes (front ++ back) = memoryBytes front + memoryBytes back := by
  simp [memoryBytes]

omit [DecidableEq I] in
theorem memoryBytes_cons (r : JournalRecord I) (records : List (JournalRecord I)) :
    memoryBytes (r :: records) = journalRecordSize + r.data.length + memoryBytes records := by
  simp [memoryBytes]

omit [DecidableEq I] in
/-- A record takes less in memory than on disk. -/
theorem memoryBytes_le (records : List (JournalRecord I)) : memoryBytes records ≤ diskBytes records := by
  induction records with
  | nil => exact le_rfl
  | cons r records ih =>
    have disk : diskBytes (r :: records) = journalHeader + r.data.length + diskBytes records := by
      simp [diskBytes]
    rw [memoryBytes_cons, disk]
    simp only [journalRecordSize, journalHeader]
    omega

omit [DecidableEq I] in
theorem diskBytes_pos {records : List (JournalRecord I)} (filled : records ≠ []) : 0 < diskBytes records := by
  cases records with
  | nil => exact absurd rfl filled
  | cons r records => simp [diskBytes, journalHeader]

omit [DecidableEq I] in
theorem memoryBytes_drop (records : List (JournalRecord I)) (kinds : JournalKind → Bool) :
    memoryBytes records = memoryBytes (journalRecordsDrop records kinds).1 + (journalRecordsDrop records kinds).2 := by
  induction records with
  | nil => rfl
  | cons r records ih =>
    simp only [journalRecordsDrop] at ih ⊢
    cases may : kinds r.kind <;>
      simp only [filter_cons, may, Bool.not_true, Bool.not_false, Bool.false_eq_true, if_true,
        if_false, memoryBytes_cons] <;> omega

/-! ## A checkpoint -/

omit [DecidableEq I] in
@[simp]
theorem records_journalFrames (records : List (JournalRecord I)) :
    JournalFile.records (journalFrames records) = records := by
  apply ext_getElem
  · simp [JournalFile.records, journalFrames]
  · intro n _ _
    simp [JournalFile.records, journalFrames]

@[simp]
theorem due_none : due none = none := rfl

/-- Records numbered on from `n` are read as they are, if they fit in. -/
theorem readFrames_numbered {id : I} (records : List (JournalRecord I))
    (own : ∀ r ∈ records, r.id = id ∧ r.kind ≠ .other ∧ r.data.length ≤ journalRecordMax) :
    ∀ (n bytes : Nat) (out : List (JournalRecord I)), bytes + memoryBytes records ≤ journalLoadMax →
      readFrames id false (records.mapIdx fun k record => { sequence := n + k + 1, record }) none n bytes out =
          (none, out ++ records) := by
  induction records with
  | nil =>
    intro n bytes out _
    simp [readFrames]
  | cons r records ih =>
    intro n bytes out fits
    obtain ⟨mine, kind, short⟩ := own r mem_cons_self
    rw [memoryBytes_cons] at fits
    have rest := ih (fun s member => own s (mem_cons_of_mem _ member)) (n + 1)
      (bytes + (journalRecordSize + r.data.length)) (out ++ [r]) (by omega)
    have shifted : (fun k record => ({ sequence := n + (k + 1) + 1, record } : JournalFrame I)) =
        fun k record => { sequence := n + 1 + k + 1, record } := by
      funext k record
      congr 2
      omega
    have room : ¬journalLoadMax - bytes < journalRecordSize + r.data.length := by omega
    have dropped : journalRecordsDrop out (fun _ => false) = (out, 0) := by
      simp [journalRecordsDrop, memoryBytes]
    have frame : readFrame id false ⟨n + 1, r⟩ n bytes out =
        .ok (bytes + (journalRecordSize + r.data.length), out ++ [r]) := by
      simp only [readFrame, not_lt.mpr short, mine, kind, ne_eq, not_true_eq_false, decide_false,
        Bool.or_self, if_false, Bool.false_and, dropped, Nat.sub_zero, room, Bool.false_eq_true]
    rw [mapIdx_cons, readFrames, Nat.add_zero, frame]
    simp only [due_none, Option.map_none, shifted, rest, append_assoc, singleton_append]

/-- A checkpoint that was written is read back whole. -/
theorem Readable.read {id : I} {file : JournalFile I} (readable : Readable id file) :
    journalRecordsRead file id false none = (none, file.records) := by
  have fits := (memoryBytes_le file.records).trans readable.fits
  have whole := readFrames_numbered file.records readable.own 0 0 [] (by omega)
  have frames : (file.records.mapIdx fun k record =>
      ({ sequence := 0 + k + 1, record } : JournalFrame I)) = file := by
    rw [readable.numbered, records_journalFrames, journalFrames]
    simp
  rw [frames] at whole
  exact whole

variable {legacy : Bool} {frame : JournalFrame I} {out out' : List (JournalRecord I)}

/-- A read that meets no fault is the read without one. -/
theorem readFrames_of_ok {id : I} (frames : JournalFile I) :
    ∀ (fault : Option (Nat × JournalErrno)) (n bytes : Nat) (out : List (JournalRecord I)),
      (readFrames id legacy frames fault n bytes out).1 = none → readFrames id legacy frames fault n bytes out =
          readFrames id legacy frames none n bytes out := by
  induction frames with
  | nil =>
    intro fault n bytes out ok
    simp only [readFrames] at ok ⊢
    rw [ok, due_none]
  | cons frame frames ih =>
    intro fault n bytes out ok
    simp only [readFrames, due_none, Option.map_none] at ok ⊢
    cases fails : due fault with
    | some e => simp [fails] at ok
    | none =>
      rw [fails] at ok
      cases read : readFrame id legacy frame n bytes out with
      | error _ => rfl
      | ok next =>
        rw [read] at ok
        exact ih _ _ _ _ ok

/-! ## What the records read are -/

/-- A read adds a record of the job at most, and takes others away only for it. -/
theorem readFrame_ok {id : I} {n bytes bytes' : Nat}
    (read : readFrame id legacy frame n bytes out = .ok (bytes', out')) :
    (bytes', out') = (bytes, out) ∨ (frame.record.id = id ∧ frame.record.kind ≠ .other ∧
          frame.record.data.length ≤ journalRecordMax) ∧
        ∃ kinds, out' = (journalRecordsDrop out kinds).1 ++ [frame.record] ∧
          bytes' = bytes - (journalRecordsDrop out kinds).2 + (journalRecordSize + frame.record.data.length) := by
  simp only [readFrame] at read
  split at read
  · cases read
  rename_i framed
  split at read
  · exact .inl (Except.ok.inj read).symm
  rename_i mine
  split at read
  · cases read
  simp only [Bool.or_eq_true, decide_eq_true_eq, not_or, not_lt, not_not] at framed mine
  obtain ⟨rfl, rfl⟩ := Prod.mk.inj (Except.ok.inj read)
  exact .inr ⟨⟨mine.1, mine.2, framed.1⟩, _, rfl, rfl⟩

/-- What an error leaves is not more than was read. -/
theorem readFrame_error {id : I} {n bytes : Nat} {e : JournalErrno}
    (read : readFrame id legacy frame n bytes out = .error (e, out')) :
    out' = out ∨ ∃ kinds, out' = (journalRecordsDrop out kinds).1 ∧
      journalLoadMax - (bytes - (journalRecordsDrop out kinds).2) < journalRecordSize + frame.record.data.length ∧
      frame.record.data.length ≤ journalRecordMax := by
  simp only [readFrame] at read
  split at read
  · exact .inl (Prod.mk.inj (Except.error.inj read)).2.symm
  rename_i framed
  split at read
  · cases read
  split at read
  · rename_i large
    simp only [Bool.or_eq_true, decide_eq_true_eq, not_or, not_lt] at framed
    exact .inr ⟨_, (Prod.mk.inj (Except.error.inj read)).2.symm, large, framed.1⟩
  · cases read

/-- Every record read is one of the job's checkpoint kinds. -/
theorem readFrames_own {id : I} {legacy : Bool} (frames : JournalFile I) :
    ∀ (fault : Option (Nat × JournalErrno)) (n bytes : Nat) (out : List (JournalRecord I)),
      (∀ r ∈ out, r.id = id ∧ r.kind ≠ .other ∧ r.data.length ≤ journalRecordMax) →
        ∀ r ∈ (readFrames id legacy frames fault n bytes out).2,
          r.id = id ∧ r.kind ≠ .other ∧ r.data.length ≤ journalRecordMax := by
  have dropped : ∀ (out : List (JournalRecord I)) kinds, ∀ r ∈ (journalRecordsDrop out kinds).1,
      r ∈ out := fun out kinds r member => mem_of_mem_filter member
  induction frames with
  | nil =>
    intro fault n bytes out own
    simpa only [readFrames] using own
  | cons frame frames ih =>
    intro fault n bytes out own
    rw [readFrames]
    cases due fault with
    | some e => exact own
    | none =>
      cases read : readFrame id legacy frame n bytes out with
      | error left =>
        obtain ⟨e, out'⟩ := left
        intro r member
        rcases readFrame_error read with rfl | ⟨kinds, rfl, -⟩
        · exact own r member
        · exact own r (dropped out kinds r member)
      | ok next =>
        obtain ⟨bytes', out'⟩ := next
        apply ih
        intro r member
        rcases readFrame_ok read with same | ⟨mine, kinds, rfl, -⟩
        · rw [(Prod.mk.inj same).2] at member
          exact own r member
        · rcases mem_append.mp member with old | new
          · exact own r (dropped out kinds r old)
          · rw [mem_singleton.mp new]
            exact mine

/-- The bytes so far stay those of the records so far, of which some stay once there are some. -/
theorem readFrame_memoryBytes {id : I} {n bytes' : Nat}
    (read : readFrame id legacy frame n (memoryBytes out) out = .ok (bytes', out')) :
    bytes' = memoryBytes out' ∧ (out ≠ [] → out' ≠ []) := by
  rcases readFrame_ok read with same | ⟨mine, kinds, rfl, rfl⟩
  · obtain ⟨rfl, rfl⟩ := Prod.mk.inj same
    exact ⟨rfl, fun some_ => some_⟩
  · have bytes := memoryBytes_drop out kinds
    have last : memoryBytes [frame.record] = journalRecordSize + frame.record.data.length := by
      simp [memoryBytes]
    refine ⟨?_, fun _ => by simp⟩
    rw [memoryBytes_append, last]
    omega

/-- Once a record of the job was read, some record stays to the end. -/
theorem readFrames_ne_nil {id : I} (frames : JournalFile I) : ∀ (n : Nat) (out : List (JournalRecord I)), out ≠ [] →
      (readFrames id legacy frames none n (memoryBytes out) out).2 ≠ [] := by
  induction frames with
  | nil =>
    intro n out some_
    simpa only [readFrames] using some_
  | cons frame frames ih =>
    intro n out some_
    rw [readFrames, due_none]
    cases read : readFrame id legacy frame n (memoryBytes out) out with
    | error left =>
      obtain ⟨e, out'⟩ := left
      rcases readFrame_error read with rfl | ⟨kinds, rfl, large, short⟩
      · exact some_
      · -- a record that replaces all is not too large
        intro none_left
        have bytes := memoryBytes_drop out kinds
        have gone : (journalRecordsDrop out kinds).1 = [] := none_left
        have empty : memoryBytes ([] : List (JournalRecord I)) = 0 := rfl
        rw [gone, empty] at bytes
        simp only [journalLoadMax, journalRecordSize, journalRecordMax] at large short
        omega
    | ok next =>
      obtain ⟨bytes', out'⟩ := next
      obtain ⟨rfl, stays⟩ := readFrame_memoryBytes read
      exact ih _ _ (stays some_)

/-- Where a whole read finds nothing of the job, one that a fault cuts short does not either. -/
theorem readFrames_nil {id : I} (frames : JournalFile I) :
    ∀ (fault : Option (Nat × JournalErrno)) (n : Nat) (out : List (JournalRecord I)),
      (readFrames id legacy frames none n (memoryBytes out) out).2 = [] →
        (readFrames id legacy frames fault n (memoryBytes out) out).2 = [] := by
  induction frames with
  | nil =>
    intro fault n out nothing
    simpa only [readFrames] using nothing
  | cons frame frames ih =>
    intro fault n out nothing
    have empty : out = [] := by
      by_contra some_
      exact readFrames_ne_nil _ n out some_ nothing
    rw [readFrames] at nothing ⊢
    cases due fault with
    | some e => exact empty
    | none =>
      rw [due_none] at nothing
      cases read : readFrame id legacy frame n (memoryBytes out) out with
      | error left =>
        rw [read] at nothing
        exact nothing
      | ok next =>
        obtain ⟨bytes', out'⟩ := next
        obtain ⟨rfl, -⟩ := readFrame_memoryBytes read
        rw [read] at nothing
        exact ih _ _ _ nothing

/-- A record of a checkpoint is added to those so far, or is not read. -/
theorem readFrame_whole {id : I} (own : frame.record.id = id)
    (known : frame.record.kind ≠ .other) (n bytes : Nat) (out : List (JournalRecord I)) :
    (∃ e, readFrame id false frame n bytes out = .error (e, out)) ∨
      ∃ bytes', readFrame id false frame n bytes out = .ok (bytes', out ++ [frame.record]) := by
  have kept : journalRecordsDrop out (fun _ => false) = (out, 0) := by
    simp [journalRecordsDrop, memoryBytes]
  simp only [readFrame, own, known, Bool.false_and, kept, ne_eq, not_true_eq_false, decide_false,
    Bool.or_self, Bool.false_eq_true, if_false]
  split
  · exact .inl ⟨_, rfl⟩
  · split
    · exact .inl ⟨_, rfl⟩
    · exact .inr ⟨_, rfl⟩

/-- A read of a checkpoint gives its records, up to where it stops. -/
theorem readFrames_isPrefix {id : I} (frames : JournalFile I) :
    ∀ (fault : Option (Nat × JournalErrno)) (n bytes : Nat) (out : List (JournalRecord I)),
      (∀ frame ∈ frames, frame.record.id = id ∧ frame.record.kind ≠ .other) →
        (readFrames id false frames fault n bytes out).2 <+: out ++ JournalFile.records frames := by
  induction frames with
  | nil =>
    intro fault n bytes out _
    simp [readFrames, JournalFile.records]
  | cons frame frames ih =>
    intro fault n bytes out own
    have stops : out <+: out ++ JournalFile.records (frame :: frames) := prefix_append ..
    obtain ⟨mine, known⟩ := own frame mem_cons_self
    rw [readFrames]
    cases due fault with
    | some e => exact stops
    | none =>
      rcases readFrame_whole mine known n bytes out with ⟨e, fails⟩ | ⟨bytes', read⟩
      · rw [fails]
        exact stops
      · rw [read]
        have split : out ++ JournalFile.records (frame :: frames) = out ++ [frame.record] ++ JournalFile.records frames := by
          simp [JournalFile.records]
        rw [split]
        exact ih _ _ _ _ fun other member => own other (mem_cons_of_mem _ member)

/-- A fault that comes a file later is of the same kind. -/
theorem fault_later {fault : Option (Nat × JournalErrno)} (present : ∀ m, fault ≠ some (m, .enoent)) (m : Nat) :
    (fault.map fun (n, e) => (n - 1, e)) ≠ some (m, .enoent) := by
  intro same
  obtain ⟨⟨l, e⟩, rfl, apart⟩ := Option.map_eq_some_iff.mp same
  obtain rfl := (Prod.mk.inj apart).2
  exact present l rfl

/-- No read finds a file that is open missing. -/
theorem readFrames_ne_enoent {id : I} (frames : JournalFile I) :
    ∀ (fault : Option (Nat × JournalErrno)) (n bytes : Nat) (out : List (JournalRecord I)),
      (∀ m, fault ≠ some (m, .enoent)) → (readFrames id legacy frames fault n bytes out).1 ≠ some .enoent := by
  have later : ∀ fault : Option (Nat × JournalErrno), (∀ m, fault ≠ some (m, .enoent)) → due fault ≠ some .enoent := by
    intro fault present fails
    obtain ⟨⟨m, e⟩, rfl, same⟩ := Option.bind_eq_some_iff.mp fails
    simp only [Option.ite_none_right_eq_some, Option.some.injEq] at same
    exact present m (by rw [same.2])
  induction frames with
  | nil =>
    intro fault n bytes out present
    rw [readFrames]
    exact later fault present
  | cons frame frames ih =>
    intro fault n bytes out present
    have clear := later fault present
    rw [readFrames]
    cases fails : due fault with
    | some e =>
      rw [fails] at clear
      exact clear
    | none =>
      cases read : readFrame id legacy frame n bytes out with
      | ok next_bytes => exact ih _ _ _ _ (fault_later present)
      | error left =>
        simp only [readFrame] at read
        split at read
        · cases read
          simp
        · split at read
          · cases read
          · split at read
            · cases read
              simp
            · cases read

end Askai
