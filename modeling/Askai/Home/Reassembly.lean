import Askai.Home.Puts
import Askai.Library.Trace

/-!
# Reassembled tool calls

However the pieces of a job's tool calls come interleaved, each call is stored with what its own pieces
give, in the order in which the calls first appear.
-/

namespace Askai

open Library CallJob List

/-! ## Calls and their pieces -/

/-- The indices of the pieces, in the order in which they first appear. -/
def firsts (ps : List AiCall) : List UInt32 :=
  ps.foldl (fun l p => if p.index ∈ l then l else l ++ [p.index]) []

/-- A part that comes in pieces: each gives more of it, but for one that repeats what there is. -/
def gathered (parts : List Bytes) : Bytes :=
  parts.foldl (fun stored part => stored ++ unlessStored stored part) []

/-- What the pieces with an index give together. -/
def merged (i : UInt32) (ps : List AiCall) : AiCall :=
  let own := ps.filter fun p => decide (p.index = i)
  { index := i
    id := gathered (own.map AiCall.id)
    name := gathered (own.map AiCall.name)
    extra := gathered (own.map AiCall.extra)
    args := own.flatMap AiCall.args }

variable {ps : List AiCall} {p : AiCall} {i : UInt32}

theorem firsts_snoc (ps : List AiCall) (p : AiCall) : firsts (ps ++ [p]) =
    if p.index ∈ firsts ps then firsts ps else firsts ps ++ [p.index] := by
  rw [firsts, foldl_append]
  rfl

theorem mem_firsts : i ∈ firsts ps ↔ ∃ p ∈ ps, p.index = i := by
  induction ps using List.reverseRecOn with
  | nil => simp [firsts]
  | append_singleton ps q ih =>
    rw [firsts_snoc]
    simp only [mem_append, mem_singleton, or_and_right, exists_or, ← ih, exists_eq_left]
    split
    · next known =>
        constructor
        · exact .inl
        · rintro (mem | rfl)
          · exact mem
          · exact known
    · rw [mem_append, mem_singleton, eq_comm]

theorem firsts_nodup (ps : List AiCall) : (firsts ps).Nodup := by
  induction ps using List.reverseRecOn with
  | nil => exact nodup_nil
  | append_singleton ps q ih =>
    rw [firsts_snoc]
    split
    · exact ih
    · next new =>
        rw [nodup_append_comm, singleton_append, nodup_cons]
        exact ⟨new, ih⟩

theorem gathered_snoc (parts : List Bytes) (part : Bytes) :
    gathered (parts ++ [part]) = gathered parts ++ unlessStored (gathered parts) part := by
  rw [gathered, foldl_append]
  rfl

theorem gathered_nil (parts : List Bytes) (none_ : ∀ part ∈ parts, part = []) : gathered parts = [] := by
  induction parts using List.reverseRecOn with
  | nil => rfl
  | append_singleton parts part ih =>
    rw [gathered_snoc, none_ part (by simp), unlessStored_nil, append_nil]
    exact ih fun part mem => none_ part (mem_append_left _ mem)

/-- A part that every piece repeats is there once. -/
theorem gathered_once {parts : List Bytes} {x : Bytes} (same : ∀ part ∈ parts, part = [] ∨ part = x)
    (some_ : x ∈ parts) : gathered parts = x := by
  induction parts using List.reverseRecOn with
  | nil => cases some_
  | append_singleton parts part ih =>
    have before : ∀ part ∈ parts, part = [] ∨ part = x :=
      fun part mem => same part (mem_append_left _ mem)
    rw [gathered_snoc]
    by_cases early : x ∈ parts
    · rw [ih before early]
      rcases same part (by simp) with rfl | rfl
      · rw [unlessStored_nil, append_nil]
      · rw [unlessStored, if_pos rfl, append_nil]
    · obtain rfl : x = part := by
        rcases mem_append.mp some_ with mem | mem
        · exact absurd mem early
        · exact mem_singleton.mp mem
      rw [gathered_nil parts, unlessStored_empty, nil_append]
      intro part mem
      rcases before part mem with none_ | rfl
      · exact none_
      · exact absurd mem early

theorem merged_snoc_self (ps : List AiCall) (p : AiCall) : merged p.index (ps ++ [p]) = (merged p.index ps).add p := by
  simp only [merged, filter_append, filter_singleton, decide_true, cond_true,
    map_append, map_singleton, gathered_snoc, flatMap_append, flatMap_singleton]
  rfl

theorem merged_snoc_of_ne (other : p.index ≠ i) : merged i (ps ++ [p]) = merged i ps := by
  simp only [merged, filter_append, filter_singleton, decide_eq_false other, cond_false, append_nil]

theorem merged_of_not_mem (none_ : i ∉ firsts ps) : merged i ps = { index := i } := by
  have own : ps.filter (fun p => decide (p.index = i)) = [] := by
    rw [filter_eq_nil_iff]
    intro p mem
    rw [decide_eq_true_iff]
    exact fun same => none_ (mem_firsts.mpr ⟨p, mem, same⟩)
  rw [merged, own]
  rfl

/-- The extra of a call comes once. -/
theorem extra_snoc (once : ∀ q ∈ ps, q.extra = [] ∨ q.extra = (merged q.index ps).extra)
    (order : unlessStored (merged p.index ps).extra p.extra ≠ [] → (merged p.index ps).extra = []) :
    ∀ q ∈ ps ++ [p], q.extra = [] ∨ q.extra = (merged q.index (ps ++ [p])).extra := by
  have here : (merged p.index (ps ++ [p])).extra =
      (merged p.index ps).extra ++ unlessStored (merged p.index ps).extra p.extra := by
    rw [merged_snoc_self]
    rfl
  intro q mem
  by_cases other : p.index ≠ q.index
  · rcases mem_append.mp mem with mem | mem
    · rw [merged_snoc_of_ne other]
      exact once q mem
    · rw [mem_singleton.mp mem] at other
      exact absurd rfl other
  push Not at other
  rw [← other, here]
  rcases eq_or_ne (unlessStored (merged p.index ps).extra p.extra) [] with none_ | new
  · rw [none_, append_nil]
    rcases mem_append.mp mem with mem | mem
    · rw [other]
      exact once q mem
    · rw [mem_singleton.mp mem]
      rw [unlessStored] at none_
      split at none_
      · next same => exact .inr same.symm
      · exact .inl none_
  · rw [order new, unlessStored_empty, nil_append]
    rcases mem_append.mp mem with mem | mem
    · refine .inl ((once q mem).elim id fun same => ?_)
      rw [same, ← other]
      exact order new
    · rw [mem_singleton.mp mem]
      exact .inr rfl

/-! ## The stored calls -/

namespace CallJob

/-- A piece that is not refused. -/
def Takes (job : CallJob) (q : CallShare × AiCall) (job' : CallJob) : Prop :=
  job.putCall q.1 q.2 = (job', .ok ())

/-- Any piece, also one that is refused. -/
def Tries (job : CallJob) (q : CallShare × AiCall) (job' : CallJob) : Prop :=
  (job.putCall q.1 q.2).1 = job'

/-- No call is stored. -/
def Blank (job : CallJob) : Prop :=
  ∀ k, (job.calls k).bytes = []

/-- The stored calls are those of the pieces, in the order in which they first appear. -/
structure Assembled (ps : List AiCall) (l : List ToolCall) : Prop where
  calls : l.map ToolCall.call = (firsts ps).map fun i => merged i ps
  extra : ∀ p ∈ ps, p.extra = [] ∨ p.extra = (merged p.index ps).extra

variable {l l' : List ToolCall} {share : CallShare} {job job' : CallJob}

theorem Assembled.start : Assembled [] [] where
  calls := rfl
  extra := nofun

/-- The stored call in a buffer is what the pieces of one index give. -/
theorem Assembled.at_ (assembled : Assembled ps l) {k : Nat} {t : ToolCall} (here : l[k]? = some t) :
    (firsts ps)[k]? = some t.call.index ∧ t.call = merged t.call.index ps := by
  have calls := congrArg (·[k]?) assembled.calls
  simp only [List.getElem?_map, here, Option.map_some] at calls
  obtain ⟨i, first, same⟩ := Option.map_eq_some_iff.mp calls.symm
  have index : t.call.index = i := by
    rw [← same]
    rfl
  rw [index]
  exact ⟨first, same.symm⟩

/-- A piece more, which no check refused. -/
theorem Assembled.put (assembled : Assembled ps l) (explicit : p.index ≠ aiCallNext)
    (put : Put l share p l') : Assembled (ps ++ [p]) l' := by
  cases put with
  | @goes k t here goes ordered =>
    rw [Goes, if_neg explicit] at goes
    obtain ⟨first, same⟩ := assembled.at_ here
    rw [goes] at first same
    have known : p.index ∈ firsts ps := mem_of_getElem? first
    refine ⟨?_, extra_snoc assembled.extra ?_⟩
    · rw [firsts_snoc, if_pos known, map_set, assembled.calls]
      apply ext_getElem?
      intro j
      rw [List.getElem?_map]
      rcases eq_or_ne k j with rfl | other
      · obtain ⟨inside, -⟩ := List.getElem?_eq_some_iff.mp first
        rw [List.getElem?_set_self (by rw [length_map]; exact inside), first]
        change some (t.call.add p) = some (merged p.index (ps ++ [p]))
        rw [same, merged_snoc_self]
      · rw [List.getElem?_set_ne other, List.getElem?_map]
        cases there : (firsts ps)[j]? with
        | none => rfl
        | some i =>
          have distinct : p.index ≠ i := by
            rintro rfl
            obtain ⟨inside, -⟩ := List.getElem?_eq_some_iff.mp first
            exact other ((List.getElem?_inj inside (firsts_nodup ps)).mp (first.trans there.symm))
          rw [Option.map_some, Option.map_some, merged_snoc_of_ne distinct]
    · rw [← same]
      exact fun new => (ordered.2 (.inr new)).1
  | begins begins =>
    have new : p.index ∉ firsts ps := by
      intro known
      obtain ⟨k, first⟩ := mem_iff_getElem?.mp known
      have calls := congrArg (·[k]?) assembled.calls
      simp only [List.getElem?_map, first, Option.map_some] at calls
      obtain ⟨t, here, same⟩ := Option.map_eq_some_iff.mp calls
      apply begins k t here
      rw [Goes, if_neg explicit, same]
      rfl
    have blank := merged_of_not_mem new
    refine ⟨?_, extra_snoc assembled.extra ?_⟩
    · rw [firsts_snoc, if_neg new, map_append, map_append, assembled.calls]
      congr 1
      · apply map_congr_left
        intro i mem
        rw [merged_snoc_of_ne]
        rintro rfl
        exact new mem
      · rw [map_singleton, map_singleton, merged_snoc_self, blank, begun, if_neg explicit]
        rfl
    · rw [blank]
      exact fun _ => rfl

/-! ## Runs -/

variable {es : List (CallShare × AiCall)} {q : CallShare × AiCall}

theorem Blank.keeps (blank : job.Blank) : Keeps job [] where
  stored := nofun
  rest := fun k _ => blank k
  few := Nat.zero_le _
  small := Nat.zero_le _
  named := nofun

/-- A piece that is taken is put. -/
theorem Keeps.takes (keeps : Keeps job l) (tools : job.tools = true) (takes : job.Takes q job') :
    job'.tools = true ∧ ∃ l', Keeps job' l' ∧ Put l q.1 q.2 l' := by
  rcases @Keeps.put job q.1 q.2 l keeps tools with ⟨e, refused⟩ | ⟨_, l', taken, tools', keeps', put⟩
  · cases takes.symm.trans refused
  · cases takes.symm.trans taken
    exact ⟨tools', l', keeps', put⟩

/-- What is refused of the end of `home_put_call` changes nothing. -/
theorem append_refused {bytes k head : Nat} {c : JobCall} {piece : AiCall} {e : CallError} :
    (job.append share bytes k head c piece).2 = .error e → (job.append share bytes k head c piece).1 = job := by
  rw [append]
  dsimp only
  split
  · exact fun _ => rfl
  split
  · exact fun _ => rfl
  split
  · exact fun _ => rfl
  split
  · exact fun _ => rfl
  · simp

/-- A piece that is refused changes nothing. -/
theorem refused_same {e : CallError} : (job.putCall share p).2 = .error e → (job.putCall share p).1 = job := by
  rw [putCall]
  dsimp only
  split_ifs <;> first | exact append_refused | exact fun _ => rfl

/-- Whatever pieces come, the buffers hold calls. -/
theorem keeps_of_tries (blank : job.Blank) (tools : job.tools = true)
    (trace : Trace Tries job es job') : job'.tools = true ∧ ∃ l, Keeps job' l := by
  apply trace.invariant
  · exact ⟨tools, [], blank.keeps⟩
  · rintro job q job' ⟨tools, l, keeps⟩ rfl
    rcases @Keeps.put job q.1 q.2 l keeps tools with ⟨e, refused⟩ | ⟨_, l', taken, tools', keeps', -⟩
    · rw [refused]
      exact ⟨tools, l, keeps⟩
    · rw [taken]
      exact ⟨tools', l', keeps'⟩

/-- Pieces with an index, none of which is refused, are assembled. -/
theorem assembled_of_takes (blank : job.Blank) (tools : job.tools = true)
    (trace : Trace Takes job es job') (explicit : ∀ q ∈ es, q.2.index ≠ aiCallNext) :
    job'.tools = true ∧ ∃ l, Keeps job' l ∧ Assembled (es.map Prod.snd) l := by
  induction trace with
  | nil => exact ⟨tools, [], blank.keeps, .start⟩
  | snoc _ last ih =>
    obtain ⟨tools', l, keeps, assembled⟩ := ih fun q mem => explicit q (mem_append_left _ mem)
    obtain ⟨tools'', l', keeps', put⟩ := keeps.takes tools' last
    refine ⟨tools'', l', keeps', ?_⟩
    rw [map_append, map_singleton]
    exact assembled.put (explicit _ (by simp)) put

/-- What all calls together have. -/
theorem Keeps.total (keeps : Keeps job l) : ∑ k ∈ Finset.range jobCalls, (job.calls k).bytes.length = size l := by
  have some_ : ∀ front back, l = front ++ back →
      ∑ k ∈ Finset.range front.length, (job.calls k).bytes.length = size front := by
    intro front
    induction front using List.reverseRecOn with
    | nil => exact fun _ _ => rfl
    | append_singleton front t ih =>
      intro back whole
      have here : l[front.length]? = some t := by
        rw [whole, append_assoc, List.getElem?_append_right (Nat.le_refl _), Nat.sub_self]
        rfl
      rw [length_append, length_singleton, Finset.sum_range_succ,
        ih ([t] ++ back) (by rw [whole, append_assoc]), keeps.stored _ _ here]
      simp [size]
  rw [← some_ l [] (append_nil l).symm]
  symm
  apply Finset.sum_subset (Finset.range_subset_range.mpr keeps.few)
  intro k _ behind
  rw [Finset.mem_range, Nat.not_lt] at behind
  rw [keeps.rest k behind]
  rfl

/-- What is read in a buffer of a stored call is the call. -/
theorem Keeps.parts (keeps : Keeps job l) {k : Nat} {t : ToolCall} (here : l[k]? = some t) :
    jobCallParts (job.calls k).bytes = (t.header, t.call) := by
  rw [keeps.stored k t here]
  exact ToolCall.parts (keeps.fits (mem_of_getElem? here))

/-- Buffers that hold the same call hold the same bytes. -/
theorem Keeps.agree (keeps : Keeps job l) (keeps' : Keeps job' l') {k : Nat} (same : l'[k]? = l[k]?) :
    (job'.calls k).bytes = (job.calls k).bytes := by
  cases here : l[k]? with
  | none =>
    rw [keeps.rest k (List.getElem?_eq_none_iff.mp here),
      keeps'.rest k (List.getElem?_eq_none_iff.mp (same.trans here))]
  | some t => rw [keeps.stored k t here, keeps'.stored k t (same.trans here)]

/-- The buffers of a job hold what the pieces of each index give, in the order in which the indices
first appear. -/
structure Reassembled (ps : List AiCall) (job : CallJob) : Prop where
  calls : ∀ k i, (firsts ps)[k]? = some i → (jobCallParts (job.calls k).bytes).2 = merged i ps
  rest : ∀ k, (firsts ps).length ≤ k → (job.calls k).bytes = []
  extra : ∀ p ∈ ps, p.extra = [] ∨ p.extra = (merged p.index ps).extra
  /-- An id that no other piece of the call differs from is stored once. -/
  id : ∀ p ∈ ps, (∀ q ∈ ps, q.index = p.index → q.id = [] ∨ q.id = p.id) →
    (merged p.index ps).id = p.id
  name : ∀ p ∈ ps, (∀ q ∈ ps, q.index = p.index → q.name = [] ∨ q.name = p.name) →
    (merged p.index ps).name = p.name

/-- The same calls, but for where the replay was when they began. -/
def Alike (job job' : CallJob) (k : Nat) : Prop :=
  (job.calls k).bytes.drop JobCall.size = (job'.calls k).bytes.drop JobCall.size ∧
    { (jobCallParts (job.calls k).bytes).1 with replay := 0 } =
      { (jobCallParts (job'.calls k).bytes).1 with replay := 0 }

/-- What a piece without an index does: it continues the last of the `n` calls or begins one. -/
def PutNext (job : CallJob) (p : AiCall) (job' : CallJob) : Prop :=
  ∃ n, (∀ k, (job.calls k).bytes = [] ↔ n ≤ k) ∧
    let last := (jobCallParts (job.calls (n - 1)).bytes).2
    if n ≠ 0 ∧ (p.id = [] ∨ last.id = p.id) then
      (jobCallParts (job'.calls (n - 1)).bytes).2 = last.add p ∧
        ∀ k ≠ n - 1, (job'.calls k).bytes = (job.calls k).bytes
    else
      (jobCallParts (job'.calls n).bytes).2 = AiCall.add { index := UInt32.ofNat n } p ∧
        ∀ k ≠ n, (job'.calls k).bytes = (job.calls k).bytes

theorem Assembled.reassembled (keeps : Keeps job l) (assembled : Assembled ps l) : Reassembled ps job := by
  have parts : ∀ (part : AiCall → Bytes), ∀ p ∈ ps, (∀ q ∈ ps, q.index = p.index → part q = [] ∨ part q = part p) →
        gathered ((ps.filter fun q => decide (q.index = p.index)).map part) = part p := by
    intro part p mem same
    apply gathered_once
    · intro x given
      obtain ⟨q, own, rfl⟩ := mem_map.mp given
      obtain ⟨there, index⟩ := mem_filter.mp own
      exact same q there (of_decide_eq_true index)
    · exact mem_map_of_mem (mem_filter.mpr ⟨mem, decide_eq_true rfl⟩)
  refine ⟨fun k i first => ?_, fun k behind => ?_, assembled.extra, parts AiCall.id, parts AiCall.name⟩
  · have calls := congrArg (·[k]?) assembled.calls
    simp only [List.getElem?_map, first, Option.map_some] at calls
    obtain ⟨t, here, same⟩ := Option.map_eq_some_iff.mp calls
    rw [keeps.parts here, same]
  · apply keeps.rest
    have number := congrArg List.length assembled.calls
    rw [length_map, length_map] at number
    rw [number]
    exact behind

theorem Keeps.alike (keeps : Keeps job l) (keeps' : Keeps job' l')
    (same : l.map ToolCall.call = l'.map ToolCall.call) (k : Nat) : Alike job job' k := by
  have calls := congrArg (·[k]?) same
  simp only [List.getElem?_map] at calls
  cases here : l[k]? with
  | none =>
    rw [here, Option.map_none, eq_comm, Option.map_eq_none_iff] at calls
    rw [Alike, keeps.rest k (List.getElem?_eq_none_iff.mp here), keeps'.rest k (List.getElem?_eq_none_iff.mp calls)]
    exact ⟨rfl, rfl⟩
  | some t =>
    rw [here, Option.map_some, eq_comm, Option.map_eq_some_iff] at calls
    obtain ⟨t', here', call⟩ := calls
    rw [Alike, keeps.parts here, keeps'.parts here', keeps.stored k t here, keeps'.stored k t' here',
      t.drop_bytes, t'.drop_bytes, ToolCall.text, ToolCall.text, ToolCall.header, ToolCall.header, call]
    exact ⟨rfl, rfl⟩

/-- A piece without an index continues the last call or begins one. -/
theorem Keeps.next (keeps : Keeps job l) (tools : job.tools = true)
    (next : q.2.index = aiCallNext) (takes : job.Takes q job') : PutNext job q.2 job' := by
  obtain ⟨-, l', keeps', put⟩ := keeps.takes tools takes
  have empty : ∀ k, (job.calls k).bytes = [] ↔ l.length ≤ k := by
    intro k
    refine ⟨fun none_ => Nat.not_lt.mp fun inside => ?_, keeps.rest k⟩
    rw [keeps.stored k _ (List.getElem?_eq_getElem inside)] at none_
    exact ToolCall.bytes_ne_nil _ none_
  refine ⟨l.length, empty, ?_⟩
  dsimp only
  cases put with
  | @goes k t here goes _ =>
    rw [Goes, if_pos next] at goes
    obtain ⟨end_, which⟩ := goes
    have last : l.length - 1 = k := by omega
    rw [last, keeps.parts here, if_pos ⟨by omega, which⟩]
    constructor
    · obtain ⟨inside, -⟩ := List.getElem?_eq_some_iff.mp here
      have added : (l.set k (t.add q.2))[k]? = some (t.add q.2) := List.getElem?_set_self inside
      rw [keeps'.parts added]
      rfl
    · intro j other
      exact keeps.agree keeps' (List.getElem?_set_ne (Ne.symm other))
  | begins begins =>
    rw [if_neg]
    · constructor
      · have added : (l ++ [begun l q.1 q.2])[l.length]? = some (begun l q.1 q.2) :=
          List.getElem?_concat_length
        rw [keeps'.parts added, begun, if_pos next]
        rfl
      · intro j other
        apply keeps.agree keeps'
        rcases Nat.lt_or_gt_of_ne other with before | behind
        · exact List.getElem?_append_left before
        · rw [List.getElem?_eq_none (by simp; omega), List.getElem?_eq_none (Nat.le_of_lt behind)]
    · rintro ⟨some_, which⟩
      have inside : l.length - 1 < l.length := by omega
      have here := List.getElem?_eq_getElem inside
      rw [keeps.parts here] at which
      apply begins _ _ here
      rw [Goes, if_pos next]
      exact ⟨by omega, which⟩

/-- However the pieces of a job's calls come interleaved, each call is stored with what its own pieces
give. -/
theorem calls_reassembled (blank : job.Blank) (tools : job.tools = true) :
    (∀ es job', Trace Takes job es job' → (∀ q ∈ es, q.2.index ≠ aiCallNext) → Reassembled (es.map Prod.snd) job' ∧
        ∀ job₂ fs job₂', job₂.Blank → job₂.tools = true → Trace Takes job₂ fs job₂' →
          firsts (fs.map Prod.snd) = firsts (es.map Prod.snd) →
          (∀ i, (fs.map Prod.snd).filter (fun p => decide (p.index = i)) =
            (es.map Prod.snd).filter fun p => decide (p.index = i)) → ∀ k, Alike job₂' job' k) ∧
    ∀ es job', Trace Tries job es job' → (∑ k ∈ Finset.range jobCalls, (job'.calls k).bytes.length ≤ maxResponse ∧
        ∀ k, jobCalls ≤ k → (job'.calls k).bytes = []) ∧
      (∀ share p e, (job'.putCall share p).2 = .error e → (job'.putCall share p).1 = job') ∧
      ∀ q job'', q.2.index = aiCallNext → Takes job' q job'' → PutNext job' q.2 job'' := by
  refine ⟨fun es job' trace explicit => ?_, fun es job' trace => ?_⟩
  · obtain ⟨-, l, keeps, assembled⟩ := assembled_of_takes blank tools trace explicit
    refine ⟨assembled.reassembled keeps, ?_⟩
    intro job₂ fs job₂' blank₂ tools₂ trace₂ order own k
    have explicit₂ : ∀ q ∈ fs, q.2.index ≠ aiCallNext := by
      intro q mem same
      have there : aiCallNext ∈ firsts (fs.map Prod.snd) :=
        mem_firsts.mpr ⟨q.2, mem_map_of_mem mem, same⟩
      rw [order] at there
      obtain ⟨p, given, next⟩ := mem_firsts.mp there
      obtain ⟨q', mem', rfl⟩ := mem_map.mp given
      exact explicit q' mem' next
    obtain ⟨-, l₂, keeps₂, assembled₂⟩ := assembled_of_takes blank₂ tools₂ trace₂ explicit₂
    apply keeps₂.alike keeps
    rw [assembled₂.calls, assembled.calls, order]
    apply map_congr_left
    intro i _
    rw [merged, merged, own i]
  · obtain ⟨tools', l, keeps⟩ := keeps_of_tries blank tools trace
    refine ⟨⟨?_, fun k behind => keeps.rest k (keeps.few.trans behind)⟩, fun share p e => refused_same,
      fun q job'' next takes => keeps.next tools' next takes⟩
    rw [keeps.total]
    exact keeps.small

theorem takes_of_ok (taken : (job.putCall q.1 q.2).2 = .ok ()) : job.Takes q (job.putCall q.1 q.2).1 :=
  Prod.ext rfl taken

/-- Two calls in pieces that come in turn, and a piece without an index behind them. -/
theorem calls_reassembled_interleaved :
    let a : CallShare × AiCall := ({}, { id := [97], index := 0 })
    let b : CallShare × AiCall := ({ replay := 3 }, { id := [98], index := 5 })
    let c : CallShare × AiCall := ({}, { args := [123, 125], index := 0 })
    let job' := ((({} : CallJob).putCall a.1 a.2).1.putCall b.1 b.2).1
    let job'' := (job'.putCall c.1 c.2).1
    Reassembled [a.2, b.2, c.2] job'' ∧
      PutNext job'' { id := [98], index := aiCallNext }
        (job''.putCall {} { id := [98], index := aiCallNext }).1 := by
  intro a b c job' job''
  have blank : Blank {} := fun _ => rfl
  have first : Takes {} a (({} : CallJob).putCall a.1 a.2).1 := takes_of_ok (by decide +kernel)
  have second : Takes (({} : CallJob).putCall a.1 a.2).1 b job' := takes_of_ok (by decide +kernel)
  have third : Takes job' c job'' := takes_of_ok (by decide +kernel)
  have last : Takes job'' ({}, { id := [98], index := aiCallNext })
      (job''.putCall {} { id := [98], index := aiCallNext }).1 :=
    takes_of_ok (q := ({}, { id := [98], index := aiCallNext })) (by decide +kernel)
  have trace : Trace Takes {} ([a] ++ [b] ++ [c]) job'' := .snoc (.snoc (.single first) second) third
  have tries : Trace Tries {} ([a] ++ [b] ++ [c]) job'' := .snoc (.snoc (.single rfl) rfl) rfl
  obtain ⟨explicit, any⟩ := calls_reassembled blank rfl
  exact ⟨(explicit _ _ trace (by decide)).1, (any _ _ tries).2.2 _ _ rfl last⟩

/-- The pieces of an id that differ are stored one behind the other, and nothing is stored of a call
that the front does not ask for. -/
theorem call_id_joined : (∃ job, Trace Takes {} [({}, { id := [97] }), ({}, { id := [98] })] job ∧
      (jobCallParts (job.calls 0).bytes).2.id = [97, 98]) ∧
    ∃ job, Trace Takes { tools := false } [({}, { id := [97] })] job ∧ (job.calls 0).bytes = [] := by
  constructor
  · let a : CallShare × AiCall := ({}, { id := [97] })
    let b : CallShare × AiCall := ({}, { id := [98] })
    have first : Takes {} a (({} : CallJob).putCall a.1 a.2).1 := takes_of_ok (by decide +kernel)
    have second : Takes (({} : CallJob).putCall a.1 a.2).1 b
        ((({} : CallJob).putCall a.1 a.2).1.putCall b.1 b.2).1 := takes_of_ok (by decide +kernel)
    have trace : Trace Takes {} ([a] ++ [b]) _ := .snoc (.single first) second
    exact ⟨_, trace, by decide +kernel⟩
  · exact ⟨_, .single rfl, rfl⟩

end CallJob

end Askai
