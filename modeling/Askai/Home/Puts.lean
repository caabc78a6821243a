import Askai.Home.Calls

/-!
# Pieces of tool calls

What a piece adds to the calls that a job has stored: it goes to the call with its index, or begins one.
-/

namespace Askai

open Library List

/-! ## What a piece adds to a call -/

/-- More of a call, whose every part goes behind what there is of it. -/
def AiCall.join (a p : AiCall) : AiCall :=
  { a with id := a.id ++ p.id, name := a.name ++ p.name, extra := a.extra ++ p.extra,
           args := a.args ++ p.args }

/-- What is new of a piece of a call. -/
def AiCall.fresh (a p : AiCall) : AiCall :=
  { p with id := unlessStored a.id p.id, name := unlessStored a.name p.name,
           extra := unlessStored a.extra p.extra }

/-- A piece more of a call. -/
def AiCall.add (a p : AiCall) : AiCall :=
  a.join (a.fresh p)

namespace ToolCall

def join (t : ToolCall) (p : AiCall) : ToolCall :=
  { t with call := t.call.join p }

def add (t : ToolCall) (p : AiCall) : ToolCall :=
  { t with call := t.call.add p }

/-- The parts come in order: none behind one that comes later. -/
def Ordered (t : ToolCall) (p : AiCall) : Prop :=
  (p.id ≠ [] → t.call.name = [] ∧ t.call.extra = [] ∧ t.call.args = []) ∧
    (p.name ≠ [] ∨ p.extra ≠ [] → t.call.extra = [] ∧ t.call.args = [])

variable {t : ToolCall} {p : AiCall}

/-- What comes in order goes to the end. -/
theorem text_join (ordered : t.Ordered p) : (t.join p).text = t.text ++ (p.id ++ p.name ++ p.extra ++ p.args) := by
  obtain ⟨first, second⟩ := ordered
  change t.call.id ++ p.id ++ (t.call.name ++ p.name) ++ (t.call.extra ++ p.extra) ++
    (t.call.args ++ p.args) = t.call.id ++ t.call.name ++ t.call.extra ++ t.call.args ++ _
  rcases eq_or_ne p.id [] with id | id
  · rw [id]
    by_cases rest : p.name ≠ [] ∨ p.extra ≠ []
    · obtain ⟨extra, args⟩ := second rest
      rw [extra, args]
      simp
    · push Not at rest
      rw [rest.1, rest.2]
      simp
  · obtain ⟨name, extra, args⟩ := first id
    rw [name, extra, args]
    simp

theorem header_join (t : ToolCall) (p : AiCall) : (t.join p).header =
    { t.header with
      id := t.header.id + UInt32.ofNat p.id.length
      name := t.header.name + UInt32.ofNat p.name.length
      extra := t.header.extra + UInt32.ofNat p.extra.length
      args := t.header.args + UInt32.ofNat p.args.length } := by
  rw [header]
  dsimp only [join, AiCall.join]
  simp only [length_append, UInt32.ofNat_add]
  rfl

/-- The check of `home_put_call` is that of the order. -/
theorem ordered_of_check (fits : t.bytes.length ≤ maxResponse)
    (passed : ¬((p.id ≠ [] ∧ (t.header.name ≠ 0 ∨ t.header.extra ≠ 0 ∨ t.header.args ≠ 0)) ∨
      ((p.name ≠ [] ∨ p.extra ≠ []) ∧ (t.header.extra ≠ 0 ∨ t.header.args ≠ 0)))) : t.Ordered p := by
  obtain ⟨-, names, extras, arguments⟩ := lengths fits
  have none_ : ∀ {w : UInt32} {l : Bytes}, w.toNat = l.length → w = 0 → l = [] := by
    rintro w l same rfl
    exact length_eq_zero_iff.mp same.symm
  push Not at passed
  refine ⟨fun id => ?_, fun rest => ?_⟩
  · obtain ⟨name, extra, args⟩ := passed.1 id
    exact ⟨none_ names name, none_ extras extra, none_ arguments args⟩
  · obtain ⟨extra, args⟩ := passed.2 rest
    exact ⟨none_ extras extra, none_ arguments args⟩

end ToolCall

namespace CallJob

variable {job : CallJob} {share : CallShare} {bytes k head : Nat} {t : ToolCall} {p : AiCall}

/-- What the end of `home_put_call` comes to. -/
inductive Appended (job : CallJob) (bytes k : Nat) (t : ToolCall) (p : AiCall) :
    CallJob → Except CallError Unit → Prop
  | refused (e : CallError) : Appended job bytes k t p job (.error e)
  | put {job' : CallJob} (ordered : t.Ordered p) (tools : job'.tools = job.tools)
      (others : ∀ j ≠ k, job'.calls j = job.calls j)
      (here : (job'.calls k).bytes = (t.join p).bytes)
      (fits : (t.join p).bytes.length = (job.calls k).bytes.length ∨
        (t.join p).bytes.length ≤ maxResponse - (bytes - (job.calls k).bytes.length)) :
      Appended job bytes k t p job' (.ok ())

/-- A piece goes to the end of the record of its call, or of that of a new one, which is to have
`head` bytes for its header. -/
theorem append_appended (fits : t.bytes.length ≤ maxResponse)
    (text : ((job.calls k).bytes ++ List.replicate head 0).drop JobCall.size = t.text)
    (length : (job.calls k).bytes.length + head = t.bytes.length) (same : head = 0 → (job.calls k).bytes = t.bytes) :
    Appended job bytes k t p (job.append share bytes k head t.header p).1
      (job.append share bytes k head t.header p).2 := by
  rw [append]
  dsimp only
  split
  · exact .refused _
  · next passed =>
      have ordered := ToolCall.ordered_of_check fits passed
      have whole := ToolCall.text_join ordered
      split
      · exact .refused _
      · split
        · next none_ =>
            have empty : head = 0 ∧ p.id = [] ∧ p.name = [] ∧ p.extra = [] ∧ p.args = [] := by
              refine ⟨by omega, ?_, ?_, ?_, ?_⟩ <;> apply length_eq_zero_iff.mp <;> omega
            obtain ⟨noHead, id, name, extra, args⟩ := empty
            have still : (t.join p).bytes = t.bytes := by
              rw [ToolCall.bytes, whole, id, name, extra, args, ToolCall.header_join, id, name, extra, args]
              simp [ToolCall.bytes]
            refine .put ordered rfl (fun _ _ => rfl) ?_ (.inl ?_)
            · rw [still, same noHead]
            · rw [still, same noHead]
        · cases reserved : bufReserve share.memory (job.calls k) _ _ with
          | error e => exact .refused _
          | ok done =>
            obtain ⟨buf, room⟩ := done
            obtain ⟨bytes_, least, most⟩ := bufReserve_ok reserved
            dsimp only
            have room : JobCall.size ≤ ((job.calls k).bytes ++ List.replicate head 0).length := by
              rw [length_append, length_replicate, length, ToolCall.length_bytes]
              exact Nat.le_add_right ..
            have record : (t.join p).bytes = (t.join p).header.bytes ++
                ((job.calls k).bytes ++ (List.replicate head 0 ++
                  (p.id ++ p.name ++ p.extra ++ p.args))).drop JobCall.size := by
              rw [ToolCall.bytes, whole, ← text, ← append_assoc (job.calls k).bytes, drop_append_of_le_length room]
            refine .put ordered rfl (fun j other => Function.update_of_ne other ..) ?_ (.inr ?_)
            · dsimp only
              rw [Function.update_self, record, ToolCall.header_join, Buf.commit]
              dsimp only
              rw [bytes_]
            · rw [ToolCall.length_bytes, whole]
              rw [ToolCall.length_bytes] at length
              simp only [length_append]
              omega

/-! ## The stored calls -/

def size (l : List ToolCall) : Nat :=
  (l.map fun t => t.bytes.length).sum

/-- The buffers hold the calls of the list, in order. -/
structure Keeps (job : CallJob) (l : List ToolCall) : Prop where
  stored : ∀ k t, l[k]? = some t → (job.calls k).bytes = t.bytes
  rest : ∀ k, l.length ≤ k → (job.calls k).bytes = []
  few : l.length ≤ jobCalls
  small : size l ≤ maxResponse
  /-- Every stored call has an index. -/
  named : ∀ t ∈ l, t.call.index ≠ aiCallNext

variable {l : List ToolCall}

theorem le_size (mem : t ∈ l) : t.bytes.length ≤ size l :=
  single_le_sum (fun _ _ => Nat.zero_le _) _ (mem_map_of_mem mem)

theorem Keeps.fits (keeps : Keeps job l) (mem : t ∈ l) : t.bytes.length ≤ maxResponse :=
  (le_size mem).trans keeps.small

/-- What the loop of `home_put_call` has seen of the calls. -/
structure Scanned (index : UInt32) (l : List ToolCall) (s : CallScan) : Prop where
  n : s.n = l.length
  bytes : s.bytes = size l
  last : ∀ t, l.getLast? = some t → s.c = t.header ∧ s.last = t.call
  place : (s.k = jobCalls ∧ ∀ t ∈ l, t.call.index ≠ index) ∨
    ∃ t, l[s.k]? = some t ∧ t.call.index = index

theorem Scanned.next {index : UInt32} {s : CallScan} (scanned : Scanned index l s) (t : ToolCall) :
    Scanned index (l ++ [t])
      { n := s.n + 1, k := if t.header.index = index then s.n else s.k,
        bytes := s.bytes + t.bytes.length, c := t.header, last := t.call } where
  n := by
    rw [length_append, length_singleton]
    exact congrArg (· + 1) scanned.n
  bytes := by
    rw [size, map_append, sum_append, map_singleton, sum_singleton]
    exact congrArg (· + t.bytes.length) scanned.bytes
  last := by
    intro u last
    rw [List.getLast?_concat] at last
    obtain rfl := Option.some.inj last
    exact ⟨rfl, rfl⟩
  place := by
    dsimp only
    split
    · next here =>
        refine .inr ⟨t, ?_, here⟩
        rw [scanned.n, List.getElem?_concat_length]
    · next other =>
        rcases scanned.place with ⟨most, none_⟩ | ⟨u, here, same⟩
        · refine .inl ⟨most, fun u mem => ?_⟩
          rcases mem_append.mp mem with mem | mem
          · exact none_ u mem
          · rw [mem_singleton.mp mem]
            exact other
        · refine .inr ⟨u, ?_, same⟩
          obtain ⟨before, -⟩ := List.getElem?_eq_some_iff.mp here
          rw [List.getElem?_append_left before]
          exact here

/-- The loop sees all calls. -/
theorem Keeps.scan {index : UInt32} {front back : List ToolCall} {s : CallScan} {left : Nat}
    (keeps : Keeps job (front ++ back)) (all : left + front.length = jobCalls) (scanned : Scanned index front s) :
    Scanned index (front ++ back) (job.scan index left s) := by
  induction back generalizing front s left with
  | nil =>
    rw [append_nil] at keeps ⊢
    cases left with
    | zero => exact scanned
    | succ left =>
      rw [CallJob.scan, scanned.n, if_pos (keeps.rest _ (Nat.le_refl _))]
      exact scanned
  | cons t back ih =>
    cases left with
    | zero =>
      have few := keeps.few
      rw [length_append, length_cons] at few
      omega
    | succ left =>
      have here : (job.calls s.n).bytes = t.bytes := by
        apply keeps.stored
        rw [scanned.n, List.getElem?_append_right (Nat.le_refl _), Nat.sub_self]
        rfl
      have fits : t.bytes.length ≤ maxResponse := keeps.fits (by simp)
      rw [CallJob.scan, here, if_neg t.bytes_ne_nil, ToolCall.parts fits]
      dsimp only
      have whole : front ++ t :: back = front ++ [t] ++ back := by simp
      rw [whole] at keeps ⊢
      refine ih keeps ?_ (scanned.next t)
      rw [length_append, length_singleton]
      omega

theorem Keeps.scan_all {index : UInt32} (keeps : Keeps job l) : Scanned index l (job.scan index jobCalls {}) := by
  have start : Scanned index [] {} := ⟨rfl, rfl, nofun, .inl ⟨rfl, nofun⟩⟩
  exact @Keeps.scan job index [] l {} jobCalls keeps rfl start

/-! ## What a piece does to them -/

/-- The piece goes to the stored call `t` at `k`: to the last if it has no index, and no other id, and
else to the one with its index. -/
def Goes (l : List ToolCall) (p : AiCall) (k : Nat) (t : ToolCall) : Prop :=
  if p.index = aiCallNext then k + 1 = l.length ∧ (p.id = [] ∨ t.call.id = p.id)
  else t.call.index = p.index

/-- The piece begins a call. -/
def Begins (l : List ToolCall) (p : AiCall) : Prop :=
  ∀ k t, l[k]? = some t → ¬Goes l p k t

/-- A call that a piece begins. -/
def begun (l : List ToolCall) (share : CallShare) (p : AiCall) : ToolCall :=
  ToolCall.add
    { replay := UInt32.ofNat share.replay
      call := { index := if p.index = aiCallNext then UInt32.ofNat l.length else p.index } } p

/-- The calls with a piece more. -/
inductive Put (l : List ToolCall) (share : CallShare) (p : AiCall) : List ToolCall → Prop
  | goes {k : Nat} {t : ToolCall} (here : l[k]? = some t) (goes : Goes l p k t)
      (ordered : t.Ordered (t.call.fresh p)) : Put l share p (l.set k (t.add p))
  | begins (begins : Begins l p) : Put l share p (l ++ [begun l share p])

theorem size_set {t' : ToolCall} (here : l[k]? = some t) :
    size (l.set k t') + t.bytes.length = size l + t'.bytes.length := by
  induction l generalizing k with
  | nil => cases here
  | cons u l ih =>
    cases k with
    | zero =>
      obtain rfl := Option.some.inj here
      simp only [size, set_cons_zero, map_cons, sum_cons]
      omega
    | succ k =>
      have rest := ih here
      simp only [size, set_cons_succ, map_cons, sum_cons] at rest ⊢
      omega

/-- The record of a call is written anew. -/
theorem Keeps.set {job' : CallJob} {t' : ToolCall} (keeps : Keeps job l) (here : l[k]? = some t)
    (others : ∀ j ≠ k, job'.calls j = job.calls j) (record : (job'.calls k).bytes = t'.bytes)
    (index : t'.call.index = t.call.index) (fits : t'.bytes.length = t.bytes.length ∨
      t'.bytes.length ≤ maxResponse - (size l - t.bytes.length)) : Keeps job' (l.set k t') where
  stored := by
    intro j u there
    rcases eq_or_ne k j with rfl | other
    · obtain ⟨inside, -⟩ := List.getElem?_eq_some_iff.mp here
      rw [List.getElem?_set_self inside] at there
      obtain rfl := Option.some.inj there
      exact record
    · rw [List.getElem?_set_ne other] at there
      rw [others j (Ne.symm other)]
      exact keeps.stored j u there
  rest := by
    intro j behind
    rw [length_set] at behind
    obtain ⟨inside, -⟩ := List.getElem?_eq_some_iff.mp here
    rw [others j (Nat.ne_of_gt (Nat.lt_of_lt_of_le inside behind))]
    exact keeps.rest j behind
  few := by
    rw [length_set]
    exact keeps.few
  small := by
    have sizes := @size_set k t l t' here
    have small := keeps.small
    have part := le_size (mem_of_getElem? here)
    omega
  named := by
    intro u mem
    rcases mem_or_eq_of_mem_set mem with mem | rfl
    · exact keeps.named u mem
    · rw [index]
      exact keeps.named t (mem_of_getElem? here)

/-- The record of a call is written behind the others. -/
theorem Keeps.snoc {job' : CallJob} {t' : ToolCall} (keeps : Keeps job l)
    (room : l.length ≠ jobCalls) (others : ∀ j ≠ l.length, job'.calls j = job.calls j)
    (record : (job'.calls l.length).bytes = t'.bytes) (index : t'.call.index ≠ aiCallNext)
    (fits : t'.bytes.length ≤ maxResponse - size l) : Keeps job' (l ++ [t']) where
  stored := by
    intro j u there
    rcases Nat.lt_trichotomy j l.length with before | rfl | behind
    · rw [List.getElem?_append_left before] at there
      rw [others j (Nat.ne_of_lt before)]
      exact keeps.stored j u there
    · rw [List.getElem?_concat_length] at there
      obtain rfl := Option.some.inj there
      exact record
    · rw [List.getElem?_eq_none (by simp; omega)] at there
      cases there
  rest := by
    intro j behind
    rw [length_append, length_singleton] at behind
    rw [others j (by omega)]
    exact keeps.rest j (by omega)
  few := by
    have few := keeps.few
    rw [length_append, length_singleton]
    omega
  small := by
    have small := keeps.small
    rw [size, map_append, sum_append, map_singleton, sum_singleton]
    change size l + _ ≤ _
    omega
  named := by
    intro u mem
    rcases mem_append.mp mem with mem | mem
    · exact keeps.named u mem
    · rw [mem_singleton.mp mem]
      exact index

/-- The number of a buffer is an index. -/
theorem ofNat_ne_next {n : Nat} (few : n ≤ jobCalls) : UInt32.ofNat n ≠ aiCallNext := by
  intro same
  have number := congrArg UInt32.toNat same
  change n % 2 ^ 32 = 2 ^ 32 - 1 at number
  change n ≤ 16 at few
  omega

theorem unlessStored_nil (stored : Bytes) : unlessStored stored [] = [] := by
  rw [unlessStored]
  split <;> rfl

theorem unlessStored_empty (part : Bytes) : unlessStored [] part = part := by
  rw [unlessStored]
  split
  · next same => exact same
  · rfl

/-- A piece goes to the end of a stored record. -/
theorem Keeps.joins {q : AiCall} (keeps : Keeps job l) (here : l[k]? = some t)
    (which : Goes l p k t) (same : q = { t.call.fresh p with index := q.index }) (tools : job.tools = true) :
    (∃ e, job.append share (size l) k 0 t.header q = (job, .error e)) ∨
      ∃ job' l', job.append share (size l) k 0 t.header q = (job', .ok ()) ∧ job'.tools = true ∧
        Keeps job' l' ∧ Put l share p l' := by
  have mem := mem_of_getElem? here
  have record := keeps.stored k t here
  have appended : Appended job (size l) k t q (job.append share (size l) k 0 t.header q).1
      (job.append share (size l) k 0 t.header q).2 := by
    refine append_appended (keeps.fits mem) ?_ ?_ fun _ => record
    · rw [record, replicate_zero, append_nil, t.drop_bytes]
    · rw [record, Nat.add_zero]
  cases result : job.append share (size l) k 0 t.header q with
  | mk job' r =>
    rw [result] at appended
    cases appended with
    | refused e => exact .inl ⟨e, rfl⟩
    | put ordered same_ others written fits =>
      have added : t.join q = t.add p := by
        rw [same]
        rfl
      rw [same] at ordered
      rw [added] at written fits
      rw [record] at fits
      exact .inr ⟨job', _, rfl, same_.trans tools, keeps.set here others written rfl fits, .goes here which ordered⟩

/-- A piece begins a record. -/
theorem Keeps.opens {q : AiCall} {index : UInt32} (keeps : Keeps job l) (room : l.length ≠ jobCalls)
    (begins : Begins l p) (named : index ≠ aiCallNext)
    (same : ToolCall.join { replay := UInt32.ofNat share.replay, call := { index } } q = begun l share p)
    (tools : job.tools = true) : (∃ e, job.append share (size l) l.length JobCall.size
        { index, replay := UInt32.ofNat share.replay } q = (job, .error e)) ∨
      ∃ job' l', job.append share (size l) l.length JobCall.size
          { index, replay := UInt32.ofNat share.replay } q = (job', .ok ()) ∧ job'.tools = true ∧
        Keeps job' l' ∧ Put l share p l' := by
  let t : ToolCall := { replay := UInt32.ofNat share.replay, call := { index } }
  have empty := keeps.rest l.length (Nat.le_refl _)
  have appended : Appended job (size l) l.length t q (job.append share (size l) l.length JobCall.size t.header q).1
      (job.append share (size l) l.length JobCall.size t.header q).2 := by
    refine append_appended ?_ ?_ ?_ nofun
    · rw [ToolCall.length_bytes]
      change 24 + 0 ≤ 16 * 1048576
      decide
    · rw [empty]
      rfl
    · rw [empty]
      rfl
  have header : t.header = { index, replay := UInt32.ofNat share.replay } := rfl
  rw [header] at appended
  cases result : job.append share (size l) l.length JobCall.size { index, replay := UInt32.ofNat share.replay } q with
  | mk job' r =>
    rw [result] at appended
    cases appended with
    | refused e => exact .inl ⟨e, rfl⟩
    | put _ same_ others written fits =>
      have long := (t.join q).length_bytes
      rw [empty, length_nil, Nat.sub_zero] at fits
      have index_ : (t.join q).call.index = index := rfl
      rw [same] at written fits long index_
      refine .inr ⟨job', _, rfl, same_.trans tools,
        keeps.snoc room others written (by rw [index_]; exact named) ?_, .begins begins⟩
      change _ = 24 + _ at long
      omega

theorem Keeps.put (keeps : Keeps job l) (tools : job.tools = true) : (∃ e, job.putCall share p = (job, .error e)) ∨
      ∃ job' l', job.putCall share p = (job', .ok ()) ∧ job'.tools = true ∧ Keeps job' l' ∧ Put l share p l' := by
  rw [putCall]
  split
  · exact .inl ⟨_, rfl⟩
  · rw [if_neg (by rw [tools]; nofun)]
    dsimp only
    have scanned : Scanned p.index l (job.scan p.index jobCalls {}) := keeps.scan_all
    generalize job.scan p.index jobCalls {} = s at scanned
    obtain ⟨n, bytes, last, place⟩ := scanned
    rw [n, bytes]
    by_cases continues : p.index = aiCallNext ∧ l.length ≠ 0 ∧ (p.id = [] ∨ s.last.id = p.id)
    · -- it goes to the last call
      simp only [if_pos continues]
      obtain ⟨next, some_, which⟩ := continues
      have inside : l.length - 1 < l.length := by omega
      have end_ : l.length - 1 + 1 = l.length := by omega
      obtain ⟨t, here⟩ : ∃ t, l[l.length - 1]? = some t := ⟨_, List.getElem?_eq_getElem inside⟩
      obtain ⟨header, stored⟩ := last t (by rw [List.getLast?_eq_getElem?]; exact here)
      simp only [if_pos inside, if_pos end_, header, stored]
      rw [stored] at which
      have id : (if t.call.id = p.id then [] else []) = unlessStored t.call.id p.id := by
        rcases which with none_ | same
        · rw [none_, unlessStored_nil]
          split <;> rfl
        · rw [unlessStored, if_pos same, if_pos same]
      rw [id]
      refine keeps.joins here ?_ rfl tools
      rw [Goes, if_pos next]
      exact ⟨end_, which⟩
    · simp only [if_neg continues]
      rcases place with ⟨most, none_⟩ | ⟨t, here, same⟩
      · -- it begins a call
        rw [most, if_neg (Nat.not_lt_of_le keeps.few)]
        split
        · exact .inl ⟨_, rfl⟩
        · next room =>
            refine keeps.opens room ?_ ?_ ?_ tools
            · intro k t here goes
              rw [Goes] at goes
              split at goes
              · next next =>
                  obtain ⟨end_, which⟩ := goes
                  apply continues
                  have here' : l.getLast? = some t := by
                    rw [List.getLast?_eq_getElem?, ← end_]
                    exact here
                  rw [(last t here').2]
                  exact ⟨next, by omega, which⟩
              · exact none_ t (mem_of_getElem? here) goes
            · split
              · exact ofNat_ne_next keeps.few
              · assumption
            · rw [begun, ToolCall.add, AiCall.add, AiCall.fresh]
              simp only [unlessStored_empty]
              rfl
      · -- it goes to the call with its index
        obtain ⟨inside, -⟩ := List.getElem?_eq_some_iff.mp here
        have other : p.index ≠ aiCallNext := by
          rw [← same]
          exact keeps.named t (mem_of_getElem? here)
        have goes : Goes l p s.k t := by
          rw [Goes, if_neg other]
          exact same
        have found : (if s.k + 1 = l.length then (s.c, s.last)
            else jobCallParts (job.calls s.k).bytes) = (t.header, t.call) := by
          split
          · next end_ =>
              have here' : l.getLast? = some t := by
                rw [List.getLast?_eq_getElem?, ← end_]
                exact here
              obtain ⟨header, stored⟩ := last t here'
              rw [header, stored]
          · rw [keeps.stored _ t here]
            exact ToolCall.parts (keeps.fits (mem_of_getElem? here))
        rw [if_pos inside, found]
        exact keeps.joins here goes rfl tools

end CallJob

end Askai
