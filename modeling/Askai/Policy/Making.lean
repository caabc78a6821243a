import Askai.Policy.Charter

/-!
# Making a policy

Every policy that is made keeps to what its settings say, part by part, and goes on so under new keys.
-/

namespace Askai

open Library List

variable {host : PolicyHost} {s : PolicySetting}

/-! ## Identities -/

variable {value : Json} {named : List (Bytes × Json)} {tokens : List PolicyToken} {subgid : Nat → Bool}

theorem policyBuildIdentities_cases (built : policyBuildIdentities host named value = .ok tokens) :
    ∃ added, List.Forall₂ (fun identity ts => policyBuildIdentity host named identity = .ok ts)
        (policyMembers value) added ∧
      tokens = sortBy PolicyToken.digest added.flatten ∧ policySameTokens tokens = false := by
  cases value with
  | null =>
    obtain rfl := Except.ok.inj built
    exact ⟨[], .nil, by simp [sortBy], rfl⟩
  | object identities =>
    obtain ⟨added, each, built⟩ := bind_eq_ok.mp built
    dsimp only at built
    split at built
    · cases built
    · rename_i apart
      obtain rfl := Except.ok.inj built
      exact ⟨added, forall₂_of_mapM each, rfl, by simpa using apart⟩
  | bool | number | string | array => cases built

/-- The tokens are sorted, none is there twice, and each has a role of the file. -/
theorem policyBuildIdentities_sorted (built : policyBuildIdentities host named value = .ok tokens) :
    SortedBy PolicyToken.digest tokens ∧ (tokens.map PolicyToken.digest).Nodup ∧
      ∀ t ∈ tokens, ∃ value, policyBuildRole named value = some t.role := by
  obtain ⟨added, each, rfl, apart⟩ := policyBuildIdentities_cases built
  have sorted := sortedBy_sortBy PolicyToken.digest added.flatten
  refine ⟨sorted, once_of_policySameTokens sorted apart, ?_⟩
  intro t mem
  obtain ⟨ts, here, mem⟩ := mem_flatten.mp (mem_sortBy.mp mem)
  obtain ⟨identity, -, ids⟩ := exists_mem_of_forall₂ each.flip here
  exact policyBuildIdentity_role ids mem

section File

variable {roles : List PolicyGrant}
  (made : policyBuildRoles s.reg s.upstream (s.part (ascii "roles")) = .ok roles)
include made

/-- The tokens of the identities prove them, each with the role that the identity names. -/
theorem policyBuildIdentities_iff (built : policyBuildIdentities host (policyMembers (s.part (ascii "roles")))
      (s.part (ascii "identities")) = .ok tokens) (file : policyFile s = true)
    {digest who : Bytes} {role : PolicyGrant} : Proves host s digest who role ↔
      ∃ t ∈ tokens, t.digest = digest ∧ t.who = who ∧ (s.limited roles)[t.role]? = some role := by
  have distinct := (policyMembers_distinct (s.distinct_part (ascii "identities"))).2
  obtain ⟨added, each, rfl, -⟩ := policyBuildIdentities_cases built
  constructor
  · intro proves
    cases proves with
    | @identity who _ id spec specs _ _ member named listed of_ read =>
      obtain ⟨ts, here, ids⟩ := exists_mem_of_forall₂ each member
      obtain ⟨t, mem, proved⟩ := (policyBuildIdentity_iff made (distinct _ member) ids).mpr
        ⟨rfl, named, specs, spec, listed, of_, read⟩
      exact ⟨t, mem_sortBy.mpr (mem_flatten.mpr ⟨ts, here, mem⟩), proved⟩
    | askai own _ =>
      rw [file] at own
      cases own
  · rintro ⟨t, mem, proved⟩
    obtain ⟨ts, here, mem⟩ := mem_flatten.mp (mem_sortBy.mp mem)
    obtain ⟨⟨name, id⟩, member, ids⟩ := exists_mem_of_forall₂ each.flip here
    obtain ⟨rfl, named, specs, spec, listed, of_, read⟩ :=
      (policyBuildIdentity_iff made (distinct _ member) ids).mp ⟨t, mem, proved⟩
    exact .identity file member named listed of_ read

/-! ## Groups -/

theorem policyBuildGroup_ok {key : Bytes} {g : PolicyGid}
    (built : policyBuildGroup host subgid (policyMembers (s.part (ascii "roles"))) (key, value) = .ok g) :
    policyBuildGid host key = .ok g.gid ∧
      ∃ role, s.named (some value) = some role ∧ (s.limited roles)[g.role]? = some role := by
  rw [policyBuildGroup] at built
  split at built
  · cases built
  · rename_i r found
    obtain ⟨gid, looked, built⟩ := bind_eq_ok.mp built
    split at built
    · cases built
    · split at built
      · cases built
      · obtain rfl := Except.ok.inj built
        have here := named_eq made value
        rw [found, Option.bind_some, List.getElem?_eq_getElem (policyBuildRole_lt made found)] at here
        exact ⟨looked, _, here, List.getElem?_eq_getElem _⟩

omit made in
theorem forall₂_policyBuildGroups
    {groups : List PolicyGid} (built : policyBuildGroups host subgid named value = .ok groups) :
    List.Forall₂ (fun group g => policyBuildGroup host subgid named group = .ok g) (policyMembers value) groups := by
  cases value with
  | null =>
    obtain rfl := Except.ok.inj built
    exact .nil
  | object members => exact forall₂_of_mapM built
  | bool | number | string | array => cases built

/-- The groups have the roles that the file names, in its order. -/
theorem policyBuildGroups_eq {groups : List PolicyGid}
    (built : policyBuildGroups host subgid (policyMembers (s.part (ascii "roles")))
      (s.part (ascii "unix-groups")) = .ok groups) (file : policyFile s = true) :
    (s.groups host).map (fun group => (group.1, some group.2)) =
      groups.map fun g => (g.gid, (s.limited roles)[g.role]?) := by
  have each : List.Forall₂ (fun group g =>
      policyBuildGroup host subgid (policyMembers (s.part (ascii "roles"))) group = .ok g)
      (policyMembers (s.part (ascii "unix-groups"))) groups :=
    forall₂_policyBuildGroups built
  clear built
  rw [PolicySetting.groups, if_pos file]
  generalize policyMembers (s.part (ascii "unix-groups")) = members at each
  induction each with
  | nil => rfl
  | @cons group g _ _ head _ ih =>
    obtain ⟨key, value⟩ := group
    obtain ⟨looked, role, named, here⟩ := policyBuildGroup_ok made head
    rw [filterMap_cons_some (b := (g.gid, role)), map_cons, map_cons, ih, here]
    simp only [looked, named]
    rfl

end File

/-! ## Anonymous clients -/

theorem policyKinds_injective : Function.Injective policyKinds := by
  intro kind other same
  cases kind <;> cases other <;> first | rfl | exact absurd same (by decide)

/-- How a policy names an anonymous client of a role. -/
def policyStranger (roles : List PolicyGrant) (kind : PolicyKind) (r : Nat) : Bytes :=
  ascii "anonymous " ++ policyKinds kind ++ ascii " (" ++ ((roles[r]?).getD {}).who ++ ascii ")"

/-- What a member of the anonymous clients settles, of its kind only. -/
theorem policyBuildStranger_ok {p q : Policy} {member : Bytes × Json}
    (built : policyBuildStranger named p member = .ok q) :
    ∃ kind, policyKinds kind = member.1 ∧ q.anonymous kind = policyBuildRole named member.2 ∧
      (∀ r ∈ q.anonymous kind, q.strangers kind = policyStranger p.roles kind r) ∧
      (∀ other ≠ kind, q.anonymous other = p.anonymous other ∧ q.strangers other = p.strangers other) ∧
      q = { p with anonymous := q.anonymous, strangers := q.strangers } := by
  obtain ⟨key, value⟩ := member
  rw [policyBuildStranger] at built
  split at built
  · cases built
  · rename_i kind found
    have name : policyKinds kind = key := by simpa using List.find?_some found
    obtain ⟨role, settled, built⟩ := bind_eq_ok.mp built
    have value_eq : role = policyBuildRole named value := by
      cases value with
      | null => exact (Except.ok.inj settled).symm
      | bool | number | string | array | object =>
        rw [policyBuildKind] at settled
        · split at settled
          · cases settled
          · rename_i r here
            exact (Except.ok.inj settled).symm.trans here.symm
        · rintro ⟨⟩
    refine ⟨kind, name, ?_⟩
    cases role with
    | none =>
      obtain rfl := Except.ok.inj built
      refine ⟨by simpa using value_eq, by simp, ?_, rfl⟩
      intro other apart
      simp [Function.update_of_ne apart]
    | some r =>
      obtain rfl := Except.ok.inj built
      refine ⟨by simpa using value_eq, by simp [policyStranger], ?_, rfl⟩
      intro other apart
      simp [Function.update_of_ne apart]

/-- The members of the anonymous clients settle their kinds, and leave the rest as it was. -/
theorem policyBuildStrangers_ok {named members : List (Bytes × Json)} {p q : Policy}
    (names : (members.map Prod.fst).Nodup) (built : members.foldlM (policyBuildStranger named) p = .ok q) :
    (∀ kind, policyKinds kind ∉ members.map Prod.fst →
        q.anonymous kind = p.anonymous kind ∧ q.strangers kind = p.strangers kind) ∧
      (∀ kind value, (policyKinds kind, value) ∈ members → q.anonymous kind = policyBuildRole named value ∧
          ∀ r ∈ q.anonymous kind, q.strangers kind = policyStranger p.roles kind r) ∧
      q = { p with anonymous := q.anonymous, strangers := q.strangers } := by
  induction members generalizing p with
  | nil =>
    obtain rfl := Except.ok.inj built
    exact ⟨fun _ _ => ⟨rfl, rfl⟩, by simp, rfl⟩
  | cons member members ih =>
    rw [map_cons, nodup_cons] at names
    rw [foldlM_cons] at built
    obtain ⟨p', first, built⟩ := bind_eq_ok.mp built
    obtain ⟨kind, name, role, stranger, others, same⟩ := policyBuildStranger_ok first
    obtain ⟨absent, present, rest⟩ := ih names.2 built
    have roles : p'.roles = p.roles := by rw [same]
    refine ⟨?_, ?_, ?_⟩
    · intro other outside
      rw [map_cons, mem_cons, not_or] at outside
      have apart : other ≠ kind := by
        rintro rfl
        exact outside.1 name
      obtain ⟨keeps, names'⟩ := absent other outside.2
      rw [keeps, names']
      exact others other apart
    · intro other value mem
      cases mem_cons.mp mem with
      | inl here =>
        obtain rfl : other = kind :=
          policyKinds_injective ((congrArg Prod.fst here).trans name.symm)
        obtain ⟨keeps, names'⟩ := absent other (name ▸ names.1)
        rw [keeps, names', role, ← here]
        rw [role, ← here] at stranger
        exact ⟨rfl, stranger⟩
      | inr later =>
        rw [← roles]
        exact present other value later
    · rw [rest, same]

theorem present_bind_policyBuildRole (named : List (Bytes × Json)) (value : Json) :
    value.present.bind (policyBuildRole named) = policyBuildRole named value := by
  cases value <;> rfl

/-- Each kind of anonymous client has the role that the file names for it. -/
theorem policyBuildAnonymous_ok {p q : Policy} (distinct : value.Distinct) (none_ : ∀ kind, p.anonymous kind = none)
    (built : policyBuildAnonymous named p value = .ok q) : (∀ kind, q.anonymous kind =
        (jbGet (some value) (policyKinds kind)).bind (policyBuildRole named)) ∧
      (∀ kind, ∀ r ∈ q.anonymous kind, q.strangers kind = policyStranger p.roles kind r) ∧
      q = { p with anonymous := q.anonymous, strangers := q.strangers } := by
  cases value with
  | null =>
    obtain rfl := Except.ok.inj built
    exact ⟨none_, by simp [none_], rfl⟩
  | object members =>
    obtain ⟨absent, present, rest⟩ := policyBuildStrangers_ok distinct.names built
    refine ⟨?_, ?_, rest⟩
    · intro kind
      rw [jbGet_eq_present]
      cases here : members.find? fun member => member.1 = policyKinds kind with
      | none =>
        rw [(absent kind _).1, none_]
        · rfl
        · rintro mem
          obtain ⟨member, mem, name⟩ := mem_map.mp mem
          exact absurd name (by simpa using List.find?_eq_none.mp here member mem)
      | some member =>
        have name : member.1 = policyKinds kind := by simpa using List.find?_some here
        have mem : (policyKinds kind, member.2) ∈ members := name ▸ mem_of_find?_eq_some here
        rw [(present kind _ mem).1]
        exact (present_bind_policyBuildRole named member.2).symm
    · intro kind r settled
      by_cases mem : policyKinds kind ∈ members.map Prod.fst
      · obtain ⟨⟨name, value⟩, mem, here⟩ := mem_map.mp mem
        exact (present kind value (here ▸ mem)).2 r settled
      · rw [(absent kind mem).1, none_] at settled
        cases settled
  | bool | number | string | array => cases built

/-! ## The policy of the file -/

/-- Reading a role does not change its name. -/
theorem policyBuildRoleOne_who {reg : Registry} {upstream : ToolMask} {role : Bytes × Json}
    {g : PolicyGrant} (built : policyBuildRoleOne reg upstream role = .ok g) : g.who = ascii "role " ++ role.1 := by
  have member {name : Bytes} {r r' : PolicyGrant} {member : Bytes × Json}
      (read : policyBuildMember reg upstream name r member = .ok r') : r'.who = r.who := by
    unfold policyBuildMember at read
    dsimp only at read
    split at read
    · unfold policyBuildTools at read
      split at read
      · split at read
        · obtain ⟨mask, -, rfl⟩ := except_map_eq_ok read
          rfl
        · obtain ⟨mask, -, rfl⟩ := except_map_eq_ok read
          rfl
      · cases read
    · split at read
      · cases read
      · split at read
        · obtain rfl := Except.ok.inj read
          rfl
        · cases read
  have members {name : Bytes} {l : List (Bytes × Json)} {r r' : PolicyGrant}
      (read : l.foldlM (policyBuildMember reg upstream name) r = .ok r') : r'.who = r.who := by
    induction l generalizing r with
    | nil =>
      obtain rfl := Except.ok.inj read
      rfl
    | cons _ l ih =>
      rw [foldlM_cons] at read
      obtain ⟨r'', first, read⟩ := bind_eq_ok.mp read
      exact (ih read).trans (member first)
  obtain ⟨name, value⟩ := role
  unfold policyBuildRoleOne at built
  dsimp only at built
  split at built
  · cases built
  · split at built
    · obtain ⟨r, read, built⟩ := bind_eq_ok.mp built
      obtain rfl := Except.ok.inj built
      have kept := members read
      dsimp only
      split <;> exact kept
    · cases built

theorem policyBuildFile_chartered {p : Policy} (file : policyFile s = true)
    (built : policyBuildFile host subgid s = .ok p) :
    Chartered host s { p with allowed := s.allowed, roles := s.limited p.roles } := by
  obtain ⟨roles, made, built⟩ := bind_eq_ok.mp built
  obtain ⟨tokens, identities, built⟩ := bind_eq_ok.mp built
  obtain ⟨groups, grouped, built⟩ := bind_eq_ok.mp built
  obtain ⟨anonymous, strangers, same⟩ :=
    policyBuildAnonymous_ok (s.distinct_part _) (fun _ => rfl) built
  obtain ⟨sorted, once, placed⟩ := policyBuildIdentities_sorted identities
  rw [same]
  constructor
  case allowed =>
    intro role mem
    obtain ⟨r, -, rfl⟩ := mem_map.mp mem
    simp [BitVec.and_assoc]
  case sorted => exact sorted
  case once => exact once
  case tokens =>
    intro digest who role
    exact policyBuildIdentities_iff made identities file
  case placed =>
    intro t mem
    obtain ⟨value, found⟩ := placed t mem
    exact policyBuildRole_lt made found
  case anonymous =>
    intro kind
    rw [PolicySetting.anonymous, if_pos file]
    dsimp only
    rw [anonymous]
    cases jbGet (some (s.part (ascii "anonymous"))) (policyKinds kind) with
    | none => rfl
    | some value => exact named_eq made value
  case strangers =>
    intro kind role settled
    rw [PolicySetting.anonymous, if_pos file] at settled
    have here := anonymous kind
    cases value : jbGet (some (s.part (ascii "anonymous"))) (policyKinds kind) with
    | none =>
      rw [value] at settled
      cases settled
    | some value' =>
      rw [value, named_eq made value'] at settled
      obtain ⟨r, found, limited⟩ := Option.bind_eq_some_iff.mp settled
      rw [value, Option.bind_some, found] at here
      rw [strangers kind r here]
      rw [PolicySetting.limited, List.getElem?_map] at limited
      obtain ⟨g, here, rfl⟩ := Option.map_eq_some_iff.mp limited
      obtain ⟨entry, -, read⟩ := exists_mem_of_forall₂ (forall₂_policyBuildRoles made).flip (mem_of_getElem? here)
      have named : g.who ≠ [] := by
        rw [policyBuildRoleOne_who read]
        exact append_ne_nil_of_left_ne_nil (by decide) _
      rw [strangerWho, if_neg named, policyStranger, here]
      rfl
  case settled =>
    intro kind r settled
    dsimp only at settled
    rw [anonymous kind] at settled
    obtain ⟨value, -, found⟩ := Option.bind_eq_some_iff.mp settled
    exact policyBuildRole_lt made found
  case groups => exact policyBuildGroups_eq made grouped file
  case unixToken => simp [file]

/-! ## Policies -/

theorem policyAll_own {reg : Registry} {token : Option Bytes} : (policyBuildOwn host reg token).roles =
      [{ tools := policyAll reg, upstream := policyAll reg, metrics := true },
        { tools := policyAll reg, upstream := policyAll reg }] := by
  cases token <;> rfl

theorem policyBuildOwn_chartered (own : policyFile s = false) :
    Chartered host s { policyBuildOwn host s.reg (askaiToken host) with
      allowed := s.allowed
      roles := s.limited (policyBuildOwn host s.reg (askaiToken host)).roles } := by
  have roles : s.limited (policyBuildOwn host s.reg (askaiToken host)).roles =
      [s.everything true, s.everything false] := by
    rw [policyAll_own]
    rfl
  have proves {digest who : Bytes} {role : PolicyGrant} : Proves host s digest who role ↔
      ∃ token, askaiToken host = some token ∧ host.sha256 token = digest ∧
        ascii "identity ASKAI_TOKEN" = who ∧ s.everything true = role := by
    constructor
    · intro proves
      cases proves with
      | identity file =>
        rw [own] at file
        cases file
      | @askai token _ set => exact ⟨token, set, rfl, rfl, rfl⟩
    · rintro ⟨token, set, rfl, rfl, rfl⟩
      exact .askai own set
  rw [roles]
  constructor
  case allowed => simp [PolicySetting.everything, BitVec.and_assoc]
  case strangers =>
    intro kind role settled
    rw [PolicySetting.anonymous, own] at settled
    have unnamed : role.who = [] := by
      simp only [Bool.false_eq_true, if_false] at settled
      split at settled
      · cases settled
      · obtain rfl := Option.some.inj settled
        rfl
    rw [strangerWho, if_pos unnamed]
    cases askaiToken host <;> rfl
  case anonymous =>
    intro kind
    rw [PolicySetting.anonymous, own]
    cases askaiToken host with
    | none => cases kind <;> rfl
    | some token => rfl
  case groups =>
    rw [PolicySetting.groups, own]
    cases askaiToken host <;> rfl
  case unixToken =>
    rw [own]
    cases askaiToken host <;> rfl
  case settled =>
    intro kind r settled
    cases token : askaiToken host with
    | none =>
      rw [token] at settled
      cases kind <;> cases settled <;> simp
    | some token' =>
      rw [token] at settled
      cases settled
  case tokens =>
    intro digest who role
    rw [proves]
    cases askaiToken host with
    | none => simp [policyBuildOwn]
    | some token => simp [policyBuildOwn]
  case sorted =>
    cases askaiToken host with
    | none => exact .nil
    | some token => exact pairwise_singleton _ _
  case once => cases askaiToken host <;> simp [policyBuildOwn]
  case placed => cases askaiToken host <;> simp [policyBuildOwn]

/-- A policy under other keys keeps to its settings, with the principals of its key. -/
theorem Chartered.keyed {p : Policy} {key : Bytes} (kept : Chartered host s p)
    (keyed : policyTokenPrincipals host key p.tokens = some tokens) :
    Chartered host s { p with key, tokens } ∧ Keyed host { p with key, tokens } := by
  have each : List.Forall₂ (fun t t' => t'.digest = t.digest ∧ t'.who = t.who ∧ t'.role = t.role ∧
      policyPrincipalIdentity host key t'.who = some t'.principal) p.tokens tokens := by
    clear kept
    generalize p.tokens = old at keyed
    induction old generalizing tokens with
    | nil =>
      obtain rfl := Option.some.inj keyed
      exact .nil
    | cons t old ih =>
      rw [policyTokenPrincipals] at keyed
      split at keyed
      · cases keyed
      · rename_i principal made
        obtain ⟨rest, made', rfl⟩ := Option.map_eq_some_iff.mp keyed
        exact .cons ⟨rfl, rfl, rfl, made⟩ (ih made')
  have digests : tokens.map PolicyToken.digest = p.tokens.map PolicyToken.digest := by
    clear keyed kept
    generalize p.tokens = old at each
    induction each with
    | nil => rfl
    | cons head _ ih => rw [map_cons, map_cons, ih, head.1]
  refine ⟨{ kept with sorted := ?_, once := ?_, tokens := ?_, placed := ?_ }, ?_⟩
  · have sorted := kept.sorted
    rw [SortedBy, ← pairwise_map (f := PolicyToken.digest) (R := fun a b => compare a b ≠ .gt)] at sorted ⊢
    rwa [digests]
  · rw [digests]
    exact kept.once
  · intro digest who role
    rw [kept.tokens]
    constructor
    · rintro ⟨t, mem, rfl, rfl, role⟩
      obtain ⟨t', mem, digest, who, same, -⟩ := exists_mem_of_forall₂ each mem
      exact ⟨t', mem, digest, who, same ▸ role⟩
    · rintro ⟨t', mem, rfl, rfl, role⟩
      obtain ⟨t, mem, digest, who, same, -⟩ := exists_mem_of_forall₂ each.flip mem
      exact ⟨t, mem, digest.symm, who.symm, same ▸ role⟩
  · intro t' mem
    obtain ⟨t, mem, -, -, same, -⟩ := exists_mem_of_forall₂ each.flip mem
    rw [same]
    exact kept.placed t mem
  · intro t' mem
    obtain ⟨t, -, -, -, -, principal⟩ := exists_mem_of_forall₂ each.flip mem
    exact principal

/-- Every policy keeps to its settings. -/
theorem Built.chartered {p : Policy} (built : Built host s p) : Chartered host s p ∧ Keyed host p := by
  induction built with
  | create created =>
    obtain ⟨-, -, created⟩ := bind_eq_ok.mp created
    obtain ⟨subgid, -, created⟩ := bind_eq_ok.mp created
    obtain ⟨p, built, created⟩ := bind_eq_ok.mp created
    split at created
    · cases created
    · rename_i q keyed
      obtain rfl := Except.ok.inj created
      obtain ⟨tokens, made, rfl⟩ := Option.map_eq_some_iff.mp keyed
      have kept : Chartered host s { p with allowed := s.allowed, roles := s.limited p.roles } := by
        unfold policyBuild at built
        split at built
        · rename_i file
          exact policyBuildFile_chartered file built
        · rename_i own
          obtain rfl := Except.ok.inj built
          exact policyBuildOwn_chartered (by simpa using own)
      exact kept.keyed made
  | @key p _ key _ keyed ih =>
    obtain ⟨tokens, made, rfl⟩ := Option.map_eq_some_iff.mp keyed
    have made : policyTokenPrincipals host key p.tokens = some tokens := made
    exact ih.1.keyed made

end Askai
