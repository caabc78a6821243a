import Askai.Library.Lists
import Askai.Policy.Model

/-!
# What a configuration says

Who the clients of a configuration are and what their roles grant, in its own terms: roles go by their
names, and no token, group or kind of client by a place in a table.  Every policy that is made of the
configuration keeps to it.
-/

namespace Askai

open Library List

/-! ## The terms of a configuration -/

/-- What the role of a name grants to a client. -/
def PolicySetting.role (s : PolicySetting) (name : Bytes) : Option PolicyGrant := do
  let role ← (policyMembers (s.part (ascii "roles"))).find? fun role => role.1 = name
  let g ← (policyBuildRoleOne s.reg s.upstream role).toOption
  return { g with tools := g.tools &&& s.allowed }

/-- What the role grants that a value of the configuration names. -/
def PolicySetting.named (s : PolicySetting) (value : Option Json) : Option PolicyGrant := do
  let name ← jbView value
  s.role (cstr name)

/-- The roles of the program's own policy. -/
def PolicySetting.everything (s : PolicySetting) (metrics : Bool) : PolicyGrant where
  tools := policyAll s.reg &&& s.allowed
  upstream := policyAll s.reg
  metrics := metrics

/-- A token of the digest proves the identity, which has the role. -/
inductive Proves (host : PolicyHost) (s : PolicySetting) : Bytes → Bytes → PolicyGrant → Prop
  | identity {who digest : Bytes} {id spec : Json} {specs : List Json} {role : PolicyGrant}
      (file : policyFile s = true) (member : (who, id) ∈ policyMembers (s.part (ascii "identities")))
      (named : s.named (jbGet (some id) (ascii "role")) = some role)
      (tokens : jbGet (some id) (ascii "tokens") = some (.array specs)) (of_ : spec ∈ specs)
      (read : policyBuildToken host who spec = .ok digest) :
      Proves host s digest (ascii "identity " ++ who) role
  | askai {token : Bytes} (own : policyFile s = false) (set : askaiToken host = some token) :
      Proves host s (host.sha256 token) (ascii "identity ASKAI_TOKEN") (s.everything true)

/-- The role of a client that shows no token, by its kind. -/
def PolicySetting.anonymous (host : PolicyHost) (s : PolicySetting) (kind : PolicyKind) : Option PolicyGrant :=
  if policyFile s then s.named (jbGet (some (s.part (ascii "anonymous"))) (policyKinds kind))
  else if (askaiToken host).isSome then none
  else some (s.everything (kind ≠ .remote))

/-- How the log names an anonymous client over TCP. -/
def strangerWho (kind : PolicyKind) (role : PolicyGrant) : Bytes :=
  if role.who = [] then []
  else ascii "anonymous " ++ policyKinds kind ++ ascii " (" ++ role.who ++ ascii ")"

/-- The groups that have a role, in the order of the configuration. -/
def PolicySetting.groups (host : PolicyHost) (s : PolicySetting) : List (Nat × PolicyGrant) :=
  if policyFile s then
    (policyMembers (s.part (ascii "unix-groups"))).filterMap fun (key, value) => do
      let gid ← (policyBuildGid host key).toOption
      let role ← s.named (some value)
      return (gid, role)
  else []

/-- A policy made with these settings, with whatever keys it was given since. -/
inductive Built (host : PolicyHost) (s : PolicySetting) : Policy → Prop
  | create {p : Policy} (created : policyCreate host s = .ok p) : Built host s p
  | key {p q : Policy} {key : Bytes} (built : Built host s p) (keyed : policyKey host key p = some q) :
      Built host s q

/-- The policy keeps to what its settings say. -/
structure Chartered (host : PolicyHost) (s : PolicySetting) (p : Policy) : Prop where
  allowed : ∀ role ∈ p.roles, role.tools &&& s.allowed = role.tools
  sorted : SortedBy PolicyToken.digest p.tokens
  once : (p.tokens.map PolicyToken.digest).Nodup
  tokens : ∀ digest who role, Proves host s digest who role ↔
    ∃ t ∈ p.tokens, t.digest = digest ∧ t.who = who ∧ p.roles[t.role]? = some role
  placed : ∀ t ∈ p.tokens, t.role < p.roles.length
  anonymous : ∀ kind, s.anonymous host kind = (p.anonymous kind).bind fun r => p.roles[r]?
  strangers : ∀ kind role, s.anonymous host kind = some role → p.strangers kind = strangerWho kind role
  settled : ∀ kind, ∀ r ∈ p.anonymous kind, r < p.roles.length
  groups : (s.groups host).map (fun group => (group.1, some group.2)) =
    p.groups.map fun g => (g.gid, p.roles[g.role]?)
  unixToken : p.unixToken = (!policyFile s && (askaiToken host).isSome)

/-- The principals of the tokens are those of the policy's key. -/
def Keyed (host : PolicyHost) (p : Policy) : Prop :=
  ∀ t ∈ p.tokens, policyPrincipalIdentity host p.key t.who = some t.principal

/-! ## Members of the file -/

variable {members : List (Bytes × Json)} {value : Json} {roles : List PolicyGrant} {tokens : List PolicyToken}

theorem Json.Distinct.names (distinct : (Json.object members).Distinct) : (members.map Prod.fst).Nodup := by
  cases distinct
  assumption

theorem Json.Distinct.each (distinct : (Json.object members).Distinct) : ∀ member ∈ members, member.2.Distinct := by
  cases distinct
  assumption

theorem Json.present_eq_some {value value' : Json} : value.present = some value' ↔ value = value' ∧ value' ≠ .null := by
  cases value <;> simp [Json.present, eq_comm] <;> rintro rfl <;> simp

theorem find?_member (names : (members.map Prod.fst).Nodup) {key : Bytes} (mem : (key, value) ∈ members) :
    members.find? (fun member => member.1 = key) = some (key, value) := by
  induction members with
  | nil => cases mem
  | cons member members ih =>
    rw [map_cons, nodup_cons] at names
    cases mem with
    | head => simp
    | tail _ mem =>
      have other : member.1 ≠ key := by
        rintro rfl
        exact names.1 (mem_map.mpr ⟨_, mem, rfl⟩)
      rw [List.find?_cons_of_neg (by simpa using other)]
      exact ih names.2 mem

theorem jbGet_object (names : (members.map Prod.fst).Nodup) {key : Bytes} :
    jbGet (some (.object members)) key = some value ↔ (key, value) ∈ members ∧ value ≠ .null := by
  simp only [jbGet, jbMember, Option.join_eq_some_iff, Option.map_eq_some_iff, Json.present_eq_some]
  constructor
  · rintro ⟨⟨key', value'⟩, found, rfl, real⟩
    obtain rfl : key' = key := by simpa using List.find?_some found
    exact ⟨mem_of_find?_eq_some found, real⟩
  · rintro ⟨mem, real⟩
    exact ⟨(key, value), find?_member names mem, rfl, real⟩

theorem PolicySetting.distinct_part (s : PolicySetting) (key : Bytes) : (s.part key).Distinct := by
  rw [part]
  cases here : jbGet s.file key with
  | none => exact .null
  | some value =>
    cases file : s.file with
    | none =>
      rw [file] at here
      cases here
    | some object =>
      have distinct := s.distinct object file
      rw [file] at here
      cases object with
      | object members => exact distinct.each _ ((jbGet_object distinct.names).mp here).1
      | null | bool | number | string | array => cases here

theorem policyMembers_distinct (distinct : value.Distinct) :
    ((policyMembers value).map Prod.fst).Nodup ∧ ∀ member ∈ policyMembers value, member.2.Distinct := by
  cases distinct with
  | object names each => exact ⟨names, each⟩
  | null | bool | number | string | array => simp [policyMembers]

/-! ## Roles by name -/

/-- The roles that the file's roles give to clients. -/
def PolicySetting.limited (s : PolicySetting) (roles : List PolicyGrant) : List PolicyGrant :=
  roles.map fun r => { r with tools := r.tools &&& s.allowed }

theorem forall₂_policyBuildRoles {reg : Registry} {upstream : ToolMask}
    (built : policyBuildRoles reg upstream value = .ok roles) :
    List.Forall₂ (fun role g => policyBuildRoleOne reg upstream role = .ok g) (policyMembers value) roles := by
  cases value with
  | null =>
    obtain rfl := Except.ok.inj built
    exact .nil
  | object members => exact forall₂_of_mapM built
  | bool | number | string | array => cases built

/-- A role's place in the file is its place in the policy. -/
theorem named_eq {s : PolicySetting}
    (built : policyBuildRoles s.reg s.upstream (s.part (ascii "roles")) = .ok roles) (value : Json) :
    s.named (some value) = (policyBuildRole (policyMembers (s.part (ascii "roles"))) value).bind
        fun r => (s.limited roles)[r]? := by
  have limited : List.Forall₂ (fun role g =>
      ((policyBuildRoleOne s.reg s.upstream role).toOption.map
        fun r => { r with tools := r.tools &&& s.allowed }) = some g)
      (policyMembers (s.part (ascii "roles"))) (s.limited roles) := by
    rw [PolicySetting.limited, forall₂_map_right_iff]
    apply List.Forall₂.imp _ (forall₂_policyBuildRoles built)
    intro role g built
    rw [built]
    rfl
  rw [PolicySetting.named, policyBuildRole]
  cases jbView (some value) with
  | none => rfl
  | some name =>
    have found := find?_bind_of_forall₂ limited fun role => role.1 = cstr name
    rw [← found]
    simp only [PolicySetting.role, Option.bind_eq_bind, Option.bind_some]
    cases (policyMembers (s.part (ascii "roles"))).find? fun role => role.1 = cstr name with
    | none => rfl
    | some role =>
      simp only [Option.bind_some]
      cases (policyBuildRoleOne s.reg s.upstream role).toOption <;> rfl

theorem policyBuildRole_lt {s : PolicySetting}
    (built : policyBuildRoles s.reg s.upstream (s.part (ascii "roles")) = .ok roles)
    {r : Nat} (found : policyBuildRole (policyMembers (s.part (ascii "roles"))) value = some r) :
    r < (s.limited roles).length := by
  have length : (policyMembers (s.part (ascii "roles"))).length = (s.limited roles).length := by
    rw [PolicySetting.limited, length_map]
    exact (forall₂_policyBuildRoles built).length_eq
  rw [policyBuildRole] at found
  cases name : jbView (some value) with
  | none =>
    rw [name] at found
    cases found
  | some name' =>
    rw [name] at found
    obtain ⟨bound, -⟩ := List.findIdx?_eq_some_iff_getElem.mp found
    rwa [← length]

/-! ## Identities -/

theorem jbView_present (value : Json) : jbView value.present = jbView (some value) := by
  cases value <;> rfl

theorem jbGet_eq_present (members : List (Bytes × Json)) (key : Bytes) : jbGet (some (.object members)) key =
      (((members.find? fun member => member.1 = key).map Prod.snd).getD .null).present := by
  rw [jbGet, jbMember]
  cases members.find? fun member => member.1 = key <;> rfl

theorem policyIdentityMembers_ok {who : Bytes} (names : (members.map Prod.fst).Nodup) {found found' : Json × Json}
    (read : policyIdentityMembers who members found = .ok found') :
    found'.1 = ((members.find? fun member => member.1 = ascii "role").map Prod.snd).getD found.1 ∧
      found'.2 = ((members.find? fun member => member.1 = ascii "tokens").map Prod.snd).getD found.2 := by
  have apart : ascii "role" ≠ ascii "tokens" := by decide
  have last {key : Bytes} {members : List (Bytes × Json)} (absent : key ∉ members.map Prod.fst) :
      members.find? (fun member => member.1 = key) = none := by
    apply List.find?_eq_none.mpr
    intro member mem same
    exact absent (mem_map.mpr ⟨member, mem, by simpa using same⟩)
  induction members generalizing found with
  | nil =>
    obtain rfl := Except.ok.inj read
    exact ⟨rfl, rfl⟩
  | cons member members ih =>
    obtain ⟨key, val⟩ := member
    rw [map_cons, nodup_cons] at names
    rw [policyIdentityMembers] at read
    split at read
    · rename_i role
      obtain ⟨first, second⟩ := ih names.2 read
      rw [first, second, last (role ▸ names.1)]
      simp [role, apart]
    · rename_i other
      split at read
      · rename_i tokens
        obtain ⟨first, second⟩ := ih names.2 read
        subst tokens
        rw [first, second, last names.1]
        simp [apart.symm]
      · cases read

/-- What an identity that is accepted consists of. -/
theorem policyBuildIdentity_cases {host : PolicyHost} {roles : List (Bytes × Json)} {who : Bytes}
    {id : Json} (built : policyBuildIdentity host roles (who, id) = .ok tokens) :
    ∃ members role specs r, id = .object members ∧
      policyIdentityMembers who members (.null, .null) = .ok (role, .array specs) ∧
      policyBuildRole roles role = some r ∧
      List.Forall₂ (fun spec t => ∃ digest, policyBuildToken host who spec = .ok digest ∧
        t = { digest, who := ascii "identity " ++ who, role := r }) specs tokens := by
  cases id with
  | null | bool | number | string | array =>
    simp only [policyBuildIdentity] at built
    split at built <;> cases built
  | object members =>
    simp only [policyBuildIdentity] at built
    split at built
    · cases built
    · obtain ⟨⟨role, listed⟩, read, built⟩ := bind_eq_ok.mp built
      dsimp only at built
      split at built
      · cases built
      · rename_i r found
        split at built
        · cases built
        · cases built
        · rename_i specs _
          refine ⟨members, role, specs, r, rfl, read, found, ?_⟩
          apply List.Forall₂.imp _ (forall₂_of_mapM built)
          intro spec t made
          obtain ⟨digest, token, made⟩ := bind_eq_ok.mp made
          exact ⟨digest, token, (Except.ok.inj made).symm⟩
        · cases built

/-- The tokens of an identity prove it, with its role. -/
theorem policyBuildIdentity_iff {host : PolicyHost} {s : PolicySetting}
    (made : policyBuildRoles s.reg s.upstream (s.part (ascii "roles")) = .ok roles) {who : Bytes}
    {id : Json} (distinct : id.Distinct)
    (built : policyBuildIdentity host (policyMembers (s.part (ascii "roles"))) (who, id) = .ok tokens)
    {digest who' : Bytes} {role : PolicyGrant} :
    (∃ t ∈ tokens, t.digest = digest ∧ t.who = who' ∧ (s.limited roles)[t.role]? = some role) ↔
      who' = ascii "identity " ++ who ∧ s.named (jbGet (some id) (ascii "role")) = some role ∧
        ∃ specs spec, jbGet (some id) (ascii "tokens") = some (.array specs) ∧ spec ∈ specs ∧
          policyBuildToken host who spec = .ok digest := by
  obtain ⟨members, value, specs, r, rfl, read, found, each⟩ := policyBuildIdentity_cases built
  obtain ⟨first, second⟩ := policyIdentityMembers_ok distinct.names read
  have roleValue : s.named (jbGet (some (.object members)) (ascii "role")) = (s.limited roles)[r]? := by
    rw [jbGet_eq_present, ← first]
    dsimp only
    have same : s.named value.present = s.named (some value) := by
      rw [PolicySetting.named, jbView_present]
      rfl
    rw [same, named_eq made, found, Option.bind_some]
  have tokensValue : jbGet (some (.object members)) (ascii "tokens") = some (.array specs) := by
    rw [jbGet_eq_present, ← second]
    rfl
  constructor
  · rintro ⟨t, mem, rfl, rfl, role⟩
    obtain ⟨spec, of_, digest, token, rfl⟩ := exists_mem_of_forall₂ each.flip mem
    exact ⟨rfl, roleValue.trans role, specs, spec, tokensValue, of_, token⟩
  · rintro ⟨rfl, role, specs', spec, listed, mem, token⟩
    obtain rfl : specs = specs' := Json.array.inj (Option.some.inj (tokensValue.symm.trans listed))
    obtain ⟨t, mem, digest', token', rfl⟩ := exists_mem_of_forall₂ each mem
    obtain rfl : digest' = digest := Except.ok.inj (token'.symm.trans token)
    exact ⟨_, mem, rfl, rfl, roleValue.symm.trans role⟩

theorem policyBuildIdentity_role {host : PolicyHost} {roles : List (Bytes × Json)} {identity : Bytes × Json}
    (built : policyBuildIdentity host roles identity = .ok tokens) {t : PolicyToken} (mem : t ∈ tokens) :
    ∃ value, policyBuildRole roles value = some t.role := by
  obtain ⟨members, role, specs, r, -, -, found, each⟩ := policyBuildIdentity_cases built
  obtain ⟨spec, -, digest, -, rfl⟩ := exists_mem_of_forall₂ each.flip mem
  exact ⟨role, found⟩

/-! ## Tokens by digest -/

theorem once_of_policySameTokens
    (sorted : SortedBy PolicyToken.digest tokens) (apart : policySameTokens tokens = false) :
    (tokens.map PolicyToken.digest).Nodup := by
  have strict : tokens.Pairwise fun a b => compare a.digest b.digest = .lt := by
    induction tokens with
    | nil => exact .nil
    | cons a tokens ih =>
      cases tokens with
      | nil => exact pairwise_singleton _ _
      | cons b tokens =>
        rw [policySameTokens, Bool.or_eq_false_iff, decide_eq_false_iff_not] at apart
        have rest := ih (pairwise_cons.mp sorted).2 apart.2
        have here := (pairwise_cons.mp sorted).1 b mem_cons_self
        have first : compare a.digest b.digest = .lt := by
          cases order : compare a.digest b.digest with
          | lt => rfl
          | eq => exact absurd (Std.LawfulEqOrd.eq_of_compare order) apart.1
          | gt => exact absurd order here
        rw [pairwise_cons]
        refine ⟨?_, rest⟩
        intro c mem
        cases mem with
        | head => exact first
        | tail _ mem => exact Std.TransCmp.lt_trans first ((pairwise_cons.mp rest).1 c mem)
  rw [List.Nodup, pairwise_map]
  apply List.Pairwise.imp _ strict
  intro a b less same
  have self : compare b.digest b.digest = .eq := Std.ReflOrd.compare_self
  rw [same, self] at less
  cases less

end Askai
