import Askai.Library.Bsearch
import Askai.Util.Json
import Askai.Util.Text

/-!
# Identities and roles

The model of `policy.c`: the policy that `policy_create` makes of a configuration file or of its own,
and what `policy_grant` lets a client do under it.
-/

namespace Askai

open Library

/-! ## The parts of a policy -/

/-- `tool_mask`. -/
abbrev ToolMask := BitVec 128

/-- `struct registry`, of which a policy reads the names of the tools that a role can grant. -/
structure Registry where
  granted : List Bytes
  room : granted.length ≤ 128

/-- `registry_find` among the tools that a role can grant. -/
def registryFind (reg : Registry) (name : Bytes) : Nat :=
  reg.granted.findIdx (· = name)

/-- `enum policy_kind`. -/
inductive PolicyKind where
  | loopback | remote | unix
  deriving DecidableEq, Repr

/-- `policy_kinds`. -/
def policyKinds : PolicyKind → Bytes
  | .loopback => ascii "loopback"
  | .remote => ascii "remote"
  | .unix => ascii "unix"

/-- The index of a name in `policy_kinds`. -/
def policyKind (key : Bytes) : Option PolicyKind :=
  [PolicyKind.loopback, .remote, .unix].find? fun kind => policyKinds kind = key

/-- `struct policy_grant`. -/
structure PolicyGrant where
  tools : ToolMask := 0
  upstream : ToolMask := 0
  who : Bytes := []
  principal : UInt64 := 0
  metrics : Bool := false
  deriving DecidableEq, Repr

/-- `struct policy_token`. -/
structure PolicyToken where
  digest : Bytes
  who : Bytes
  principal : UInt64 := 0
  role : Nat
  deriving DecidableEq, Repr

/-- `struct policy_gid`. -/
structure PolicyGid where
  gid : Nat
  role : Nat
  deriving DecidableEq, Repr

/-- `struct policy`, without what only `policy_admit_uid` and the log read.  No role is `none`. -/
structure Policy where
  allowed : ToolMask := 0
  /-- By digest. -/
  tokens : List PolicyToken := []
  roles : List PolicyGrant := []
  /-- In the order of the configuration. -/
  groups : List PolicyGid := []
  anonymous : PolicyKind → Option Nat := fun _ => none
  strangers : PolicyKind → Bytes := fun _ => []
  key : Bytes := List.replicate 32 0
  unixToken : Bool := false

/-- Why no policy is made. -/
inductive PolicyError where
  | unreadable (path : Bytes)
  | rolesObject
  | roleName (name : Bytes)
  | roleObject (name : Bytes)
  | toolsArray (name key : Bytes)
  | noTool (name : Bytes) (value : Json) (up : Bool)
  | roleMember (name key : Bytes)
  | metrics (name : Bytes)
  | identitiesObject
  | identityName (who : Bytes)
  | identityObject (who : Bytes)
  | identityMember (who key : Bytes)
  | identityRole (who : Bytes) (role : Json)
  | tokensArray (who : Bytes)
  | tokens (who : Bytes)
  | tokenHex (who : Bytes)
  | tokenForm (who : Bytes)
  | tokenEnv (who : Bytes)
  | tokenUnset (who name : Bytes)
  | sameTokens
  | groupsObject
  | groupRole (key : Bytes) (role : Json)
  | groupLookup (key : Bytes)
  | groupOverflow (key : Bytes) (gid : Nat)
  | groupSubordinate (key : Bytes) (gid : Nat)
  | anonymousObject
  | anonymousMember (key : Bytes)
  | anonymousRole (kind : Bytes) (role : Json)
  | principals

/-- What a policy is made with that is not in the file: the environment, the digests, and what the
system says of its users. -/
structure PolicyHost where
  getenv : Bytes → Option Bytes
  sha256 : Bytes → Bytes
  /-- HMAC-SHA-256 of a key and a text: none if `HMAC()` fails. -/
  hmac : Bytes → Bytes → Option Bytes
  /-- The loop of `getgrnam_r` in `policy_build_gid`. -/
  getgrnam : Bytes → Except PolicyError Nat
  /-- `policy_build_ranges` of `/etc/subuid`. -/
  subuid : Except PolicyError Unit
  /-- `policy_build_ranges` of `/etc/subgid`, as `policy_ranges_have` answers for them. -/
  subgid : Except PolicyError (Nat → Bool)
  /-- `policy_read_overflow`. -/
  overflowGid : Nat

/-! ## Principals -/

/-- `util_be_get`. -/
def utilBeGet (from_ : Bytes) : UInt64 :=
  from_.foldl (fun v b => v <<< 8 ||| b.toUInt64) 0

/-- `POLICY_IDENTITY`. -/
def policyIdentity : UInt64 := (1 : UInt64) <<< 62

/-- `policy_principal_of`: none for `EIO`. -/
def policyPrincipalOf (host : PolicyHost) (key : Bytes) (tag : UInt64) (text : Bytes) : Option UInt64 :=
  match host.hmac key text with
  | none => none
  | some md =>
    if md.length < 8 then none
    else
      let h := utilBeGet (md.take 8) &&& (policyIdentity - 1) ||| tag
      some (h + if h = 0 then 1 else 0)

/-- `policy_principal_identity`: none for its errors. -/
def policyPrincipalIdentity (host : PolicyHost) (key who : Bytes) : Option UInt64 :=
  if ¬(ascii "identity ") <+: who ∨ 73 < who.length then none
  else policyPrincipalOf host key policyIdentity (who.set 8 colon)

/-- The loop of `policy_principals`. -/
def policyTokenPrincipals (host : PolicyHost) (key : Bytes) : List PolicyToken → Option (List PolicyToken)
  | [] => some []
  | t :: tokens =>
    match policyPrincipalIdentity host key t.who with
    | none => none
    | some principal =>
      (policyTokenPrincipals host key tokens).map ({ t with principal } :: ·)

/-- `policy_principals`. -/
def policyPrincipals (host : PolicyHost) (policy : Policy) : Option Policy :=
  (policyTokenPrincipals host policy.key policy.tokens).map ({ policy with tokens := · })

/-- `policy_key`, of a policy that has one reference. -/
def policyKey (host : PolicyHost) (key : Bytes) (policy : Policy) : Option Policy :=
  policyPrincipals host { policy with key }

/-- `policy_principal_uid`. -/
def policyPrincipalUid (host : PolicyHost) (policy : Policy) (uid : UInt32) : Option UInt64 :=
  policyPrincipalOf host policy.key 0 (ascii "uid:" ++ utilDecimal uid.toNat)

/-! ## The roles of the file -/

/-- A byte of the name of a role or an identity. -/
def policyNameByte (c : UInt8) : Bool :=
  (65 ≤ c && c ≤ 90) || (97 ≤ c && c ≤ 122) || (48 ≤ c && c ≤ 57) || c = 95 || c = 46 || c = 64 || c = 45

/-- `policy_name_len`. -/
def policyNameLen (name : Bytes) : Nat :=
  let n := (name.takeWhile policyNameByte).length
  if n ≤ 64 ∧ n = name.length then n else 0

/-- `policy_build_role`, with the members of the file's roles. -/
def policyBuildRole (roles : List (Bytes × Json)) (name : Json) : Option Nat :=
  match jbView (some name) with
  | none => none
  | some s => roles.findIdx? fun role => role.1 = cstr s

/-- `policy_all`. -/
def policyAll (reg : Registry) : ToolMask :=
  if reg.granted.length < 128 then (1 : ToolMask) <<< reg.granted.length - 1 else BitVec.allOnes 128

/-- The loop of `policy_build_tools`. -/
def policyBuildTool (reg : Registry) (offered : ToolMask) (name : Bytes) (up : Bool) :
    List Json → ToolMask → Except PolicyError ToolMask
  | [], mask => .ok mask
  | v :: list, mask =>
    let k := registryFind reg ((jbView (some v)).getD [])
    if k = reg.granted.length ∨ offered.getLsbD k = false then .error (.noTool name v up)
    else policyBuildTool reg offered name up list (mask ||| (1 : ToolMask) <<< k)

/-- `policy_build_tools`. -/
def policyBuildTools (reg : Registry) (upstream : ToolMask) (r : PolicyGrant) (name key : Bytes)
    (list : Json) (up : Bool) : Except PolicyError PolicyGrant :=
  match list with
  | .array items =>
    if up then
      (policyBuildTool reg upstream name up items r.upstream).map ({ r with upstream := · })
    else
      (policyBuildTool reg (BitVec.allOnes 128) name up items r.tools).map ({ r with tools := · })
  | _ => .error (.toolsArray name key)

/-- `policy_build_member`. -/
def policyBuildMember (reg : Registry) (upstream : ToolMask) (name : Bytes) (r : PolicyGrant)
    (member : Bytes × Json) : Except PolicyError PolicyGrant :=
  let (key, val) := member
  if key = ascii "upstream" ∨ key = ascii "tools" then
    policyBuildTools reg upstream r name key val (key = ascii "upstream")
  else if key ≠ ascii "metrics" then .error (.roleMember name key)
  else
    match val with
    | .bool metrics => .ok { r with metrics }
    | _ => .error (.metrics name)

/-- `policy_build_role_one`. -/
def policyBuildRoleOne (reg : Registry) (upstream : ToolMask) (role : Bytes × Json) : Except PolicyError PolicyGrant :=
  let (name, members) := role
  if policyNameLen name = 0 then .error (.roleName name)
  else
    match members with
    | .object members => do
        let r ← members.foldlM (policyBuildMember reg upstream name) { who := ascii "role " ++ name }
        return if jbMember (some (.object members)) (ascii "upstream") = none then
          { r with upstream := r.tools } else r
    | _ => .error (.roleObject name)

/-- `policy_build_roles`. -/
def policyBuildRoles (reg : Registry) (upstream : ToolMask) : Json → Except PolicyError (List PolicyGrant)
  | .null => .ok []
  | .object roles => roles.mapM (policyBuildRoleOne reg upstream)
  | _ => .error .rolesObject

/-! ## The identities of the file -/

/-- A hexadecimal digit in either case. -/
def hexit (c : UInt8) : Bool :=
  (48 ≤ c && c ≤ 57) || (97 ≤ c && c ≤ 102) || (65 ≤ c && c ≤ 70)

/-- The loop of `policy_build_token` over the digits. -/
def policyDigest : Bytes → Bytes
  | high :: low :: hex => (utilHexDigit high <<< 4 ||| utilHexDigit low) :: policyDigest hex
  | _ => []

/-- `policy_build_token`. -/
def policyBuildToken (host : PolicyHost) (who : Bytes) (spec : Json) : Except PolicyError Bytes :=
  match (jbView (some spec)).map cstr with
  | none => .error (.tokenForm who)
  | some s =>
    if ascii "sha256:" <+: s then
      let hex := s.drop 7
      let n := (hex.takeWhile hexit).length
      if n ≠ 64 ∨ n ≠ hex.length then .error (.tokenHex who) else .ok (policyDigest hex)
    else if ¬(ascii "env:") <+: s then .error (.tokenForm who)
    else
      let name := s.drop 4
      if name = [] then .error (.tokenEnv who)
      else
        match host.getenv name with
        | none | some [] => .error (.tokenUnset who name)
        | some token => .ok (host.sha256 token)

/-- The members of an identity that `policy_build_identity` reads: the role and the tokens. -/
def policyIdentityMembers (who : Bytes) : List (Bytes × Json) → Json × Json → Except PolicyError (Json × Json)
  | [], found => .ok found
  | (key, val) :: id, (role, tokens) =>
    if key = ascii "role" then policyIdentityMembers who id (val, tokens)
    else if key = ascii "tokens" then policyIdentityMembers who id (role, val)
    else .error (.identityMember who key)

/-- `policy_build_identity`: the tokens that it adds. -/
def policyBuildIdentity (host : PolicyHost) (roles : List (Bytes × Json)) (identity : Bytes × Json) :
    Except PolicyError (List PolicyToken) :=
  let (who, id) := identity
  if policyNameLen who = 0 then .error (.identityName who)
  else
    match id with
    | .object members => do
        let (role, tokens) ← policyIdentityMembers who members (.null, .null)
        match policyBuildRole roles role with
        | none => .error (.identityRole who role)
        | some r =>
          match tokens with
          | .null | .array [] => .error (.tokens who)
          | .array specs =>
            specs.mapM fun spec => do
              let digest ← policyBuildToken host who spec
              return { digest, who := ascii "identity " ++ who, role := r }
          | _ => .error (.tokensArray who)
    | _ => .error (.identityObject who)

/-- Whether the loop of `policy_build_identities` meets two tokens next to each other that are the
same. -/
def policySameTokens : List PolicyToken → Bool
  | a :: b :: tokens => a.digest = b.digest || policySameTokens (b :: tokens)
  | _ => false

/-- `policy_build_identities`. -/
def policyBuildIdentities (host : PolicyHost) (roles : List (Bytes × Json)) :
    Json → Except PolicyError (List PolicyToken)
  | .null => .ok []
  | .object identities => do
      let added ← identities.mapM (policyBuildIdentity host roles)
      let tokens := sortBy PolicyToken.digest added.flatten
      if policySameTokens tokens then .error .sameTokens else return tokens
  | _ => .error .identitiesObject

/-! ## The groups and the anonymous clients of the file -/

/-- `policy_number`. -/
def policyNumber (text : Bytes) : Option Nat :=
  let (digits, value) := utilDigits text (2 ^ 32 - 2) 0 0
  if text ≠ [] ∧ digits = text.length then some value else none

/-- `policy_build_gid`. -/
def policyBuildGid (host : PolicyHost) (name : Bytes) : Except PolicyError Nat :=
  match policyNumber name with
  | some gid => .ok gid
  | none => host.getgrnam name

/-- The body of the loop of `policy_build_groups`. -/
def policyBuildGroup (host : PolicyHost) (subgid : Nat → Bool) (roles : List (Bytes × Json))
    (group : Bytes × Json) : Except PolicyError PolicyGid :=
  let (key, val) := group
  match policyBuildRole roles val with
  | none => .error (.groupRole key val)
  | some role => do
      let gid ← policyBuildGid host key
      if gid = host.overflowGid then .error (.groupOverflow key gid)
      else if subgid gid then .error (.groupSubordinate key gid)
      else return { gid, role }

/-- `policy_build_groups`. -/
def policyBuildGroups (host : PolicyHost) (subgid : Nat → Bool) (roles : List (Bytes × Json)) :
    Json → Except PolicyError (List PolicyGid)
  | .null => .ok []
  | .object groups => groups.mapM (policyBuildGroup host subgid roles)
  | _ => .error .groupsObject

/-- `policy_build_kind`. -/
def policyBuildKind (roles : List (Bytes × Json)) (kind : Bytes) : Json → Except PolicyError (Option Nat)
  | .null => .ok none
  | val =>
    match policyBuildRole roles val with
    | none => .error (.anonymousRole kind val)
    | some role => .ok (some role)

/-- The body of the loop of `policy_build_anonymous`. -/
def policyBuildStranger (roles : List (Bytes × Json)) (p : Policy) (member : Bytes × Json) :
    Except PolicyError Policy :=
  let (key, val) := member
  match policyKind key with
  | none => .error (.anonymousMember key)
  | some k => do
      let role ← policyBuildKind roles key val
      let p := { p with anonymous := Function.update p.anonymous k role }
      match role with
      | none => return p
      | some r =>
        let who := ((p.roles[r]?).getD {}).who
        return { p with strangers := Function.update p.strangers k
                          (ascii "anonymous " ++ policyKinds k ++ ascii " (" ++ who ++ ascii ")") }

/-- `policy_build_anonymous`. -/
def policyBuildAnonymous (roles : List (Bytes × Json)) (p : Policy) : Json → Except PolicyError Policy
  | .null => .ok p
  | .object anonymous => anonymous.foldlM (policyBuildStranger roles) p
  | _ => .error .anonymousObject

/-! ## Policies -/

/-- What `policy_create` gets: the object of the file, if any, the tools, and which of them it may
grant to a client and lend to the upstream. -/
structure PolicySetting where
  file : Option Json
  distinct : ∀ object ∈ file, object.Distinct
  reg : Registry
  allowed : ToolMask
  upstream : ToolMask

/-- A member of the file: null if it is absent. -/
def PolicySetting.part (s : PolicySetting) (key : Bytes) : Json :=
  (jbGet s.file key).getD .null

/-- `policy_file`: whether a member of the file makes the policy. -/
def policyFile (s : PolicySetting) : Bool :=
  [ascii "roles", ascii "identities", ascii "unix-groups", ascii "anonymous"].any fun key =>
    (jbMember s.file key).isSome

/-- The members of a value, if it is an object. -/
def policyMembers : Json → List (Bytes × Json)
  | .object members => members
  | _ => []

/-- `policy_build_file`. -/
def policyBuildFile (host : PolicyHost) (subgid : Nat → Bool) (s : PolicySetting) : Except PolicyError Policy := do
  let named := policyMembers (s.part (ascii "roles"))
  let roles ← policyBuildRoles s.reg s.upstream (s.part (ascii "roles"))
  let tokens ← policyBuildIdentities host named (s.part (ascii "identities"))
  let groups ← policyBuildGroups host subgid named (s.part (ascii "unix-groups"))
  policyBuildAnonymous named { roles, tokens, groups } (s.part (ascii "anonymous"))

/-- `ASKAI_TOKEN`, if it is set. -/
def askaiToken (host : PolicyHost) : Option Bytes :=
  match host.getenv (ascii "ASKAI_TOKEN") with
  | none | some [] => none
  | some token => some token

/-- `policy_build_own`. -/
def policyBuildOwn (host : PolicyHost) (reg : Registry) (token : Option Bytes) : Policy :=
  let all := policyAll reg
  let roles := [{ tools := all, upstream := all, metrics := true }, { tools := all, upstream := all }]
  match token with
  | none =>
    { roles, anonymous := fun
        | .loopback => some 0
        | .remote => some 1
        | .unix => some 0 }
  | some token =>
    { roles
      tokens := [{ digest := host.sha256 token, who := ascii "identity ASKAI_TOKEN", role := 0 }]
      unixToken := true }

/-- The subordinate gids, which are read if the file names groups. -/
def policySubgid (host : PolicyHost) (s : PolicySetting) : Except PolicyError (Nat → Bool) :=
  if policyMembers (s.part (ascii "unix-groups")) = [] then .ok fun _ => false else host.subgid

/-- The policy of the file, or askai's own. -/
def policyBuild (host : PolicyHost) (subgid : Nat → Bool) (s : PolicySetting) : Except PolicyError Policy :=
  if policyFile s then policyBuildFile host subgid s else .ok (policyBuildOwn host s.reg (askaiToken host))

/-- `policy_create`. -/
def policyCreate (host : PolicyHost) (s : PolicySetting) : Except PolicyError Policy := do
  host.subuid
  let subgid ← policySubgid host s
  let p ← policyBuild host subgid s
  match policyPrincipals host p with
  | none => .error .principals
  | some p =>
    return { p with allowed := s.allowed
                    roles := p.roles.map fun r => { r with tools := r.tools &&& s.allowed } }

/-! ## What a client may do -/

/-- `struct policy_peer`: its groups are sorted. -/
structure PolicyPeer where
  groups : List Nat
  principal : UInt64
  sorted : SortedBy id groups

/-- The user of a Unix socket: `httpd_conn_user`, which computes the principal under the policy of the
server. -/
def policyPeer (host : PolicyHost) (policy : Policy) (uid : UInt32) (gids : List Nat) : Option PolicyPeer :=
  (policyPrincipalUid host policy uid).map fun principal =>
    { groups := sortBy id gids, principal, sorted := sortedBy_sortBy id gids }

/-- `enum policy_verdict`, with the grant. -/
inductive PolicyVerdict where
  | granted (g : PolicyGrant)
  | refused
  | unixToken
  deriving DecidableEq, Repr

/-- `policy_grant_role`. -/
def policyGrantRole (policy : Policy) (role : Option Nat) (principal : UInt64) (who : Bytes) : PolicyVerdict :=
  match role with
  | none => .refused
  | some r =>
    let g := { ((policy.roles[r]?).getD {}) with principal }
    .granted (if who ≠ [] then { g with who } else g)

/-- `policy_grant_token`. -/
def policyGrantToken (host : PolicyHost) (policy : Policy) (token : Bytes) : PolicyVerdict :=
  match bsearch (host.sha256 token) PolicyToken.digest policy.tokens with
  | none => .refused
  | some t => policyGrantRole policy (some t.role) t.principal t.who

/-- `policy_grant_unix`. -/
def policyGrantUnix (policy : Policy) (peer : PolicyPeer) : PolicyVerdict :=
  let role :=
    match policy.groups.find? fun g => (bsearch g.gid id peer.groups).isSome with
    | none => policy.anonymous .unix
    | some g => some g.role
  policyGrantRole policy role peer.principal []

/-- `policy_grant`. -/
def policyGrant (host : PolicyHost) (policy : Policy) (token : Option Bytes) (kind : PolicyKind)
    (peer : Option PolicyPeer) : PolicyVerdict :=
  match (if kind = .unix then peer else none), token with
  | none, some token =>
    if policy.tokens ≠ [] then policyGrantToken host policy token
    else policyGrantRole policy (policy.anonymous kind) 0 (policy.strangers kind)
  | none, none => policyGrantRole policy (policy.anonymous kind) 0 (policy.strangers kind)
  | some peer, none => policyGrantUnix policy peer
  | some peer, some token =>
    if ¬policy.unixToken then .unixToken
    else
      match policyGrantToken host policy token with
      | .granted g => .granted { g with principal := peer.principal }
      | _ => .refused

end Askai
