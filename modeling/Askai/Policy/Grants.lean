import Askai.Policy.Making

/-!
# What a client may do

The answer of `policy_grant` to every client, in the terms of the configuration that the policy was
made of.
-/

namespace Askai

open Library

variable {host : PolicyHost} {s : PolicySetting} {p : Policy}

/-! ## Principals -/

/-- A principal is a number below the bits of the tag, with the tag, and never 0. -/
theorem policyPrincipalOf_bounds {key text : Bytes} {tag principal : UInt64}
    (made : policyPrincipalOf host key tag text = some principal) (low : ℕ)
    (bounds : ∀ n < 2 ^ 62, (n ||| tag.toNat) = low + n) (small : low + 2 ^ 62 ≤ 2 ^ 63) :
    0 < principal.toNat ∧ low ≤ principal.toNat ∧ principal.toNat < low + 2 ^ 62 := by
  unfold policyPrincipalOf at made
  split at made
  · cases made
  · rename_i md _
    split at made
    · cases made
    · obtain rfl := Option.some.inj made
      have mask : (policyIdentity - 1).toNat = 2 ^ 62 - 1 := by decide
      have value : (utilBeGet (md.take 8) &&& (policyIdentity - 1) ||| tag).toNat =
          low + (utilBeGet (md.take 8)).toNat % 2 ^ 62 := by
        rw [UInt64.toNat_or, UInt64.toNat_and, mask, Nat.and_two_pow_sub_one_eq_mod]
        exact bounds _ (Nat.mod_lt _ (by decide))
      have below := Nat.mod_lt (utilBeGet (md.take 8)).toNat (show 0 < 2 ^ 62 by decide)
      generalize utilBeGet (md.take 8) &&& (policyIdentity - 1) ||| tag = h at value ⊢
      by_cases zero : h = 0
      · subst zero
        have none : (0 : UInt64).toNat = 0 := rfl
        have one : (0 + (if (0 : UInt64) = 0 then 1 else 0) : UInt64).toNat = 1 := by decide
        rw [one]
        omega
      · have positive : h.toNat ≠ 0 := by
          intro none
          exact zero (UInt64.toNat_inj.mp none)
        rw [if_neg zero, UInt64.add_zero]
        omega

variable {kind : PolicyKind} {peer : Option PolicyPeer} {principal : UInt64} {token : Option Bytes}

theorem policyPrincipalOf_uid {key text : Bytes}
    (made : policyPrincipalOf host key 0 text = some principal) : 0 < principal.toNat ∧ principal.toNat < 2 ^ 62 := by
  obtain ⟨positive, -, below⟩ := policyPrincipalOf_bounds made 0
    (fun n _ => by rw [UInt64.toNat_zero, Nat.or_zero, Nat.zero_add]) (by decide)
  exact ⟨positive, by simpa using below⟩

theorem policyPrincipalOf_identity {key text : Bytes}
    (made : policyPrincipalOf host key policyIdentity text = some principal) :
    2 ^ 62 ≤ principal.toNat ∧ principal.toNat < 2 ^ 63 := by
  have tag : policyIdentity.toNat = 2 ^ 62 := by decide
  obtain ⟨-, above, below⟩ := policyPrincipalOf_bounds made (2 ^ 62) (fun n small => by
      have apart := Nat.two_pow_add_eq_or_of_lt small 1
      rw [Nat.mul_one] at apart
      rw [tag, Nat.or_comm, ← apart])
    (by decide)
  exact ⟨above, by omega⟩

theorem policyPrincipalIdentity_bounds {key who : Bytes}
    (made : policyPrincipalIdentity host key who = some principal) :
    2 ^ 62 ≤ principal.toNat ∧ principal.toNat < 2 ^ 63 := by
  rw [policyPrincipalIdentity] at made
  split at made
  · cases made
  · exact policyPrincipalOf_identity made

theorem policyPeer_bounds {uid : UInt32} {gids : List Nat} {peer : PolicyPeer}
    (made : policyPeer host p uid gids = some peer) : 0 < peer.principal.toNat ∧ peer.principal.toNat < 2 ^ 62 := by
  obtain ⟨principal, found, rfl⟩ := Option.map_eq_some_iff.mp made
  exact policyPrincipalOf_uid found

/-! ## Ways of connecting -/

/-- The client is not on a Unix socket. -/
def Tcp (kind : PolicyKind) (peer : Option PolicyPeer) : Prop :=
  ¬(kind = .unix ∧ peer.isSome)

instance (kind : PolicyKind) (peer : Option PolicyPeer) : Decidable (Tcp kind peer) :=
  inferInstanceAs (Decidable ¬_)

/-- The client shows no token that counts. -/
def Tokenless (p : Policy) (token : Option Bytes) : Prop :=
  token = none ∨ p.tokens = []

instance (p : Policy) (token : Option Bytes) : Decidable (Tokenless p token) :=
  inferInstanceAs (Decidable (_ ∨ _))

/-- The answer to a client of the role, if it has one. -/
def PolicyVerdict.ofRole (role : Option PolicyGrant) (principal : UInt64) (who : PolicyGrant → Bytes) : PolicyVerdict :=
  match role with
  | none => .refused
  | some role => .granted { role with who := who role, principal }

theorem peer_eq_none (tcp : Tcp kind peer) : (if kind = .unix then peer else none) = none := by
  split
  · rename_i unix
    exact Option.not_isSome_iff_eq_none.mp fun some_ => tcp ⟨unix, some_⟩
  · rfl

theorem policyGrant_tcp (tcp : Tcp kind peer) (tokenless : Tokenless p token) : policyGrant host p token kind peer =
      policyGrantRole p (p.anonymous kind) 0 (p.strangers kind) := by
  unfold policyGrant
  rw [peer_eq_none tcp]
  cases token with
  | none => rfl
  | some token =>
    cases tokenless with
    | inl none_ => cases none_
    | inr empty => simp [empty]

theorem policyGrant_tcp_token {token : Bytes} (tcp : Tcp kind peer) (tokens : p.tokens ≠ []) :
    policyGrant host p (some token) kind peer = policyGrantToken host p token := by
  unfold policyGrant
  rw [peer_eq_none tcp]
  simp [tokens]

/-! ## Roles and tokens -/

theorem policyGrantRole_some {r : Nat} {role : PolicyGrant} (here : p.roles[r]? = some role)
    (principal : UInt64) (who : Bytes) : policyGrantRole p (some r) principal who =
      .granted { role with who := if who = [] then role.who else who, principal } := by
  rw [policyGrantRole, here]
  by_cases named : who = [] <;> simp [named]

theorem Proves.named {digest who : Bytes} {role : PolicyGrant} (proves : Proves host s digest who role) : who ≠ [] := by
  cases proves with
  | identity => exact List.append_ne_nil_of_left_ne_nil (by decide) _
  | askai => decide

/-- The role of a user: that of the first group of the configuration that the user is in, or else the
anonymous one. -/
def PolicySetting.ofUser (host : PolicyHost) (s : PolicySetting) (gids : List Nat) : Option PolicyGrant :=
  (((s.groups host).find? fun group => group.1 ∈ gids).map Prod.snd).or (s.anonymous host .unix)

section Chartered

variable (kept : Chartered host s p)
include kept

/-- A token that proves an identity is found, with the identity's role. -/
theorem Chartered.granted_of_proves (keyed : Keyed host p) {token who : Bytes} {role : PolicyGrant}
    (proves : Proves host s (host.sha256 token) who role) :
    ∃ principal, policyPrincipalIdentity host p.key who = some principal ∧
      policyGrantToken host p token = .granted { role with who, principal } := by
  obtain ⟨t, mem, digest, rfl, here⟩ := (kept.tokens _ _ _).mp proves
  have found := (isSome_bsearch kept.sorted).mpr ⟨t, mem, digest⟩
  obtain ⟨t', found⟩ := Option.isSome_iff_exists.mp found
  obtain ⟨mem', digest'⟩ := bsearch_some found
  -- No other token has the digest.
  obtain rfl : t' = t := List.inj_on_of_nodup_map kept.once mem' mem (digest'.trans digest.symm)
  refine ⟨t'.principal, keyed t' mem, ?_⟩
  rw [policyGrantToken, found]
  dsimp only
  rw [policyGrantRole_some here, if_neg proves.named]

/-- A token that proves no identity is refused. -/
theorem Chartered.refused_of_unknown {token : Bytes}
    (unknown : ∀ who role, ¬Proves host s (host.sha256 token) who role) : policyGrantToken host p token = .refused := by
  rw [policyGrantToken]
  cases found : bsearch (host.sha256 token) PolicyToken.digest p.tokens with
  | none => rfl
  | some t =>
    obtain ⟨mem, digest⟩ := bsearch_some found
    have here := List.getElem?_eq_getElem (kept.placed t mem)
    exact absurd ((kept.tokens _ _ _).mpr ⟨t, mem, digest, rfl, here⟩) (unknown _ _)

theorem Chartered.tokens_ne_nil : p.tokens ≠ [] ↔ ∃ digest who role, Proves host s digest who role := by
  constructor
  · intro some_
    obtain ⟨t, mem⟩ := List.exists_mem_of_ne_nil _ some_
    have here := List.getElem?_eq_getElem (kept.placed t mem)
    exact ⟨_, _, _, (kept.tokens _ _ _).mpr ⟨t, mem, rfl, rfl, here⟩⟩
  · rintro ⟨digest, who, role, proves⟩ none_
    obtain ⟨t, mem, -⟩ := (kept.tokens _ _ _).mp proves
    rw [none_] at mem
    cases mem

/-- A client without a token that counts, over TCP, gets the anonymous role of its kind. -/
theorem Chartered.policyGrant_stranger (tcp : Tcp kind peer) (tokenless : Tokenless p token) :
    policyGrant host p token kind peer = .ofRole (s.anonymous host kind) 0 (strangerWho kind) := by
  rw [policyGrant_tcp tcp tokenless]
  cases role : s.anonymous host kind with
  | none =>
    have here := kept.anonymous kind
    rw [role] at here
    cases found : p.anonymous kind with
    | none => rfl
    | some r =>
      rw [found, Option.bind_some, List.getElem?_eq_getElem (kept.settled kind r found)] at here
      cases here
  | some role' =>
    have here := kept.anonymous kind
    rw [role] at here
    obtain ⟨r, found, here⟩ := Option.bind_eq_some_iff.mp here.symm
    rw [found, policyGrantRole_some here, kept.strangers kind role' role, PolicyVerdict.ofRole]
    have same : (if strangerWho kind role' = [] then role'.who else strangerWho kind role') =
        strangerWho kind role' := by
      rw [strangerWho]
      split
      · rename_i unnamed
        simp [unnamed]
      · rw [if_neg]
        simp only [List.append_assoc]
        exact List.append_ne_nil_of_left_ne_nil (by decide) _
    rw [same]

/-- A user without a token gets the role of the user. -/
theorem Chartered.policyGrant_unix {policy : Policy} {uid : UInt32} {gids : List Nat} {peer : PolicyPeer}
    (made : policyPeer host policy uid gids = some peer) : policyGrant host p none .unix (some peer) =
      .ofRole (s.ofUser host gids) peer.principal PolicyGrant.who := by
  obtain ⟨principal, -, rfl⟩ := Option.map_eq_some_iff.mp made
  have member : (fun g : PolicyGid => (bsearch g.gid id (sortBy id gids)).isSome) = fun g => decide (g.gid ∈ gids) := by
    funext g
    rw [Bool.eq_iff_iff, isSome_bsearch (sortedBy_sortBy id gids), decide_eq_true_eq]
    simp
  have first : ((s.groups host).find? fun group => group.1 ∈ gids).map (fun group => (group.1, some group.2)) =
      (p.groups.find? fun g => g.gid ∈ gids).map fun g => (g.gid, p.roles[g.role]?) := by
    have same := congrArg (List.find? fun group : Nat × Option PolicyGrant => group.1 ∈ gids) kept.groups
    rw [List.find?_map, List.find?_map] at same
    exact same
  change policyGrantUnix p _ = _
  rw [policyGrantUnix, PolicySetting.ofUser, member]
  cases found : p.groups.find? fun g => g.gid ∈ gids with
  | none =>
    rw [found, Option.map_none, Option.map_eq_none_iff] at first
    rw [first, Option.map_none, Option.none_or]
    have here := kept.anonymous .unix
    cases role : p.anonymous .unix with
    | none =>
      rw [role, Option.bind_none] at here
      rw [here]
      rfl
    | some r =>
      have inside := List.getElem?_eq_getElem (kept.settled .unix r role)
      rw [role, Option.bind_some, inside] at here
      rw [here]
      exact policyGrantRole_some inside _ _
  | some g =>
    rw [found, Option.map_some] at first
    obtain ⟨group, found', same⟩ := Option.map_eq_some_iff.mp first
    rw [found', Option.map_some, Option.some_or]
    exact policyGrantRole_some (Prod.mk.inj same).2.symm _ _

/-- A role that is granted is one of the policy's. -/
theorem Chartered.tools_of_granted {g : PolicyGrant} (granted : policyGrant host p token kind peer = .granted g) :
    g.tools &&& s.allowed = g.tools := by
  have role {r : Option Nat} {principal : UInt64} {who : Bytes} {g : PolicyGrant}
      (granted : policyGrantRole p r principal who = .granted g) : g.tools &&& s.allowed = g.tools := by
    cases r with
    | none => cases granted
    | some r =>
      rw [policyGrantRole] at granted
      have tools : (((p.roles[r]?).getD {}).tools &&& s.allowed) = ((p.roles[r]?).getD {}).tools := by
        cases here : p.roles[r]? with
        | none => simp
        | some role => exact kept.allowed role (List.mem_of_getElem? here)
      obtain rfl := PolicyVerdict.granted.inj granted
      split <;> exact tools
  have proved {token : Bytes} {g : PolicyGrant}
      (granted : policyGrantToken host p token = .granted g) : g.tools &&& s.allowed = g.tools := by
    rw [policyGrantToken] at granted
    split at granted
    · cases granted
    · exact role granted
  unfold policyGrant at granted
  split at granted
  · split at granted
    · exact proved granted
    · exact role granted
  · exact role granted
  · exact role granted
  · split at granted
    · cases granted
    · split at granted
      · rename_i found
        have tools := proved found
        obtain rfl := PolicyVerdict.granted.inj granted
        exact tools
      · cases granted

/-- On a Unix socket, a token is looked up only where it may be sent. -/
theorem Chartered.policyGrant_unix_token {token : Bytes} {peer : PolicyPeer} :
    policyGrant host p (some token) .unix (some peer) =
      if policyFile s = true ∨ askaiToken host = none then .unixToken
      else
        match policyGrantToken host p token with
        | .granted g => .granted { g with principal := peer.principal }
        | _ => .refused := by
  change (if ¬p.unixToken = true then _ else _) = _
  rw [kept.unixToken]
  cases policyFile s with
  | true => rfl
  | false => cases askaiToken host <;> rfl

end Chartered

/-! ## The answers -/

/-- What `policy_grant` answers under a policy of these settings. -/
structure Decides (host : PolicyHost) (s : PolicySetting) (p : Policy) : Prop where
  /-- The policy has tokens exactly if the settings name one. -/
  tokens : p.tokens ≠ [] ↔ ∃ digest who role, Proves host s digest who role
  /-- Over TCP, a token that proves an identity is granted that identity's role. -/
  identity : ∀ {token kind peer who role}, Tcp kind peer → p.tokens ≠ [] →
    Proves host s (host.sha256 token) who role →
      ∃ principal, policyPrincipalIdentity host p.key who = some principal ∧
        policyGrant host p (some token) kind peer = .granted { role with who, principal }
  /-- Over TCP, a token that proves none is refused, whatever the anonymous roles are. -/
  unknown : ∀ {token kind peer}, Tcp kind peer → p.tokens ≠ [] →
    (∀ who role, ¬Proves host s (host.sha256 token) who role) →
      policyGrant host p (some token) kind peer = .refused
  /-- A client without a token that counts gets the anonymous role of its kind, or is refused. -/
  stranger : ∀ {token kind peer}, Tcp kind peer → Tokenless p token →
    policyGrant host p token kind peer = .ofRole (s.anonymous host kind) 0 (strangerWho kind)
  /-- A user on a Unix socket gets the role of the first of the groups, or the anonymous one. -/
  user : ∀ {policy uid gids peer}, policyPeer host policy uid gids = some peer →
    policyGrant host p none .unix (some peer) =
      .ofRole (s.ofUser host gids) peer.principal PolicyGrant.who
  /-- A user on a Unix socket may not send a token, but for `ASKAI_TOKEN`. -/
  unixToken : ∀ {token peer}, policyFile s = true ∨ askaiToken host = none →
    policyGrant host p (some token) .unix (some peer) = .unixToken
  /-- `ASKAI_TOKEN` on a Unix socket grants its role, and the principal stays the user's. -/
  askai : ∀ {token peer secret}, policyFile s = false → askaiToken host = some secret →
    policyGrant host p (some token) .unix (some peer) =
      if host.sha256 token = host.sha256 secret then
        .granted { s.everything true with
                     who := ascii "identity ASKAI_TOKEN", principal := peer.principal }
      else .refused
  /-- No tool is granted that no client may get. -/
  allowed : ∀ {token kind peer g}, policyGrant host p token kind peer = .granted g →
    g.tools &&& s.allowed = g.tools
  /-- The principal is 0 exactly for an anonymous client over TCP, has bit 62 exactly for an identity
  over TCP, and never bit 63. -/
  principal : ∀ {token kind peer g},
    (∀ user ∈ peer, ∃ policy uid gids, policyPeer host policy uid gids = some user) →
    policyGrant host p token kind peer = .granted g →
      (g.principal = 0 ↔ Tcp kind peer ∧ Tokenless p token) ∧
        (g.principal.toNat.testBit 62 = true ↔ Tcp kind peer ∧ ¬Tokenless p token) ∧
        g.principal.toNat.testBit 63 = false
  /-- Where `ASKAI_TOKEN` is set and no file makes the policy, nothing is granted without its value. -/
  secret : ∀ {token kind peer secret}, policyFile s = false → askaiToken host = some secret →
    (∀ other, host.sha256 other = host.sha256 secret → other = secret) → token ≠ some secret →
      (∀ user ∈ peer, ∃ policy uid gids, policyPeer host policy uid gids = some user) →
      ∀ g, policyGrant host p token kind peer ≠ .granted g

theorem PolicyVerdict.principal_of_ofRole {role : Option PolicyGrant} {who : PolicyGrant → Bytes} {g : PolicyGrant}
    (granted : PolicyVerdict.ofRole role principal who = .granted g) : g.principal = principal := by
  cases role with
  | none => cases granted
  | some role =>
    obtain rfl := PolicyVerdict.granted.inj granted
    rfl

/-- Bits 62 and 63 of the principals of users and of identities. -/
theorem bits_of_user {n : Nat} (below : n < 2 ^ 62) : n.testBit 62 = false ∧ n.testBit 63 = false :=
  ⟨Nat.testBit_lt_two_pow below, Nat.testBit_lt_two_pow (below.trans (by decide))⟩

theorem bits_of_identity {n : Nat} (above : 2 ^ 62 ≤ n) (below : n < 2 ^ 63) :
    n.testBit 62 = true ∧ n.testBit 63 = false := by
  obtain ⟨k, rfl⟩ := Nat.exists_eq_add_of_le above
  refine ⟨?_, Nat.testBit_lt_two_pow below⟩
  rw [Nat.testBit_two_pow_add_eq, Nat.testBit_lt_two_pow (by omega)]
  rfl

/-- The client is the user on a Unix socket. -/
theorem user_of_not_tcp (unix : ¬Tcp kind peer) : kind = .unix ∧ ∃ user, peer = some user := by
  obtain ⟨rfl, some_⟩ := not_not.mp unix
  exact ⟨rfl, Option.isSome_iff_exists.mp some_⟩

/-- The principal of a client on a Unix socket is the user's. -/
theorem Chartered.principal_of_user (kept : Chartered host s p) {policy : Policy} {uid : UInt32} {gids : List Nat}
    {user : PolicyPeer} (made : policyPeer host policy uid gids = some user)
    {g : PolicyGrant} (granted : policyGrant host p token .unix (some user) = .granted g) :
    g.principal = user.principal := by
  cases token with
  | none =>
    rw [kept.policyGrant_unix made] at granted
    exact PolicyVerdict.principal_of_ofRole granted
  | some token =>
    rw [kept.policyGrant_unix_token] at granted
    split at granted
    · cases granted
    · split at granted
      · obtain rfl := PolicyVerdict.granted.inj granted
        rfl
      · cases granted

/-- Under every policy, whatever keys it was given, each client gets the answer that the settings
tell. -/
theorem policy_decides (built : Built host s p) : Decides host s p := by
  obtain ⟨kept, keyed⟩ := built.chartered
  have askaiProves {secret : Bytes} (own : policyFile s = false) (set : askaiToken host = some secret)
      {digest who : Bytes} {role : PolicyGrant} (proves : Proves host s digest who role) :
      digest = host.sha256 secret ∧ who = ascii "identity ASKAI_TOKEN" ∧ role = s.everything true := by
    cases proves with
    | identity file =>
      rw [own] at file
      cases file
    | askai _ set' =>
      obtain rfl := Option.some.inj (set.symm.trans set')
      exact ⟨rfl, rfl, rfl⟩
  constructor
  case tokens => exact kept.tokens_ne_nil
  case identity =>
    intro token kind peer who role tcp tokens proves
    rw [policyGrant_tcp_token tcp tokens]
    exact kept.granted_of_proves keyed proves
  case unknown =>
    intro token kind peer tcp tokens unknown
    rw [policyGrant_tcp_token tcp tokens]
    exact kept.refused_of_unknown unknown
  case stranger =>
    intro token kind peer tcp tokenless
    exact kept.policyGrant_stranger tcp tokenless
  case user =>
    intro policy uid gids peer made
    exact kept.policyGrant_unix made
  case unixToken =>
    intro token peer barred
    rw [kept.policyGrant_unix_token, if_pos barred]
  case askai =>
    intro token peer secret own set
    rw [kept.policyGrant_unix_token, if_neg (by simp [own, set])]
    by_cases same : host.sha256 token = host.sha256 secret
    · have proves : Proves host s (host.sha256 token) (ascii "identity ASKAI_TOKEN")
          (s.everything true) := same ▸ .askai own set
      obtain ⟨principal, -, granted⟩ := kept.granted_of_proves keyed proves
      rw [granted, if_pos same]
    · rw [kept.refused_of_unknown fun who role proves => same (askaiProves own set proves).1, if_neg same]
  case allowed =>
    intro token kind peer g granted
    exact kept.tools_of_granted granted
  case principal =>
    intro token kind peer g users granted
    by_cases tcp : Tcp kind peer
    · by_cases tokenless : Tokenless p token
      · rw [kept.policyGrant_stranger tcp tokenless] at granted
        rw [PolicyVerdict.principal_of_ofRole granted]
        simp [tcp, tokenless]
      · rw [Tokenless, not_or] at tokenless
        obtain ⟨shown, tokens⟩ := tokenless
        obtain ⟨token, rfl⟩ := Option.ne_none_iff_exists'.mp shown
        rw [policyGrant_tcp_token tcp tokens] at granted
        by_cases unknown : ∀ who role, ¬Proves host s (host.sha256 token) who role
        · rw [kept.refused_of_unknown unknown] at granted
          cases granted
        · push Not at unknown
          obtain ⟨who, role, proves⟩ := unknown
          obtain ⟨principal, made, granted'⟩ := kept.granted_of_proves keyed proves
          obtain ⟨above, below⟩ := policyPrincipalIdentity_bounds made
          obtain ⟨bit, clear⟩ := bits_of_identity above below
          obtain rfl := PolicyVerdict.granted.inj (granted.symm.trans granted')
          have nonzero : principal ≠ 0 := by
            rintro rfl
            exact absurd above (by decide)
          simp [tcp, Tokenless, tokens, bit, clear, nonzero]
    · obtain ⟨rfl, user, rfl⟩ := user_of_not_tcp tcp
      obtain ⟨policy, uid, gids, made⟩ := users user rfl
      obtain ⟨positive, below⟩ := policyPeer_bounds made
      obtain ⟨bit, clear⟩ := bits_of_user below
      rw [kept.principal_of_user made granted]
      have nonzero : user.principal ≠ 0 := by
        intro zero
        rw [zero] at positive
        exact absurd positive (by decide)
      simp [tcp, bit, clear, nonzero]
  case secret =>
    intro token kind peer secret own set only other users g granted
    have tokens : p.tokens ≠ [] := kept.tokens_ne_nil.mpr ⟨_, _, _, .askai own set⟩
    have anonymous : s.anonymous host kind = none := by
      rw [PolicySetting.anonymous, own, set]
      rfl
    have unknown {token : Bytes} (apart : some token ≠ some secret) (who : Bytes)
        (role : PolicyGrant) : ¬Proves host s (host.sha256 token) who role := by
      intro proves
      exact apart (congrArg some (only _ (askaiProves own set proves).1))
    by_cases tcp : Tcp kind peer
    · cases token with
      | none =>
        rw [kept.policyGrant_stranger tcp (.inl rfl), anonymous] at granted
        cases granted
      | some token =>
        rw [policyGrant_tcp_token tcp tokens, kept.refused_of_unknown (unknown other)] at granted
        cases granted
    · obtain ⟨rfl, user, rfl⟩ := user_of_not_tcp tcp
      cases token with
      | none =>
        obtain ⟨policy, uid, gids, made⟩ := users user rfl
        have none_ : s.ofUser host gids = none := by
          rw [PolicySetting.ofUser, anonymous, PolicySetting.groups, own]
          rfl
        rw [kept.policyGrant_unix made, none_] at granted
        cases granted
      | some token =>
        rw [kept.policyGrant_unix_token, if_neg (by simp [own, set]),
          kept.refused_of_unknown (unknown other)] at granted
        cases granted

/-- A system on which `ASKAI_TOKEN` is `secret`, with the digest and the principal that it has. -/
def secretHost : PolicyHost where
  getenv name := if name = ascii "ASKAI_TOKEN" then some (ascii "secret") else none
  sha256 text :=
    if text = ascii "secret" then
      [43, 184, 13, 83, 123, 29, 163, 227, 139, 211, 3, 97, 170, 133, 86, 134, 189, 224, 234, 205, 113,
        98, 254, 246, 162, 95, 233, 123, 245, 39, 162, 91]
    else text
  hmac _ _ :=
    some [125, 97, 201, 176, 249, 120, 7, 125, 192, 10, 206, 62, 137, 24, 82, 46, 65, 175, 45, 173, 62,
      143, 158, 120, 245, 110, 36, 193, 210, 203, 220, 93]
  getgrnam key := .error (.groupLookup key)
  subuid := .ok ()
  subgid := .ok fun _ => false
  overflowGid := 65534

/-- No file, one tool, and no tool for the upstream. -/
def secretSetting : PolicySetting where
  file := none
  distinct := by simp
  reg := { granted := [ascii "ask"], room := by decide }
  allowed := 1
  upstream := 0

theorem policy_decides_secret :
    ∃ p, policyCreate secretHost secretSetting = .ok p ∧ Decides secretHost secretSetting p := by
  obtain ⟨p, created⟩ : ∃ p, policyCreate secretHost secretSetting = .ok p := ⟨_, rfl⟩
  exact ⟨p, created, policy_decides (.create created)⟩

end Askai
