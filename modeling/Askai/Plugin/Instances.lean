import Askai.Util.Buf
import Askai.Util.Htab
import Askai.Library.Trace

/-!
# Plugin instances

The table of plugin instances of one client loop (`instance.c`).
-/

namespace Askai

open Library

/-- `INSTANCE_MAX`. -/
abbrev instanceMax : Nat := 256

/-- The error numbers of `instance_table_get`. -/
abbrev eio : Int := 5
abbrev enomem : Int := 12
abbrev ebusy : Int := 16

/-- What the table uses of `struct plugin`. -/
structure Plugin where
  instanceSize : Nat
  /-- The plugin has `relieve()`. -/
  relieve : Bool := false

/-- What the table needs of a loop's plugins: what stands at an address, and the hash of a principal
and a plugin's address. -/
structure Plugins where
  plugin : Nat → Plugin
  hash : Nat → Nat → Nat

/-- `struct instance`, but for its links. Instances are named in the order in which they are made. -/
structure PluginInstance where
  plugin : Nat := 0
  principal : Nat := 0
  idle : Nat := 0
  calls : Nat := 0

/-- `struct instance_table`, with the instances, the loop's time and whether the table's step is
queued. -/
structure InstanceTable where
  busy : List Nat := []
  idle : List Nat := []
  gone : List Nat := []
  listed : Htab Nat := { mask := instanceMax - 1 }
  generation : Nat := 0
  inst : Nat → PluginInstance := fun _ => {}
  node : Nat → HtabNode Nat := fun _ => {}
  /-- How many instances have been made. -/
  made : Nat := 0
  /-- Those that have been finalised and freed, in order. -/
  destroyed : List Nat := []
  now : Nat := 0
  ready : Bool := false

/-- What decides whether an instance is made: whether there is memory, and what `instance_init()`
returns. -/
structure MakeShare where
  memory : Bool := true
  init : Int := 0

namespace InstanceTable

/-- `instance_match`. -/
def matches_ (t : InstanceTable) (plugin principal i : Nat) : Bool :=
  decide ((t.inst i).principal = principal) && decide ((t.inst i).plugin = plugin)

/-- `instance_table_find`. -/
def find (t : InstanceTable) (hash plugin principal : Nat) : Option Nat :=
  t.listed.find t.node hash (t.matches_ plugin principal)

/-- `list_del`, of an instance. -/
def unhook (t : InstanceTable) (i : Nat) : InstanceTable :=
  { t with busy := t.busy.erase i, idle := t.idle.erase i, gone := t.gone.erase i }

/-- `instance_table_retire`. -/
def retire (t : InstanceTable) (i : Nat) : InstanceTable :=
  let (listed, node) := t.listed.unlink t.node i
  let t := ({ t with listed, node } : InstanceTable).unhook i
  { t with gone := t.gone ++ [i], ready := true }

/-- `instance_table_reap`, with the number of instances destroyed. -/
def reap : Nat → InstanceTable → InstanceTable × Nat
  | 0, t => (t, 0)
  | max + 1, t =>
    match t.gone with
    | [] => (t, 0)
    | i :: rest =>
      let (t, n) := reap max { t with gone := rest, destroyed := t.destroyed ++ [i] }
      (t, n + 1)

/-- `instance_table_step`, which the loop has taken off its list, with as much `LOOP_RELEASE` work as
may be done. -/
def step (t : InstanceTable) (room : Nat) : InstanceTable :=
  let (t, _) := reap room { t with ready := false }
  if t.gone = [] then t else { t with ready := true }

/-- `instance_table_fini`. -/
def fini (t : InstanceTable) : InstanceTable :=
  let (t, _) := reap (2 ^ 64 - 1) { t with gone := t.gone ++ t.idle, idle := [] }
  { t with ready := false }

/-- The table with a new instance, which has one call. -/
def born (t : InstanceTable) (hash plugin principal : Nat) : InstanceTable :=
  { t with
    inst := Function.update t.inst t.made { plugin, principal, calls := 1 }
    node := Function.update t.node t.made { hash }
    made := t.made + 1
    busy := t.busy ++ [t.made] }

/-- `instance_table_make`. -/
def make (t : InstanceTable) (hash plugin principal : Nat) (share : MakeShare) : InstanceTable × Except Int Nat :=
  if share.memory = false then (t, .error enomem)
  else if share.init ≠ 0 then
    (t, .error (if 0 < share.init ∧ share.init ≠ ebusy then share.init else eio))
  else (t.born hash plugin principal, .ok t.made)

/-- A call more, of an instance that the buckets have. -/
def again (t : InstanceTable) (i : Nat) : InstanceTable :=
  let t := { t with inst := Function.update t.inst i { t.inst i with calls := (t.inst i).calls + 1 } }
  let t := t.unhook i
  { t with busy := t.busy ++ [i] }

/-- The room in the buckets for one more, if there is. -/
def makeRoom (t : InstanceTable) : Option InstanceTable :=
  if t.listed.n = instanceMax then
    match t.idle with
    | [] => none
    | i :: _ => some (t.retire i)
  else some t

/-- `instance_table_get`. -/
def get (env : Plugins) (t : InstanceTable) (plugin principal generation : Nat) (share : MakeShare) :
    InstanceTable × Except Int (Option Nat) :=
  if (env.plugin plugin).instanceSize = 0 then (t, .ok none)
  else
    let hash := env.hash principal plugin
    if principal = 0 ∨ generation ≠ t.generation then
      let (t, made) := t.make hash plugin principal share
      (t, made.map some)
    else
      match t.find hash plugin principal with
      | some i => (t.again i, .ok (some i))
      | none =>
        match t.makeRoom with
        | none => (t, .error ebusy)
        | some t =>
          match t.make hash plugin principal share with
          | (t, .error e) => (t, .error e)
          | (t, .ok i) =>
            let (listed, node) := t.listed.link t.node i
            ({ t with listed, node }, .ok (some i))

/-- A call less. -/
def uncall (t : InstanceTable) (i : Nat) : InstanceTable :=
  { t with inst := Function.update t.inst i { t.inst i with calls := (t.inst i).calls - 1 } }

/-- An instance that no call uses any more is taken off its list. -/
def rest (t : InstanceTable) (i : Nat) : InstanceTable :=
  ({ t with inst := Function.update t.inst i { t.inst i with idle := t.now } } : InstanceTable).unhook i

/-- `instance_table_put`. -/
def put (t : InstanceTable) : Option Nat → InstanceTable
  | none => t
  | some i =>
    let t := t.uncall i
    if (t.inst i).calls ≠ 0 then t
    else
      let t := t.rest i
      if t.find (t.node i).hash (t.inst i).plugin (t.inst i).principal = some i then
        { t with idle := t.idle ++ [i] }
      else { t with gone := t.gone ++ [i], ready := true }

/-- `instance_table_flush`. -/
def flush (t : InstanceTable) : InstanceTable :=
  { t with
    generation := (t.generation + 1) % 2 ^ 64
    listed := { t.listed with buckets := fun _ => none, n := 0 }
    gone := t.gone ++ t.idle
    idle := []
    ready := true }

/-- `instance_list_relieve`, from some units on: `freed` is what the plugin's `relieve()` returns for
an instance. -/
def listRelieve (env : Plugins) (t : InstanceTable) (freed : Nat → Nat) (max : Nat) : List Nat → Nat → Nat
  | [], done => done
  | i :: rest, done =>
    if max ≤ done then done
    else if (env.plugin (t.inst i).plugin).relieve = false then
      listRelieve env t freed max rest done
    else listRelieve env t freed max rest (done + min (freed i) (max - done))

/-- `keep` of `instance_table_relieve`. -/
def keep : BufPressure → Nat
  | .easy => 2 ^ 64 - 1
  | .high => 2 * 10000 * 1000000
  | .critical => 0

/-- The instances that `instance_table_relieve` retires, at most so many. -/
def retireIdle (keep : Nat) : Nat → InstanceTable → InstanceTable
  | 0, t => t
  | max + 1, t =>
    match t.idle with
    | [] => t
    | i :: _ =>
      if t.now - (t.inst i).idle < keep then t
      else retireIdle keep max (t.retire i)

/-- `instance_table_relieve`. -/
def relieve (env : Plugins) (t : InstanceTable) (level : BufPressure) (max : Nat)
    (freed : Nat → Nat) : InstanceTable × Nat :=
  let (t, done) := reap max (retireIdle (keep level) max t)
  let done := if done < max then done + listRelieve env t freed (max - done) t.busy 0 else done
  let done := if done < max then done + listRelieve env t freed (max - done) t.idle 0 else done
  (t, done)

/-! ## The instances after a change of one -/

variable {t : InstanceTable} {i j : Nat}

theorem born_self (t : InstanceTable) (hash plugin principal : Nat) :
    (t.born hash plugin principal).inst t.made = { plugin, principal, calls := 1 } :=
  Function.update_self ..

theorem born_of_ne {hash plugin principal : Nat} (other : j ≠ t.made) :
    (t.born hash plugin principal).inst j = t.inst j :=
  Function.update_of_ne other ..

theorem again_self (t : InstanceTable) (i : Nat) :
    (t.again i).inst i = { t.inst i with calls := (t.inst i).calls + 1 } :=
  Function.update_self ..

theorem again_of_ne (other : j ≠ i) : (t.again i).inst j = t.inst j :=
  Function.update_of_ne other ..

theorem uncall_self (t : InstanceTable) (i : Nat) :
    (t.uncall i).inst i = { t.inst i with calls := (t.inst i).calls - 1 } :=
  Function.update_self ..

theorem uncall_of_ne (other : j ≠ i) : (t.uncall i).inst j = t.inst j :=
  Function.update_of_ne other ..

theorem rest_self (t : InstanceTable) (i : Nat) : (t.rest i).inst i = { t.inst i with idle := t.now } :=
  Function.update_self ..

theorem rest_of_ne (other : j ≠ i) : (t.rest i).inst j = t.inst j :=
  Function.update_of_ne other ..

end InstanceTable

end Askai
