import NeonWrt.Hostapd.Config

/-!
# Bringing up a phy

How `hostapd.uc` replaces the configuration of one phy. A configuration that
cannot be applied to the running interface restarts it: the interface is
removed, and a pending request asks `wpa_supplicant` for its status, has it stop
if need be, and adds the interface. The request waits for each reply, and other
calls come in meanwhile.

The script is single-threaded: while a request runs, from a call or a reply to
the next wait, nothing else happens. One iteration of its loop is a step here.
-/

namespace NeonWrt.Hostapd

open NeonWrt.Lib

/-- A configuration as an object of the script: two objects can have the same
contents, and are told apart by their identity. -/
structure ConfigObject where
  id : ℕ
  config : Config

/-- The states of a pending request that are left to go through. -/
inductive Stage
  | init | createBss | checkPhy | wpasStopped
  deriving DecidableEq

/-- A pending request: `deferred` while a call to `wpa_supplicant` is under way,
`completed` when its last reply was a phy status in state `COMPLETED`. -/
structure Pending where
  config : ConfigObject
  nextState : Stage
  deferred : Bool
  completed : Bool

/-- An `iface_add`, with the configuration stored at that time. -/
structure Added where
  config : ℕ
  stored : Option ℕ

/-- A configuration that was set and changed nothing: the stored configuration
it equals, and those that were up and pending at that time. -/
structure Unchanged where
  stored : ℕ
  up : Option ℕ
  pending : Option ℕ

/-- What is known of a phy. The script keeps `stored` and `pending`; the rest is
the history: the configuration that is up, whether that of `stored` was never
started or has failed, the last `phy_set_state` that was sent, and what was
added and answered. -/
structure Phy where
  stored : Option ConfigObject
  pending : Option Pending
  nextId : ℕ
  up : Option ℕ
  abandoned : Bool
  stopped : Option Bool
  added : List Added
  unchanged : List Unchanged

/-- Nothing is known of a phy when hostapd starts. -/
def Phy.initial : Phy where
  stored := none
  pending := none
  nextId := 0
  up := none
  abandoned := false
  stopped := none
  added := []
  unchanged := []

namespace Phy

variable (s : Phy)

/-- The identity of the stored configuration. -/
def storedId : Option ℕ := s.stored.map (·.id)

/-- The identity of the configuration whose request is pending. -/
def pendingId : Option ℕ := s.pending.map (·.config.id)

/-- A request runs: it is pending, and waits for no reply. -/
def running : Bool := s.pending.any fun p => !p.deferred

/-- `hostapd.data.config[name] = config`, for a new object. -/
def store (config : Config) : Phy :=
  { s with stored := some ⟨s.nextId, config⟩, nextId := s.nextId + 1, abandoned := false }

/-- The stored object is changed in place. -/
def rewrite (f : Config → Config) : Phy :=
  { s with stored := s.stored.map fun c => { c with config := f c.config } }

/-- `hostapd.remove_iface(phy)`. -/
def removeIface : Phy := { s with up := none }

/-- `iface_pending_abort`: the call under way is aborted, and the request is gone. -/
def abort : Phy := { s with pending := none }

end Phy

/-- What a call depends on: whether the phy can be opened, the address of each
MLD interface that exists or can be created, the addresses that are still free,
and what comes of the changes to a running interface: the addresses of the BSSes,
and whether it succeeded. -/
structure SetEnv where
  phyOpen : Bool
  mld : Bss → Option Bytes
  macaddrNext : ℕ → Option Bytes
  applyChanges : Config → Config → (ℕ → Bss → Property Bytes) × Bool

/-- `iface_check_mld`: links of MLD interfaces that are not there are skipped. -/
def ifaceCheckMld (env : SetEnv) (config : Config) : Config :=
  { config with
    bss := config.bss.filterMap fun bss =>
      if bss.isMld then (env.mld bss).map fun mac => { bss with mldBssid := some mac }
      else some bss }

/-- The BSSes of a configuration get new addresses. -/
def Config.mapBssid (f : ℕ → Bss → Property Bytes) (config : Config) : Config :=
  { config with bss := config.bss.mapIdx fun i bss => { bss with bssid := f i bss } }

@[simp] theorem Config.mapBssid_bss_eq_nil (f : ℕ → Bss → Property Bytes) (config : Config) :
    (config.mapBssid f).bss = [] ↔ config.bss = [] := by
  simp [Config.mapBssid]

/-- What came of an incremental change. -/
inductive Reloaded
  | refused
  | equal
  | applied (bssid : ℕ → Bss → Property Bytes) (ok : Bool)

/-- `iface_reload_config`, up to the changes that it makes to the interface. -/
def ifaceReloadConfig (env : SetEnv) (s : Phy) (oldConfig : Option Config) (config : Config) :
    Reloaded :=
  match oldConfig with
  | none => .refused
  | some old =>
    if !old.radio.isEqual config.radio then .refused
    else if sameBss old.bss config.bss then .equal
    else if s.pending.isSome then .refused
    else if old.bss.isEmpty then .refused
    else .applied (env.applyChanges old config).1 (env.applyChanges old config).2

/-- The addresses that `iface_restart` assigns. -/
def assignMacaddrs (env : SetEnv) (config : Config) : Config :=
  config.mapBssid fun i bss => if bss.defaultMacaddr then some (env.macaddrNext i) else bss.bssid

/-- `iface_restart`, for the stored configuration. -/
def ifaceRestart (env : SetEnv) (s : Phy) : Phy :=
  let s := s.abort.removeIface
  match s.stored with
  | none => s
  | some obj =>
    if obj.config.bss.isEmpty then s
    else
      let obj := { obj with config := assignMacaddrs env obj.config }
      { s with stored := some obj, pending := some ⟨obj, .init, false, false⟩ }

/-- `iface_set_config`. The new configuration is stored before anything else. -/
def ifaceSetConfig (env : SetEnv) (config : Config) (s : Phy) : Phy :=
  let old := s.stored
  let s := s.store config
  if !env.phyOpen then { s with abandoned := true }
  else
    let config := ifaceCheckMld env config
    let s := s.rewrite fun _ => config
    if config.bss.isEmpty then s.removeIface
    else
      match ifaceReloadConfig env s (old.map (·.config)) config with
      | .refused => ifaceRestart env s
      | .equal =>
        match old with
        | none => s
        | some old =>
          { s with
            up := if s.up = some old.id then s.storedId else s.up
            unchanged := ⟨old.id, s.up, s.pendingId⟩ :: s.unchanged }
      | .applied bssid true => { s.rewrite (·.mapBssid bssid) with up := s.storedId }
      | .applied bssid false => ifaceRestart env (s.rewrite (·.mapBssid bssid))

/-- What `config_set` stores from `prev_config`, if nothing is stored: a
configuration that was never brought up. -/
def storePrev (prev : Option Config) (s : Phy) : Phy :=
  match prev, s.stored with
  | some config, none =>
    { s.store { config with radio := { config.radio with data := [] } } with abandoned := true }
  | _, _ => s

/-- What one state of a request depends on: whether its call could be sent
(`ubus.defer` returns null otherwise), whether `hostapd.add_iface` succeeds and
`iface.start` does, and what `wdev_create` says. -/
structure StageEnv where
  sent : Bool
  addIface : Bool
  start : Bool
  wdevCreate : Option Bytes

/-- `phydev.wdev_add`: it returns nothing, whatever `wdev_create` said. -/
def wdevAdd (_err : Option Bytes) : Option Bytes := none

namespace Phy

variable (env : StageEnv) (s : Phy) (p : Pending)

/-- The request makes a call and goes on to the next state, at once if the call
could not be sent. -/
def call (next : Stage) : Phy :=
  { s with pending := some { p with nextState := next, deferred := env.sent } }

/-- A `phy_set_state` is sent. -/
def setState (stop : Bool) : Phy :=
  { s with stopped := if env.sent then some stop else s.stopped }

/-- `iface_add`, which succeeds or not. -/
def ifaceAdd (ok : Bool) : Phy :=
  { s with
    up := if ok then some p.config.id else none
    added := ⟨p.config.id, s.storedId⟩ :: s.added }

/-- `__iface_pending_next`, with what `iface_pending_next` does of its result. -/
def advance : Phy :=
  match p.nextState with
  | .init => { s with pending := some { p with nextState := .createBss } }
  | .createBss =>
    if (p.config.config.bss.head?.all fun bss => !bss.isMld) && (wdevAdd env.wdevCreate).isSome
    then { s.abort with abandoned := true }
    else s.call env p .checkPhy
  | .checkPhy =>
    if p.completed then
      if env.addIface && env.start then (s.ifaceAdd p true).abort
      else ((s.ifaceAdd p false).setState env true).call env p .wpasStopped
    else (s.setState env true).call env p .wpasStopped
  | .wpasStopped =>
    let s := s.ifaceAdd p env.addIface
    ({ s with abandoned := s.abandoned || !env.addIface }.setState env false).abort

end Phy

/-- What can happen to a phy: calls of `config_set`, with the configuration and
the previous one; of `reload`, with what the file of the stored configuration
holds now; of `config_reset`, which fails at the first phy that it goes through;
the next state of a request that runs; and a reply, which completes the call
under way. -/
inductive Event
  | configSet (env : SetEnv) (config : Config) (prev : Option Config)
  | reload (env : SetEnv) (config : Config)
  | configReset (first : Bool)
  | advance (env : StageEnv)
  | reply (completed : Bool)

/-- The effect of an event, if it can happen. -/
def Phy.step (s : Phy) : Event → Option Phy
  | .configSet env config prev =>
    if s.running then none else some (ifaceSetConfig env config (storePrev prev s))
  | .reload env config =>
    if s.running then none
    else
      match s.stored with
      -- the configuration that is null has no file, and the call ends in an exception
      | none => some s
      | some _ => some (ifaceSetConfig env config s)
  | .configReset first =>
    if s.running then none
    -- null is stored, and reading `config.phy` of it throws
    else if first then some { s with stored := none } else some s
  | .advance env =>
    match s.pending with
    | some p => if p.deferred then none else some (s.advance env p)
    | none => none
  | .reply completed =>
    match s.pending with
    | some p =>
      if p.deferred then
        some { s with pending := some { p with deferred := false, completed := completed } }
      else none
    | none => none

/-- One step of the script. -/
def Step (s : Phy) (e : Event) (t : Phy) : Prop := s.step e = some t

end NeonWrt.Hostapd
