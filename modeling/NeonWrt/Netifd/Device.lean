import NeonWrt.Netifd.Config

/-!
# Wireless devices

The methods of a wireless device in `wireless-device.uc`. A method changes the
device and may queue an operation for its handler script with `run_handler`,
always as the last thing it does; `Outcome` holds both. Which script runs when
is in `NeonWrt.Netifd.Handler`.
-/

namespace NeonWrt.Netifd

open NeonWrt.Lib

/-- `wdev.state` -/
inductive WState
  | down | setup | up | teardown
  deriving DecidableEq

/-- The operations of a handler script. -/
inductive Op
  | setup | teardown
  deriving DecidableEq

/-- `type` of an entry of `handler_data`. -/
inductive DataType
  | device | vif | vlan
  deriving DecidableEq

/-- An entry of `handler_data`, which the scripts set; the entry of the device
itself has no interface configuration. -/
structure HandlerData where
  type : DataType
  config : Option NetConfig
  ifname : Option Name
  deriving DecidableEq

/-- A process that netifd watches. -/
structure Proc where
  pid : ℕ
  exe : Name
  deriving DecidableEq

/-- The argument of `netifd.device_set`; absent entries are `none`. -/
structure DevSettings where
  isolate : Bool
  wirelessAp : Bool
  multicastToUnicast : Option Bool
  proxyarp : Option Bool
  wirelessIsolate : Option Bool
  deriving DecidableEq

/-- What a device tells netifd. -/
inductive Effect
  /-- `netifd.device_set` -/
  | deviceSet (dev : Name) (settings : DevSettings)
  /-- `netifd.interface_handle_link` -/
  | link (net dev : Name) (vlan : List Name) (up : Bool)
  deriving DecidableEq

/-- `handle_link`; without a configuration reading it raises an exception. -/
def handleLink (dev : Name) (data : HandlerData) (up : Bool) : Option (List Effect) :=
  data.config.map fun config =>
    let ap := dev ∈ data.ifname ∧
      (data.type = .vlan ∨ data.type = .vif ∧ config.mode = ascii "ap")
    let vifAp := data.type = .vif ∧ config.mode = ascii "ap"
    let settings : DevSettings :=
      { isolate := config.bridgeIsolate
        wirelessAp := ap
        multicastToUnicast := if ap then config.multicastToUnicast else none
        proxyarp := if vifAp then some config.proxyArp else none
        wirelessIsolate := if vifAp then some config.isolate else none }
    (if up then [.deviceSet dev settings] else []) ++
      config.network.map fun net => .link net dev config.networkVlan up

/-- The loop over `handler_data` that announces every interface: what it tells
netifd, and whether it got to the end. -/
def linkAll (up : Bool) : List (Name × HandlerData) → List Effect × Bool
  | [] => ([], true)
  | (_, data) :: entries =>
    match data.ifname with
    | none => linkAll up entries
    | some ifname =>
      match handleLink ifname data up with
      | none => ([], false)
      | some effects =>
        let (rest, ok) := linkAll up entries
        (effects ++ rest, ok)

/-- A wireless device. What it told netifd so far, and the configuration that
its last setup script was started with, are not in the program. -/
structure Wdev where
  name : Name
  data : DevData
  autostart : Bool
  state : WState
  configChange : Bool
  delete : Bool
  retry : Option ℤ
  retrySetupFailed : Bool
  cancelSetup : Bool
  disabledVifs : List Name
  ifindexCache : Table Name ℕ
  handlerConfig : HandlerConfig
  handlerData : Table Name HandlerData
  procs : List Proc
  procTimer : Bool
  effects : List Effect
  started : Option HandlerConfig

/-- What a method leaves: the device, the operation it queued with
`run_handler`, whether it deleted the device, and whether it counted a failed setup. -/
structure Outcome where
  wdev : Wdev
  queued : Option Op
  deleted : Bool
  counted : Bool

/-- `DEFAULT_RETRY` -/
def defaultRetry : ℤ := 3

namespace Wdev

variable (d : Wdev)

/-- A method that queues nothing. -/
def keep : Outcome := ⟨d, none, false, false⟩

/-- `wdev_proc_reset` -/
def procReset : Wdev := { d with procs := [], procTimer := false }

/-- `setup` -/
def setup : Outcome :=
  if d.state ≠ .up ∧ d.state ≠ .down then d.keep
  else if !d.autostart || d.retrySetupFailed then d.keep
  else ⟨{ d.procReset with configChange := false, state := .setup }, some .setup, false, false⟩

/-- `teardown` -/
def teardown : Outcome :=
  let d := { d with cancelSetup := false }
  if d.state = .teardown ∨ d.state = .down then d.keep
  else ⟨{ d.procReset with state := .teardown }, some .teardown, false, false⟩

/-- `wdev_config_init`: only the entry of the device itself survives in `handler_data`. -/
def configInit (env : Env) : Wdev :=
  { d with
    handlerConfig := Netifd.handlerConfig d.data d.disabledVifs env.getBridge
    handlerData := match d.handlerData.get? d.name with
      | some e => Table.set ∅ d.name e
      | none => ∅ }

/-- `wdev_update_disabled_vifs`; what it returns is `config_change`. -/
def updateDisabledVifs (env : Env) : Wdev :=
  let s := vifStates env.getEnabled d.data d.ifindexCache
  { d with
    ifindexCache := s.cache
    disabledVifs := s.disabled
    configChange := d.configChange || s.changed || !sameNames d.disabledVifs s.disabled }

/-- `wdev_reset` -/
def reset : Wdev := { d with retry := some defaultRetry, retrySetupFailed := false }

/-- `check` -/
def check (env : Env) : Outcome :=
  let d := d.updateDisabledVifs env
  if !d.configChange then d.keep else (d.configInit env).setup

/-- What `update` does to the device before it calls `check`. -/
def withData : Option DevData → Wdev
  | some data =>
    { { d with data := data, ifindexCache := ∅, retrySetupFailed := false, delete := false }.reset
      with configChange := true }
  | none => { d.reset with configChange := true }

/-- `update`; without data the device is only reconfigured. -/
def update (env : Env) (data : Option DevData) : Outcome :=
  if data = some d.data then d.keep else (d.withData data).check env

/-- `start` -/
def start (env : Env) : Outcome :=
  if d.delete then d.keep
  else
    let d := { d with autostart := true }.reset
    if d.state ≠ .down then d.keep
    else
      let d := d.updateDisabledVifs env
      (if d.configChange then d.configInit env else d).setup

/-- `retry_setup` -/
def retrySetup (env : Env) : Outcome :=
  if d.delete then d.keep
  else if d.state ≠ .down ∨ !d.autostart then d.keep
  else d.start env

/-- `stop` -/
def stop : Outcome :=
  let d := { d with autostart := false }
  match d.state with
  | .setup => { d with cancelSetup := true }.keep
  | .up => d.teardown
  | _ => d.keep

/-- `destroy` -/
def destroy : Outcome :=
  let d := { d with autostart := false, delete := true }
  if d.state ≠ .down then d.stop else { d.keep with deleted := true }

/-- `wdev_mark_up`, as `notify` calls it. -/
def markUp : Outcome :=
  if d.state ≠ .setup then d.keep
  else
    let (effects, ok) := linkAll true d.handlerData.entries
    let d := { d with effects := d.effects ++ effects }
    (if ok then { d with state := .up } else d).keep

/-- The interface or VLAN that `wdev_set_data` is called for, with the key of its
entry: interfaces and VLANs are given by their number, from 1 on. -/
def dataTarget (vif vlan : Option ℕ) : Option (Name × DataType × Option NetConfig) :=
  match vif, vlan with
  | none, none => some (d.name, .device, none)
  | none, some _ => none
  | some i, none => do
    let vif ← if i = 0 then none else d.handlerConfig.interfaces[i - 1]?
    return (vif.name, .vif, some vif.config)
  | some i, some j => do
    let vif ← if i = 0 then none else d.handlerConfig.interfaces[i - 1]?
    let vlan ← if j = 0 then none else vif.vlans[j - 1]?
    return (vif.name ++ ascii "/" ++ vlan.name, .vlan, some vlan.config)

/-- `wdev_set_data`; of the data only the interface name matters to netifd. -/
def setData (vif vlan : Option ℕ) (ifname : Option Name) : Outcome :=
  match d.dataTarget vif vlan with
  | none => d.keep
  | some (key, type, config) =>
    { d with handlerData := d.handlerData.set key ⟨type, config, ifname⟩ }.keep

/-- `wdev_proc_add`, as `notify` calls it. -/
def procAdd (proc : Proc) : Outcome :=
  if d.state ≠ .setup ∧ d.state ≠ .up then d.keep
  else if proc.pid = 0 ∨ proc.exe = [] then d.keep
  else { d with procs := d.procs ++ [proc], procTimer := true }.keep

/-- `NOTIFY_CMD_SET_RETRY` -/
def setRetry (retry : Option ℤ) : Outcome := { d with retry := some (retry.getD defaultRetry) }.keep

/-- `wdev_proc_check`, when the timer of the device fires. -/
def procCheck (alive : Proc → Bool) : Outcome :=
  if !d.procTimer then d.keep
  else if d.procs.any (!alive ·) then d.teardown
  else d.keep

/-- The interface that a station interface belongs to: `m[1]` for a name that
matches `(.+)\.sta.+`, where the first part is as long as possible. -/
def hotplugName (name : Name) : Name :=
  match (List.range name.length).reverse.find? fun i =>
      0 < i ∧ (ascii ".sta").isPrefixOf (name.drop i) ∧ i + 4 < name.length with
  | some i => name.take i
  | none => name

/-- The interfaces and VLANs that a network device belongs to. -/
def hotplugEntries (dev : Name) : List (Name × HandlerData) :=
  d.handlerData.entries.filter fun e =>
    e.2.ifname = some (hotplugName dev) ∧ (e.2.type = .vif ∨ e.2.type = .vlan)

/-- `hotplug` -/
def hotplug (dev : Name) (add : Bool) : Outcome :=
  let effects := (d.hotplugEntries dev).flatMap fun e => (handleLink dev e.2 add).getD []
  { d with effects := d.effects ++ effects }.keep

/-- What `wdev_setup_cb` does to the retry counter after a failed setup. -/
def countFailure : Wdev :=
  if 0 < d.retry.getD 0 then { d with retry := d.retry.map (· - 1) }
  else { d with retrySetupFailed := true }

/-- `wdev_setup_cb`, when a setup script has ended. -/
def setupCb (env : Env) : Outcome :=
  if d.state ≠ .setup then
    if d.state = .up ∧ d.configChange then (d.configInit env).setup else d.keep
  else { d.countFailure.teardown with counted := true }

/-- `wdev_teardown_cb`, when a teardown script has ended. -/
def teardownCb : Outcome :=
  let (effects, ok) := linkAll false d.handlerData.entries
  let d := { d with effects := d.effects ++ effects }
  if !ok then d.keep
  else
    let d := { d with handlerData := ∅, state := .down }
    if d.delete then { d.keep with deleted := true } else d.setup

end Wdev

/-- `new`, without the timer it sets. -/
def Wdev.new (env : Env) (name : Name) (data : DevData) : Wdev :=
  let d : Wdev :=
    { name := name
      data := data
      autostart := true
      state := .down
      configChange := false
      delete := false
      retry := none
      retrySetupFailed := false
      cancelSetup := false
      disabledVifs := []
      ifindexCache := ∅
      handlerConfig := ⟨[], []⟩
      handlerData := ∅
      procs := []
      procTimer := false
      effects := []
      started := none }
  (d.updateDisabledVifs env).configInit env

end NeonWrt.Netifd
