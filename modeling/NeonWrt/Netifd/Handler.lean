import NeonWrt.Netifd.Device
import NeonWrt.Lib.Run

/-!
# Handler scripts of the wireless devices

The part of `wireless-device.uc` that all devices share, and the functions of
`wireless.uc` that call the devices. Operations wait in `wdev_handler`, one
entry for each device, and one script runs at a time. When it ends, by exit, by
its timeout or because it could not be started, the device is called back and
may queue its next operation.

The code runs to its end before the next event: what is left to do is an agenda,
and while it is not empty nothing else happens. `run_handler` is the last thing
a method does, so `run_next_handler` comes next on the agenda; one round of its
loop is one step, and a script that cannot be started ends in that round.
-/

namespace NeonWrt.Netifd

open NeonWrt.Lib

/-- A running handler script, and whether it has reported that the device is up. -/
structure Script where
  name : Name
  op : Op
  reported : Bool
  deriving DecidableEq

/-- What was asked of a device last. -/
inductive Request
  | start | stop | destroy
  deriving DecidableEq

/-- A call of a method of a device. -/
inductive Call
  | start
  | stop
  | destroy
  | update (data : Option DevData)
  | check
  | retrySetup
  /-- `NOTIFY_CMD_UP` -/
  | notifyUp
  /-- `NOTIFY_CMD_SET_DATA` -/
  | setData (vif vlan : Option ℕ) (ifname : Option Name)
  /-- `NOTIFY_CMD_PROCESS_ADD` -/
  | procAdd (proc : Proc)
  /-- `NOTIFY_CMD_SET_RETRY` -/
  | setRetry (retry : Option ℤ)
  | hotplug (dev : Name) (add : Bool)
  /-- The process timer of the device fires. -/
  | procCheck (alive : Proc → Bool)

/-- The method of a call. -/
def Call.run (env : Env) : Call → Wdev → Outcome
  | .start, d => d.start env
  | .stop, d => d.stop
  | .destroy, d => d.destroy
  | .update data, d => d.update env data
  | .check, d => d.check env
  | .retrySetup, d => d.retrySetup env
  | .notifyUp, d => d.markUp
  | .setData vif vlan ifname, d => d.setData vif vlan ifname
  | .procAdd proc, d => d.procAdd proc
  | .setRetry retry, d => d.setRetry retry
  | .hotplug dev add, d => d.hotplug dev add
  | .procCheck alive, d => d.procCheck alive

/-- Something that is still to be done before the next event. -/
inductive Task
  /-- `run_next_handler` -/
  | runNext
  /-- A device is destroyed because the new configuration does not have it. -/
  | remove (name : Name)
  /-- A device of the new configuration is updated or created. -/
  | place (name : Name) (data : DevData)
  /-- `config_start` -/
  | configStart
  /-- A call of a device of a loop that leaves out those without `autostart`. -/
  | ifAutostart (name : Name) (c : Call)

/-- The state of `wireless-device.uc`: `netifd.wireless.devices`, `wdev_handler`,
`wdev_cur`, the script processes, `wdev_script_timeout`, whether a timer that
calls `run_next_handler` may be pending (every new device adds one), and the agenda. The failed setups that were counted, with whether the
script had reported, what was asked of the devices last, and the devices of the
last reload are not in the program. -/
structure Wireless where
  devices : Table Name Wdev
  queue : Table Name Op
  cur : Option (Name × Op)
  scripts : List Script
  timeout : Option (Name × Op)
  timer : Bool
  agenda : List Task
  counted : List (Name × Bool)
  requests : Table Name Request
  target : Table Name DevData

namespace Wireless

/-- Nothing is configured yet. -/
def initial : Wireless where
  devices := ∅
  queue := ∅
  cur := none
  scripts := []
  timeout := none
  timer := false
  agenda := []
  counted := []
  requests := ∅
  target := ∅

variable (s : Wireless)

/-- No script runs and none is queued. -/
def Quiet : Prop := s.cur = none ∧ s.queue.entries = []

/-- The result of a method: the device is stored or deleted, and the operation is
queued and run. -/
def put (name : Name) (o : Outcome) (reported : Bool) : Wireless :=
  { s with
    devices := if o.deleted then s.devices.erase name else s.devices.set name o.wdev
    queue := match o.queued with
      | some op => s.queue.set name op
      | none => s.queue
    agenda := if o.queued.isSome then .runNext :: s.agenda else s.agenda
    counted := if o.counted then s.counted ++ [(name, reported)] else s.counted }

/-- The callback of an operation. -/
def callback (env : Env) : Op → Wdev → Outcome
  | .setup, d => d.setupCb env
  | .teardown, d => d.teardownCb

/-- `run_handler_cb` -/
def runHandlerCb (env : Env) (name : Name) (op : Op) (reported : Bool) : Wireless :=
  match s.cur with
  | none => s
  | some cur =>
    if cur.1 ≠ name then s
    else
      let s := { s with timeout := none, cur := none, timer := true }
      match s.devices.get? name with
      | none => s
      | some d => s.put name (callback env op d) reported

/-- What a call means for the request that was made last; a start of the code
itself is none. -/
def noteRequest (name : Name) : Call → Table Name Request
  | .start => s.requests.set name .start
  | .stop => s.requests.set name .stop
  | .destroy => s.requests.set name .destroy
  | .update _ => s.requests.erase name
  | _ => s.requests

/-- A notification that reaches the running setup script of its device. -/
def noteReport (name : Name) : Call → List Script
  | .notifyUp => s.scripts.map fun sc =>
    if sc.name = name ∧ sc.op = .setup then { sc with reported := true } else sc
  | _ => s.scripts

/-- A method of a device is called, if there is such a device. -/
def call (env : Env) (name : Name) (c : Call) : Wireless :=
  match s.devices.get? name with
  | none => s
  | some d =>
    { s with requests := s.noteRequest name c, scripts := s.noteReport name c }.put name
      (c.run env d) false

/-- A device is created. -/
def create (env : Env) (name : Name) (data : DevData) : Wireless :=
  { s with
    devices := s.devices.set name (.new env name data)
    requests := s.requests.erase name
    timer := true }

/-- The device whose script is about to start gets its configuration noted. -/
def noteStarted (name : Name) (op : Op) : Table Name Wdev :=
  match s.devices.get? name, op with
  | some d, .setup => s.devices.set name { d with started := some d.handlerConfig }
  | _, _ => s.devices

/-- `__run_next_handler`, for an entry of the queue. -/
def dispatch (env : Env) (spawned : Bool) (name : Name) (op : Op) : Wireless :=
  let s := { s with cur := some (name, op), queue := s.queue.erase name }
  if spawned then
    { s with
      devices := s.noteStarted name op
      scripts := s.scripts ++ [⟨name, op, false⟩]
      timeout := some (name, op) }
  else s.runHandlerCb env name op false

/-- The next step of the agenda. For a round of `run_next_handler`, `pick` is the
first name in the order of queueing times and `spawned` is whether its script
can be started. -/
def next (env : Env) (pick : Name) (spawned : Bool) : Option Wireless :=
  match s.agenda with
  | [] => none
  | .runNext :: rest =>
    match s.cur, s.queue.entries with
    | none, _ :: _ =>
      (s.queue.get? pick).map fun op =>
        -- The loop goes on after this round.
        s.dispatch env spawned pick op
    | _, _ => some { s with agenda := rest }
  | .remove name :: rest => some ({ s with agenda := rest }.call env name .destroy)
  | .place name data :: rest =>
    match s.devices.get? name with
    | some _ => some ({ s with agenda := rest }.call env name (.update (some data)))
    | none => some ({ s with agenda := rest }.create env name data)
  | .configStart :: rest =>
    some { s with agenda := s.devices.keys.map (.ifAutostart · .start) ++ rest }
  | .ifAutostart name c :: rest =>
    match s.devices.get? name with
    | none => some { s with agenda := rest }
    | some d =>
      if d.autostart then some ({ s with agenda := rest }.call env name c)
      else some { s with agenda := rest }

end Wireless

/-- What can happen. -/
inductive Act
  /-- The next step of the agenda. -/
  | next (pick : Name) (spawned : Bool)
  /-- A call of a device over ubus, or by its process timer. -/
  | call (name : Name) (c : Call)
  /-- A device is created, unless there is one of the name. -/
  | new (name : Name) (data : DevData)
  /-- `update_config` with a new set of devices, and then `config_start`. -/
  | reload (devices : Table Name DevData)
  /-- `check_interfaces` -/
  | checkInterfaces
  /-- A network device appears or disappears. -/
  | hotplug (dev : Name) (add : Bool)
  /-- A script process exits. -/
  | exit (i : ℕ)
  /-- `wdev_script_timeout` fires. -/
  | timeout
  /-- A timer that calls `run_next_handler` fires. -/
  | timer

/-- An event, with what netifd knows of the networks then. -/
structure Event where
  act : Act
  env : Env

/-- The work of `update_config` and `config_start`. -/
def reloadTasks (s : Wireless) (devices : Table Name DevData) : List Task :=
  ((s.devices.keys.filter (· ∉ devices.keys)).map .remove ++
    devices.entries.map fun e => .place e.1 e.2) ++ [.configStart]

/-- The effect of an event that comes when the agenda is empty. -/
def react (s : Wireless) (env : Env) : Act → Option Wireless
  | .next _ _ => none
  | .call name c => some (s.call env name c)
  | .new name data =>
    match s.devices.get? name with
    | some _ => none
    | none => some (s.create env name data)
  | .reload devices => some { s with agenda := reloadTasks s devices, target := devices }
  | .checkInterfaces => some { s with agenda := s.devices.keys.map (.ifAutostart · .check) }
  | .hotplug dev add =>
    some { s with agenda := s.devices.keys.map (.ifAutostart · (.hotplug dev add)) }
  | .exit i =>
    s.scripts[i]?.map fun sc =>
      { s with scripts := s.scripts.eraseIdx i }.runHandlerCb env sc.name sc.op sc.reported
  | .timeout =>
    match s.timeout, s.scripts.getLast? with
    | some (name, op), some sc =>
      some ({ s with scripts := s.scripts.dropLast }.runHandlerCb env name op sc.reported)
    | _, _ => none
  | .timer => if s.timer then some { s with agenda := [.runNext] } else none

/-- One step: the agenda first, then the next event. -/
def step (s : Wireless) (e : Event) : Option Wireless :=
  match e.act, s.agenda with
  | .next pick spawned, _ => s.next e.env pick spawned
  | _, [] => react s e.env e.act
  | _, _ :: _ => none

end NeonWrt.Netifd
