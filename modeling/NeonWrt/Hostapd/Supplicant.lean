import NeonWrt.Hostapd.Vlist

/-!
# The interfaces of wpa_supplicant

`wpa_supplicant.uc` keeps one versioned list of interfaces for each phy. A call
of `config_set` replaces the list, stops what has changed, and leaves the rest to
a timer, which starts whatever is not running. `phy_set_state` stops or starts
all the interfaces of a phy. The interfaces of the supplicant itself, and the
object `iface_phy`, are shared by all phys and know them by their names alone.

Only `mld_set` makes an entry of `wpas.data.mld`. It is not among the calls here,
so that the loops over that object have nothing to do, and the interfaces of a
configuration that are marked `mlo` end with its lists.
-/

namespace NeonWrt.Hostapd.Wpas

open NeonWrt.Lib

/-- The configuration of an interface: an object with a string under `iface`. -/
structure IfaceConfig where
  iface : Bytes
  members : Table Bytes UcodeValue

/-- `is_equal` on two configurations. -/
def IfaceConfig.isEqual (a b : IfaceConfig) : Bool :=
  a.iface == b.iface && Hostapd.isEqual (.object a.members.entries) (.object b.members.entries)

/-- The configurations read the same. -/
def IfaceConfig.Same (a b : IfaceConfig) : Prop :=
  a.iface = b.iface ∧
    UcodeValue.SameReads (.object a.members.entries) (.object b.members.entries)

/-- An interface of a list. -/
structure Iface where
  config : IfaceConfig
  running : Bool

/-- A phy, with its list. -/
structure Phy where
  name : Bytes
  radio : Option ℤ
  data : Table Bytes Iface

/-- What the phys share: `iface_phy`, and the interfaces of the supplicant, the
latest one first. -/
structure Wpas where
  ifacePhy : Table Bytes Bytes
  interfaces : List IfaceConfig

/-- The state of the script. A timer is there with the phy that it starts. -/
structure State extends Wpas where
  config : Table Bytes Phy
  timers : List Bytes

/-- The state when the script is loaded. -/
def State.initial : State := ⟨⟨∅, []⟩, ∅, []⟩

/-- `wpas.add_iface`, which succeeds. -/
def Wpas.addIface (config : IfaceConfig) (w : Wpas) : Wpas :=
  { w with interfaces := config :: w.interfaces }

/-- `wpas.remove_iface`, which takes the first interface of that name. -/
def Wpas.removeIface (ifname : Bytes) (w : Wpas) : Wpas :=
  { w with interfaces := w.interfaces.eraseP (·.iface = ifname) }

/-- `iface_stop` -/
def ifaceStop (iface : Iface) (w : Wpas) : Wpas × Iface :=
  if !iface.running then (w, iface)
  else
    ((Wpas.removeIface iface.config.iface { w with ifacePhy := w.ifacePhy.erase iface.config.iface }),
      { iface with running := false })

/-- `iface_start` on an opened phy. -/
def ifaceStart (phydevName : Bytes) (iface : Iface) (w : Wpas) : Wpas × Iface :=
  if iface.running then (w, iface)
  else
    ((Wpas.addIface iface.config { w with ifacePhy := w.ifacePhy.set iface.config.iface phydevName }),
      { iface with running := true })

/-- `iface_cb`, with the new interface as it leaves it. -/
def ifaceCb (newIf oldIf : Option Iface) (w : Wpas) : Wpas × Option Iface :=
  match oldIf, newIf with
  | some old, some new =>
    if old.config.isEqual new.config then (w, some { new with running := old.running })
    else ((ifaceStop old w).1, some new)
  | some old, none => ((ifaceStop old w).1, none)
  | none, new => (w, new)

/-- `phy_name` -/
def phyName (phy : Option Bytes) (radio : Option ℤ) : Option Bytes :=
  match phy with
  | none => none
  | some name =>
    if name = [] then none
    else match radio with
      | some r => if 0 ≤ r then some (name ++ [46] ++ ascii (toString r)) else some name
      | none => some name

/-- The name under which `phy_open` opens a phy. -/
def phydevName (phy : Phy) : Bytes :=
  match phy.radio with
  | some r => if r < 0 then phy.name else phy.name ++ [46] ++ ascii (toString r)
  | none => phy.name

/-- `start_pending`, where `opens` says whether `phy_open` finds the phy. -/
def startPending (opens : Bool) (key : Bytes) (s : State) : State :=
  match s.config.get? key with
  | none => s
  | some phy =>
    if !opens then s
    else
      let (w, data) := phy.data.visit (fun _ iface w => ifaceStart (phydevName phy) iface w) s.toWpas
      { s with toWpas := w, config := s.config.set key { phy with data := data } }

/-- `prepare_config`, where `readfile` reads the file that a configuration names. -/
def prepareConfig (readfile : UcodeValue → UcodeValue) (config : IfaceConfig) : Iface where
  config := { config with
    members := config.members.set (ascii "config_data")
      (readfile ((config.members.get? (ascii "config")).getD .null)) }
  running := false

/-- The values that `set_config` gives to the list: all but those marked `mlo`. -/
def configValues (readfile : UcodeValue → UcodeValue) (configList : List IfaceConfig) :
    List (Bytes × Iface) :=
  (configList.filter fun c => !((c.members.get? (ascii "mlo")).getD .null).truthy).map fun c =>
    (c.iface, prepareConfig readfile c)

/-- `set_config` -/
def setConfig (readfile : UcodeValue → UcodeValue) (key phyName : Bytes) (radio : Option ℤ)
    (configList : List IfaceConfig) (s : State) : State :=
  let radio := radio.filter (0 ≤ ·)
  let phy := (s.config.get? key).getD ⟨phyName, radio, ∅⟩
  let (w, data) := vlistUpdate ifaceCb phy.data (configValues readfile configList) s.toWpas
  { s with toWpas := w, config := s.config.set key ⟨phy.name, radio, data⟩ }

/-- The method `phy_set_state`. -/
def phySetState (opens : Bool) (phy : Option Bytes) (radio : Option ℤ) (stop : Option Bool)
    (s : State) : State :=
  match phyName phy radio, stop with
  | some key, some stop =>
    match s.config.get? key with
    | none => s
    | some phy =>
      if stop then
        let (w, data) := phy.data.visit (fun _ iface w => ifaceStop iface w) s.toWpas
        { s with toWpas := w, config := s.config.set key { phy with data := data } }
      else startPending opens key s
  | _, _ => s

/-- The method `config_set`. -/
def configSet (readfile : UcodeValue → UcodeValue) (phy : Option Bytes) (radio : Option ℤ)
    (config : Option (List IfaceConfig)) (defer : Bool) (s : State) : State :=
  match phyName phy radio with
  | none => s
  | some key =>
    let s := match config with
      | some configList => setConfig readfile key (phy.getD []) radio configList s
      | none => s
    if defer then s else { s with timers := s.timers ++ [key] }

/-- A call, or the end of a timer, with what it finds in the file system. -/
inductive Call
  | configSet (readfile : UcodeValue → UcodeValue) (phy : Option Bytes) (radio : Option ℤ)
      (config : Option (List IfaceConfig)) (defer : Bool)
  | phySetState (opens : Bool) (phy : Option Bytes) (radio : Option ℤ) (stop : Option Bool)
  | timer (opens : Bool)

def step (s : State) : Call → State
  | .configSet readfile phy radio config defer => configSet readfile phy radio config defer s
  | .phySetState opens phy radio stop => phySetState opens phy radio stop s
  | .timer opens =>
    match s.timers with
    | [] => s
    | key :: timers => startPending opens key { s with timers := timers }

/-- The state after some calls. -/
def run (calls : List Call) : State := calls.foldl step .initial

end NeonWrt.Hostapd.Wpas
