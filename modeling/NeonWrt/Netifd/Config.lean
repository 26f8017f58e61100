import NeonWrt.Lib.CString
import NeonWrt.Lib.Table

/-!
# Configuration of a wireless device

What a wireless device gets from the configuration, and what netifd computes
from it: the interfaces that are disabled because their networks are, and the
configuration handed to the setup script. Settings that only the scripts read
are kept as opaque bytes.
-/

namespace NeonWrt.Netifd

open NeonWrt.Lib

/-- Names of devices, interfaces, networks and sections. -/
abbrev Name := Bytes

/-- The settings of an interface that netifd reads; `other` is for the scripts. -/
structure NetConfig where
  network : List Name
  networkVlan : List Name
  mode : Name
  bridgeIsolate : Bool
  isolate : Bool
  proxyArp : Bool
  multicastToUnicast : Option Bool
  other : Bytes
  deriving DecidableEq

/-- A station section. -/
structure Station where
  name : Name
  config : Bytes
  deriving DecidableEq

/-- A VLAN of an interface. -/
structure Vlan where
  name : Name
  config : NetConfig
  deriving DecidableEq

/-- An interface of a device. -/
structure Vif where
  name : Name
  config : NetConfig
  vlan : List Vlan
  sta : List Station
  deriving DecidableEq

/-- The data of a device; its name is the key under which it is configured. -/
structure DevData where
  config : Bytes
  vif : List Vif
  deriving DecidableEq

/-- What `interface_get_enabled` returns for a network; an `ifindex` of 0 is none. -/
structure NetState where
  enabled : Bool
  ifindex : ℕ
  deriving DecidableEq

/-- What netifd knows of the networks when it is asked: their state, and the
bridge that `interface_get_bridge` notes for them. -/
structure Env where
  getEnabled : Name → Option NetState
  getBridge : Name → Option Name

/-- A VLAN as the scripts see it. -/
structure VlanConfig where
  name : Name
  config : NetConfig
  bridge : Option Name
  deriving DecidableEq

/-- An interface as the scripts see it. -/
structure IfaceConfig where
  name : Name
  config : NetConfig
  bridge : Option Name
  vlans : List VlanConfig
  stas : List Station
  deriving DecidableEq

/-- `handler_config`: interfaces and VLANs are numbered from `01` on in the
order of these lists. -/
structure HandlerConfig where
  config : Bytes
  interfaces : List IfaceConfig
  deriving DecidableEq

/-- The first network of a list that has a bridge. -/
def bridgeOf (getBridge : Name → Option Name) (config : NetConfig) : Option Name :=
  config.network.findSome? getBridge

/-- The `handler_config` of `wdev_config_init`: disabled interfaces are left out. -/
def handlerConfig (data : DevData) (disabled : List Name) (getBridge : Name → Option Name) :
    HandlerConfig where
  config := data.config
  interfaces := (data.vif.filter (·.name ∉ disabled)).map fun vif =>
    { name := vif.name
      config := vif.config
      bridge := bridgeOf getBridge vif.config
      vlans := vif.vlan.map fun vlan => ⟨vlan.name, vlan.config, bridgeOf getBridge vlan.config⟩
      stas := vif.sta }

/-- Only which names are disabled matters, not their order. -/
theorem handlerConfig_congr {disabled disabled' : List Name} (data : DevData)
    (getBridge : Name → Option Name) (h : ∀ n, n ∈ disabled ↔ n ∈ disabled') :
    handlerConfig data disabled getBridge = handlerConfig data disabled' getBridge := by
  have hfilter : data.vif.filter (·.name ∉ disabled) = data.vif.filter (·.name ∉ disabled') :=
    List.filter_congr fun vif _ => by simp [h]
  rw [handlerConfig, handlerConfig, hfilter]

/-- Whether one of the networks is enabled, if netifd knows any of them, and the
interface index of the last one that has one. -/
def netStates (getEnabled : Name → Option NetState) (network : List Name) :
    Option Bool × Option ℕ :=
  network.foldl (fun (enabled, ifindex) net =>
    match getEnabled net with
    | none => (enabled, ifindex)
    | some state =>
      (if state.enabled then some true else if enabled = none then some false else enabled,
        if state.ifindex ≠ 0 then some state.ifindex else ifindex)) (none, none)

/-- The variables of the loop in `wdev_update_disabled_vifs`. -/
structure VifStates where
  disabled : List Name
  cache : Table Name ℕ
  changed : Bool

/-- One round of the loop, for an interface or VLAN. -/
def vifStep (getEnabled : Name → Option NetState) (s : VifStates) (name : Name)
    (config : NetConfig) : VifStates :=
  let (enabled, ifindex) := netStates getEnabled config.network
  { disabled := if enabled = some false then s.disabled ++ [name] else s.disabled
    changed := s.changed || (enabled ≠ some false && ifindex ≠ s.cache.get? name)
    cache := match ifindex with
      | some i => s.cache.set name i
      | none => s.cache.erase name }

/-- The interfaces of a device, each followed by its VLANs. -/
def allVifs (data : DevData) : List (Name × NetConfig) :=
  data.vif.flatMap fun vif => (vif.name, vif.config) :: vif.vlan.map fun v => (v.name, v.config)

/-- The loop of `wdev_update_disabled_vifs`. -/
def vifStates (getEnabled : Name → Option NetState) (data : DevData) (cache : Table Name ℕ) :
    VifStates :=
  (allVifs data).foldl (fun s v => vifStep getEnabled s v.1 v.2) ⟨[], cache, false⟩

/-- `is_equal` on two objects that have only the value `true`. -/
def sameNames (a b : List Name) : Bool := a.all (· ∈ b) && b.all (· ∈ a)

theorem sameNames_iff {a b : List Name} : sameNames a b = true ↔ ∀ n, n ∈ a ↔ n ∈ b := by
  simp only [sameNames, Bool.and_eq_true, List.all_eq_true, decide_eq_true_eq]
  exact ⟨fun h n => ⟨h.1 n, h.2 n⟩, fun h => ⟨fun n => (h n).mp, fun n => (h n).mpr⟩⟩

end NeonWrt.Netifd
