import NeonWrt.Lib.Blanks
import NeonWrt.Lib.Number
import NeonWrt.Lib.Table
import NeonWrt.Lib.Ucode

/-!
# The wireless configuration of netifd

`config_init` of `wireless.uc` expands the sections of the UCI package `wireless`, and what services
provide, to the devices and the table of MLO interfaces that `update_config` is called with: the
devices, the vifs of each iface, and the vlans and stations of each vif, in five loops. A vif of an
iface is an object that is in the list of its device and in that of its iface, so the vifs are in a
store here, and the lists have their places in it.

A call that raises an exception has no result. The file is in strict mode, where a name that is not
declared raises, and so does a property of what is neither an object nor an array.
-/

namespace NeonWrt.Wireless

open NeonWrt.Lib

/-- What ucode does with values of any kind: a value as a string, as a key is one; a value as a
number; `==`; and `index` of a value in an array, if it is there. -/
structure Ucode where
  text : UcodeValue → Bytes
  text_string : ∀ s, text (.string s) = s
  number : UcodeValue → UcodeValue
  same : UcodeValue → UcodeValue → Bool
  index : List UcodeValue → UcodeValue → Option ℕ

/-- The value of a UCI option. -/
inductive UciOption
  | text (s : Bytes)
  | list (items : List Bytes)

def UciOption.value : UciOption → UcodeValue
  | .text s => .string s
  | .list items => .array (items.map .string)

/-- A section of a UCI package: its type and its options. -/
structure UciSection where
  type : Bytes
  data : Table Bytes UciOption

/-- An object with attributes. -/
abbrev Attributes := Table Bytes UcodeValue

/-- An attribute, null if it is missing. -/
def Attributes.attr (config : Attributes) (key : Bytes) : UcodeValue :=
  (config.get? key).getD .null

/-- `{ ...config, ...members }` -/
def Attributes.spread (config : Attributes) (members : List (Bytes × UcodeValue)) : Attributes :=
  members.foldl (fun config m => config.set m.1 m.2) config

/-- A property of a value; one of a value that is neither an object nor an array raises. -/
def property (key : Bytes) : UcodeValue → Option UcodeValue
  | .object members => some (.member members key)
  | .array _ => some .null
  | _ => none

/-- The pairs of a loop over a value. -/
def forIn : UcodeValue → List (Bytes × UcodeValue)
  | .object members => members
  | .array items => items.mapIdx fun i item => (dec i, item)
  | _ => []

/-- The entries of the data of all services, instances and types. -/
def serviceEntries (udata : UcodeValue) : List (Bytes × UcodeValue) :=
  (forIn udata).flatMap fun svc => (forIn svc.2).flatMap fun ins =>
    (forIn ins.2).flatMap fun data => forIn data.2

/-- `parse_bool` -/
def parseBool : UcodeValue → UcodeValue
  | .string s =>
    if s = ascii "1" ∨ s = ascii "true" then .bool true
    else if s = ascii "0" ∨ s = ascii "false" then .bool false
    else .null
  | _ => .null

/-- `split(val, /\s+/)` -/
def splitBlanks (s : Bytes) : List Bytes := (squeeze isspace 32 false s).splitOn 32

/-- `parse_array`, which gives nothing for a missing option. -/
def parseArray : Option UciOption → List Bytes
  | none => []
  | some (.text s) => splitBlanks s
  | some (.list items) => items

/-- The value of an option, null if it is missing. -/
def optionValue (data : Table Bytes UciOption) (key : Bytes) : UcodeValue :=
  ((data.get? key).map UciOption.value).getD .null

/-- `type_parser`, by the number of a type. -/
def typeParser (u : Ucode) (typeId : ℕ) (val : UciOption) : UcodeValue :=
  if typeId = 1 then .array ((parseArray (some val)).map .string)
  else if typeId = 5 then u.number val.value
  else if typeId = 7 then parseBool val.value
  else val.value

/-- `parse_attribute_list` -/
def parseAttributeList (u : Ucode) (data : Table Bytes UciOption) (spec : Table Bytes ℕ) :
    Attributes :=
  spec.entries.foldl (fun ret e => match data.get? e.1 with
    | none => ret
    | some val => ret.set e.1 (typeParser u e.2 val)) ∅

/-- A handler: the types of the attributes of each kind. No script lists `radio_macaddr`, which by
default is an array. -/
structure Handler where
  device : Table Bytes ℕ
  iface : Table Bytes ℕ
  vlan : Table Bytes ℕ
  station : Table Bytes ℕ
  radioMacaddr : iface.get? (ascii "radio_macaddr") = some 1

/-- What the function is called with: the handlers, the UCI package, and the data that services
provide for devices and for ifaces. -/
structure WirelessEnv where
  ucode : Ucode
  handlers : Table Bytes Handler
  uci : Table Bytes UciSection
  deviceData : UcodeValue
  ifaceData : UcodeValue

/-- The name that is made for an MLO interface. -/
def mldName (mode : Bytes) (idx : ℕ) : Bytes := mode ++ ascii "-mld" ++ dec idx

/-- `mlo_vif_create`: the name, and the new `vif_idx` and `mlo_vifs`. -/
def mloVifCreate (u : Ucode) (config : Attributes) (radioConfig : UcodeValue)
    (vifIdx : Table Bytes ℕ) (mloVifs : Table Bytes Attributes) :
    UcodeValue × Table Bytes ℕ × Table Bytes Attributes :=
  let wds := config.attr (ascii "wds")
  let mloConfig := (if wds.truthy then config.set (ascii "4addr") wds else config).set
    (ascii "radio_config") radioConfig
  let mode := u.text (config.attr (ascii "mode"))
  if (config.attr (ascii "ifname")).truthy then
    (config.attr (ascii "ifname"), vifIdx,
      mloVifs.set (u.text (config.attr (ascii "ifname"))) mloConfig)
  else
    let idx := (vifIdx.get? mode).getD 0
    (.string (mldName mode idx), vifIdx.set mode (idx + 1), mloVifs.set (mldName mode idx) mloConfig)

/-- An item of a value; one of a value that is neither an object nor an array raises. -/
def itemAt (u : Ucode) (idx : ℕ) : UcodeValue → Option UcodeValue
  | .array items => some (items[idx]?.getD .null)
  | .object members => some (.member members (u.text (.int idx)))
  | _ => none

/-- `mlo_vif_macaddr` -/
def mloVifMacaddr (u : Ucode) (config : Attributes) (devNames : List UcodeValue)
    (devName : UcodeValue) : Option Attributes :=
  let config :=
    if u.same devName (devNames.headD .null) then config else config.erase (ascii "macaddr")
  if (config.attr (ascii "radio_macaddr")).truthy then
    match u.index devNames devName with
    | none => some config
    | some idx =>
      (itemAt u idx (config.attr (ascii "radio_macaddr"))).map fun macaddr =>
        if macaddr.truthy then config.set (ascii "macaddr") macaddr else config
  else some config

/-- A vif of an iface: a name, the attributes, the device, and the vlans and stations. -/
structure Vif where
  name : Bytes
  config : Attributes
  device : Bytes
  vlan : List (Bytes × Attributes)
  sta : List (Bytes × Attributes)

/-- A vif that a service provides. -/
structure ServiceVif where
  name : Bytes
  device : UcodeValue
  config : UcodeValue
  vlans : Option UcodeValue
  sta : UcodeValue

/-- A vif in the list of a device: the place of one of an iface, or one of a service. -/
inductive VifRef
  | stored (id : ℕ)
  | service (vif : ServiceVif)

/-- A device that `update_config` is called with. -/
structure WifiDevice where
  name : Bytes
  config : Attributes
  vif : List VifRef

section Uci

variable (e : WirelessEnv)

/-- The sections of a kind that are enabled; a device counts as enabled. -/
def WirelessEnv.sections (kind : String) : List (Bytes × Table Bytes UciOption) :=
  (e.uci.entries.filter fun s => s.2.type = ascii "wifi-" ++ ascii kind &&
    (kind = "device" || !(parseBool (optionValue s.2.data (ascii "disabled"))).truthy)).map
      fun s => (s.1, s.2.data)

/-- The handler of a type, if there is a type. -/
def WirelessEnv.handlerOf (type : UcodeValue) : Option Handler :=
  if type.truthy then e.handlers.get? (e.ucode.text type) else none

/-- The variables behind the loop over the devices. -/
structure DeviceState where
  devices : Table Bytes WifiDevice
  handlers : Table Bytes Handler
  radioIdx : Table Bytes UcodeValue

/-- A pass of the loop over the devices. -/
def deviceStep (st : DeviceState) (s : Bytes × Table Bytes UciOption) : DeviceState :=
  match e.handlerOf (optionValue s.2 (ascii "type")) with
  | none => st
  | some handler =>
    { devices := st.devices.set s.1 ⟨s.1, parseAttributeList e.ucode s.2 handler.device, []⟩
      handlers := st.handlers.set s.1 handler
      radioIdx :=
        match s.2.get? (ascii "radio") with
        | none => st.radioIdx
        | some radio => st.radioIdx.set s.1 (e.ucode.number radio.value) }

/-- The loop over the devices. -/
def deviceLoop : DeviceState := (e.sections "device").foldl (deviceStep e) ⟨∅, ∅, ∅⟩

/-- The variables of the loop over the ifaces. -/
structure IfaceState where
  store : List Vif
  devices : Table Bytes WifiDevice
  vifs : Table Bytes (List ℕ)
  vifIdx : Table Bytes ℕ
  mloVifs : Table Bytes Attributes

/-- A new vif, in the lists of its device and of its iface. -/
def IfaceState.push (st : IfaceState) (vif : Vif) (dev : WifiDevice) : IfaceState :=
  { st with
    store := st.store ++ [vif]
    devices := st.devices.set vif.device
      { dev with vif := dev.vif ++ [.stored st.store.length] }
    vifs := st.vifs.set vif.name ((st.vifs.get? vif.name).getD [] ++ [st.store.length]) }

/-- What is fixed in the loop over the devices of an iface. -/
structure IfaceInfo where
  name : Bytes
  data : Table Bytes UciOption
  devNames : List Bytes
  mlo : Bool
  radios : UcodeValue
  radioConfig : UcodeValue

/-- The variables of the loop over the devices of an iface: those of the loop around it, `ifname`
and `mlo_created`. -/
structure VifState where
  st : IfaceState
  ifname : UcodeValue
  mloCreated : Bool

/-- The entry of an iface in the table of MLO interfaces, which is made once. -/
def VifState.createMlo (v : VifState) (info : IfaceInfo) (config : Attributes) : VifState :=
  if info.mlo && !v.mloCreated then
    let created := mloVifCreate e.ucode config info.radioConfig v.st.vifIdx v.st.mloVifs
    ⟨{ v.st with vifIdx := created.2.1, mloVifs := created.2.2 }, created.1, true⟩
  else v

/-- A pass of the loop over the devices of an iface. -/
def vifStep (handlers : Table Bytes Handler) (info : IfaceInfo) (v : VifState) (devName : Bytes) :
    Option VifState :=
  match v.st.devices.get? devName, handlers.get? devName with
  | some dev, some handler =>
    if (dev.config.attr (ascii "disabled")).truthy then some v
    else
      let config := (parseAttributeList e.ucode info.data handler.iface).set (ascii "radios")
        info.radios
      let v := v.createMlo e info config
      let config := if v.ifname.truthy then config.set (ascii "ifname") v.ifname else config
      (mloVifMacaddr e.ucode config (info.devNames.map .string) (.string devName)).map
        fun config => { v with st := v.st.push ⟨info.name, config, devName, [], []⟩ dev }
  | _, _ => some v

/-- What is fixed for an iface. -/
def ifaceInfo (devices : Table Bytes WifiDevice) (radioIdx : Table Bytes UcodeValue)
    (s : Bytes × Table Bytes UciOption) : IfaceInfo where
  name := s.1
  data := s.2
  devNames := parseArray (s.2.get? (ascii "device"))
  mlo := (parseBool (optionValue s.2 (ascii "mlo"))).truthy
  radios := .array ((parseArray (s.2.get? (ascii "device"))).filterMap radioIdx.get?)
  radioConfig := .array ((parseArray (s.2.get? (ascii "device"))).map fun v =>
    ((devices.get? v).map fun dev => .object dev.config.entries).getD .null)

/-- A pass of the loop over the ifaces. -/
def ifaceStep (d : DeviceState) (st : IfaceState) (s : Bytes × Table Bytes UciOption) :
    Option IfaceState :=
  let info := ifaceInfo st.devices d.radioIdx s
  (info.devNames.foldlM (vifStep e d.handlers info) ⟨st, .null, false⟩).map VifState.st

/-- The loop over the ifaces. -/
def ifaceLoop : Option IfaceState :=
  (e.sections "iface").foldlM (ifaceStep e (deviceLoop e)) ⟨[], (deviceLoop e).devices, ∅, ∅, ∅⟩

/-- A pass of a loop over the sections that are attached to vifs: each vif of the ifaces that a
section lists, or of all, gets the attributes that its handler lists. -/
def attachStep (handlers : Table Bytes Handler) (spec : Handler → Table Bytes ℕ)
    (push : Vif → Bytes × Attributes → Vif) (st : IfaceState) (store : List Vif)
    (s : Bytes × Table Bytes UciOption) : List Vif :=
  let ifaces := parseArray (s.2.get? (ascii "iface"))
  st.vifs.entries.foldl (fun store iface =>
    if ifaces ≠ [] ∧ iface.1 ∉ ifaces then store
    else iface.2.foldl (fun store id => store.modify id fun vif =>
      match st.devices.get? vif.device, handlers.get? vif.device with
      | some _, some handler => push vif (s.1, parseAttributeList e.ucode s.2 (spec handler))
      | _, _ => vif) store) store

/-- The loop over the vlans. -/
def vlanLoop (handlers : Table Bytes Handler) (st : IfaceState) (store : List Vif) : List Vif :=
  (e.sections "vlan").foldl (attachStep e handlers Handler.vlan
    (fun vif vlan => { vif with vlan := vif.vlan ++ [vlan] }) st) store

/-- The loop over the stations. -/
def stationLoop (handlers : Table Bytes Handler) (st : IfaceState) (store : List Vif) : List Vif :=
  (e.sections "station").foldl (attachStep e handlers Handler.station
    (fun vif sta => { vif with sta := vif.sta ++ [sta] }) st) store

end Uci

section Services

variable (e : WirelessEnv)

/-- A pass of the loop over the devices of services. For a new device the name `name` is read, which
is not declared there. -/
def serviceDeviceStep (devices : Table Bytes WifiDevice) (entry : Bytes × UcodeValue) :
    Option (Table Bytes WifiDevice) :=
  match entry.2 with
  | .object config =>
    match devices.get? entry.1 with
    | some dev => some (devices.set entry.1 { dev with config := dev.config.spread config })
    | none =>
      if (e.handlers.get? (e.ucode.text (.member config (ascii "type")))).isNone then some devices
      else none
  | _ => some devices

/-- The variables of the loop over the ifaces of services. -/
structure ServiceState where
  devices : Table Bytes WifiDevice
  vifIdx : Table Bytes ℕ
  mloVifs : Table Bytes Attributes

/-- `vif.device`, as an array. -/
def serviceDevs : UcodeValue → List UcodeValue
  | .array items => items
  | device => [device]

/-- The members of an object. -/
def membersOf : UcodeValue → List (Bytes × UcodeValue)
  | .object members => members
  | _ => []

/-- A vif of a service: its attributes, whether it is an MLO interface, and its devices. -/
structure ServiceInfo where
  config : UcodeValue
  mlo : Bool
  devs : List UcodeValue

/-- The attributes as an object of their own. -/
def ServiceInfo.attributes (info : ServiceInfo) : Attributes :=
  Attributes.spread ∅ (membersOf info.config)

/-- What is read of a vif of a service: nothing if it has no attributes. -/
def serviceInfo (vif : UcodeValue) : Option (Option ServiceInfo) := do
  let devs := serviceDevs (← property (ascii "device") vif)
  let config ← property (ascii "config") vif
  if config.truthy then
    let mlo := (parseBool (← property (ascii "mlo") config)).truthy
    return some ⟨config, mlo, devs⟩
  else return none

/-- A pass of the loop over the devices of a vif of a service. -/
def serviceVifStep (name : Bytes) (vif : UcodeValue) (info : ServiceInfo) (ifname radios : UcodeValue)
    (devices : Table Bytes WifiDevice) (device : UcodeValue) : Option (Table Bytes WifiDevice) :=
  match devices.get? (e.ucode.text device) with
  | none => some devices
  | some dev => do
    let config ← if ifname.truthy then
        let config := (info.attributes.set (ascii "ifname") ifname).set (ascii "radios") radios
        (mloVifMacaddr e.ucode config info.devs device).map fun config => .object config.entries
      else some info.config
    let vlans := (property (ascii "vlans") vif).filter UcodeValue.truthy
    let sta := ((property (ascii "stations") vif).filter UcodeValue.truthy).getD (.array [])
    return devices.set (e.ucode.text device)
      { dev with vif := dev.vif ++ [.service ⟨name, device, config, vlans, sta⟩] }

/-- A pass of the loop over the vifs of services. -/
def serviceIfaceStep (radioIdx : Table Bytes UcodeValue) (st : ServiceState)
    (entry : Bytes × UcodeValue) : Option ServiceState := do
  match ← serviceInfo entry.2 with
  | none => return st
  | some info =>
    let radios := .array (info.devs.filterMap fun v => radioIdx.get? (e.ucode.text v))
    let radioConfig := .array (info.devs.filterMap fun v =>
      (st.devices.get? (e.ucode.text v)).map fun dev => .object dev.config.entries)
    let created := mloVifCreate e.ucode info.attributes radioConfig st.vifIdx st.mloVifs
    if info.mlo then
      let key := e.ucode.text created.1
      let mloVifs := created.2.2.set key
        (((created.2.2.get? key).getD ∅).set (ascii "radios") radios)
      let devices ← info.devs.foldlM
        (serviceVifStep e entry.1 entry.2 info created.1 radios) st.devices
      return ⟨devices, created.2.1, mloVifs⟩
    else
      let devices ← info.devs.foldlM (serviceVifStep e entry.1 entry.2 info .null radios) st.devices
      return { st with devices := devices }

/-- The vifs of services. -/
def WirelessEnv.serviceVifs : List (Bytes × UcodeValue) :=
  (serviceEntries e.ifaceData).flatMap fun entry => membersOf entry.2

/-- What `update_config` is called with: the devices, with the store of their vifs, and the table of
MLO interfaces. -/
structure WirelessConfig where
  devices : Table Bytes WifiDevice
  store : List Vif
  mloVifs : Table Bytes Attributes

/-- `config_init` -/
def configInit : Option WirelessConfig := do
  let d := deviceLoop e
  let st ← ifaceLoop e
  let store := stationLoop e d.handlers st (vlanLoop e d.handlers st st.store)
  let devices ← (serviceEntries e.deviceData).foldlM (serviceDeviceStep e) st.devices
  let sv ← e.serviceVifs.foldlM (serviceIfaceStep e d.radioIdx) ⟨devices, st.vifIdx, st.mloVifs⟩
  return ⟨sv.devices, store, sv.mloVifs⟩

end Services

end NeonWrt.Wireless
