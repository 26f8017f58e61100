import NeonWrt.Lib.CString

/-!
# Configurations of hostapd interfaces

What `iface_load_config` makes of a configuration file: the lines of the radio,
and for each BSS its lines, the settings that the script itself reads, and the
hashes of the files that its lines name. Configurations are compared by
`is_equal`, which is not quite equality: a key that is there without a value
makes two objects differ.
-/

namespace NeonWrt.Hostapd

open NeonWrt.Lib

/-- A key of an object: missing, there with the value null, or there with a value. -/
abbrev Property (α : Type*) := Option (Option α)

namespace Property

variable {α : Type*} [DecidableEq α]

/-- What `is_equal` does at one key. The second object is asked for keys that
are null in the first, so a null in the second object always counts as a
difference. -/
def isEqual : Property α → Property α → Bool
  | some (some a), some (some b) => decide (a = b)
  | none, none | some none, none => true
  | _, _ => false

/-- The value of a key, as a script reads it. -/
abbrev value {β : Type*} (p : Property β) : Option β := p.join

theorem isEqual_iff {p q : Property α} :
    p.isEqual q = true ↔ p.value = q.value ∧ q ≠ some none := by
  rcases p with _ | _ | a <;> rcases q with _ | _ | b <;> simp [isEqual]

end Property

/-- The lines that name a file, `hostapd.data.file_fields`. -/
inductive FileField
  | vlanFile | wpaPskFile | saePasswordFile | rxkhFile | acceptMacFile | denyMacFile | eapUserFile
  | caCert | serverCert | serverCert2 | privateKey | privateKey2 | dhFile | eapSimDb
  deriving DecidableEq

/-- The fields of a `hash` object, all of them. -/
def FileField.all : List FileField :=
  [.vlanFile, .wpaPskFile, .saePasswordFile, .rxkhFile, .acceptMacFile, .denyMacFile, .eapUserFile,
    .caCert, .serverCert, .serverCert2, .privateKey, .privateKey2, .dhFile, .eapSimDb]

/-- The hashes of the files that the lines of a BSS name. -/
abbrev Hashes := FileField → Property Bytes

/-- `is_equal` on two `hash` objects. -/
def Hashes.isEqual (a b : Hashes) : Bool := FileField.all.all fun f => (a f).isEqual (b f)

/-- The radio of a configuration. -/
structure Radio where
  data : List Bytes
  channel : Property Bytes
  deriving DecidableEq

/-- A BSS of a configuration. Its keys `ifname`, `data` and `hash` are always
there; `mld_ap` and the two flags only ever get values. -/
structure Bss where
  ifname : Option Bytes
  data : List Bytes
  hash : Hashes
  bssid : Property Bytes
  nasid : Property Bytes
  mldAp : Option ℤ
  mldBssid : Option Bytes
  defaultMacaddr : Bool
  randomMacaddr : Bool

/-- A configuration. -/
structure Config where
  radio : Radio
  bss : List Bss
  mbssid : Option ℤ

/-- `is_equal` on two radios. -/
def Radio.isEqual (a b : Radio) : Bool :=
  decide (a.data = b.data) && a.channel.isEqual b.channel

/-- `is_equal` on two BSSes. -/
def Bss.isEqual (a b : Bss) : Bool :=
  Property.isEqual (some a.ifname) (some b.ifname) && decide (a.data = b.data) &&
    Hashes.isEqual a.hash b.hash &&
    a.bssid.isEqual b.bssid && a.nasid.isEqual b.nasid &&
    decide (a.mldAp = b.mldAp) && decide (a.mldBssid = b.mldBssid) &&
    a.defaultMacaddr == b.defaultMacaddr && a.randomMacaddr == b.randomMacaddr

/-- `is_equal` on two lists of BSSes. -/
def sameBss (a b : List Bss) : Bool :=
  a.length == b.length && (a.zip b).all fun p => p.1.isEqual p.2

/-- `bss.mld_ap` as a condition. -/
def Bss.isMld (b : Bss) : Bool := b.mldAp.any (· ≠ 0)

theorem length_eq_of_sameBss {a b : List Bss} (h : sameBss a b = true) : a.length = b.length := by
  simp only [sameBss, Bool.and_eq_true, beq_iff_eq] at h
  exact h.1

end NeonWrt.Hostapd
