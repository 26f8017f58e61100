import NeonWrt.Lib.Hex
import NeonWrt.Lib.Table
import Mathlib.Data.Nat.Bitwise

/-!
# Addresses of wireless interfaces

`common.uc` hands out the addresses of the interfaces of a phy. A candidate is the address of the
phy, one of its list, or made from one of these by one of three rules: the index is added, or
combined into the first or the last octet. A radio without an address of its own begins sixteen
indexes behind the radio before it. Up to 32 candidates are tried, and the first that is not in the
table of addresses is entered there.

The rules take the index as it is. So a carry adds it again to the next octet, and an octet that it
does not fit into has three digits.
-/

namespace NeonWrt.Wireless

open NeonWrt.Lib

/-- `macaddr_split`, of a text whose fields are hexadecimal digits. -/
def macaddrSplit (str : Bytes) : List ℕ := (str.splitOn 58).map (numeral 16)

/-- `macaddr_join` -/
def macaddrJoin (addr : List ℕ) : Bytes := join 58 (addr.map fun val => zeroPad 2 (hex val))

/-- Six octets of two digits. -/
def WellFormed (str : Bytes) : Prop :=
  (str.splitOn 58).length = 6 ∧ ∀ g ∈ str.splitOn 58, g.length = 2 ∧ ∀ c ∈ g, digitVal c < 16

instance (str : Bytes) : Decidable (WellFormed str) := inferInstanceAs (Decidable (_ ∧ _))

/-- The first octet of an address. -/
def firstOctet (addr : List ℕ) : ℕ := addr.getD 0 0

/-- The last octet of an address. -/
def lastOctet (addr : List ℕ) : ℕ := addr.getD 5 0

/-- An address of one interface, not of a group. -/
def Unicast (str : Bytes) : Prop := firstOctet (macaddrSplit str) % 2 = 0

instance (str : Bytes) : Decidable (Unicast str) := inferInstanceAs (Decidable (_ = _))

/-- A mask of an address. -/
structure MacMask where
  text : Bytes
  wellFormed : WellFormed text

/-- A unicast address. -/
structure Mac where
  text : Bytes
  wellFormed : WellFormed text
  unicast : Unicast text

/-- What the files of a phy hold, and which of its radios is meant, if it is one of several. -/
structure Phy where
  radio : Option ℕ
  macaddress : Option Mac
  addressMask : Option MacMask
  /-- the lines of the file -/
  addresses : List Mac

/-- The options of `macaddr_init`. -/
structure MacOptions where
  macaddrBase : Option Mac
  mbssid : Option ℤ
  numGlobal : Option ℤ

/-- The used addresses: an object with a value for each, or an array. -/
inductive Used (κ : Type*) [DecidableEq κ]
  | object (values : Table κ ℤ)
  | array (addrs : List κ)

/-- `macaddr_init`: the table, with the addresses of the interfaces there are. -/
def macaddrInit {κ : Type*} [DecidableEq κ] (used : Used κ) (wdevs : List κ) : Table κ ℤ :=
  let macaddrList := match used with
    | .object values => values.entries.foldl (fun list e => list.set e.1 e.2) ∅
    | .array addrs => addrs.foldl (fun list addr => list.set addr (-1)) ∅
  wdevs.foldl (fun list macaddr =>
    if (list.get? macaddr).isSome then list else list.set macaddr (-1)) macaddrList

/-- The mask of a phy that may change every bit. -/
def fullMask : Bytes := ascii "ff:ff:ff:ff:ff:ff"

/-- `base_mask` -/
def baseMask (phy : Phy) : Option Bytes :=
  phy.addressMask.map fun mask =>
    if mask.text = ascii "00:00:00:00:00:00" then fullMask else mask.text

/-- The ways to make an address. -/
inductive MacType
  | b1
  | b5
  | add
  deriving DecidableEq

/-- A candidate: an address of the list as it is, or a base address with an index. -/
inductive Candidate
  | listed (addr : Mac)
  | made (base : Mac) (idx : ℕ)

section Generate

variable (phy : Phy) (data : MacOptions)

/-- `mbssid` -/
def mbssidOf : Bool := 0 < data.mbssid.getD 0

/-- `num_global` -/
def numGlobalOf : ℤ := data.numGlobal.getD 1

/-- The base address of a candidate and its index behind the search in the list of the phy. -/
def candidate (baseAddr : Mac) (mask : Bytes) (idx : ℕ) : Candidate :=
  match data.macaddrBase with
  | some base => .made base idx
  | none =>
    if mask = fullMask ∧ (0 < phy.radio.getD 0 ∨ numGlobalOf data ≤ idx) then
      match phy.radio with
      | some radio =>
        match if radio = 0 then none else phy.addresses[radio]? with
        | some addr => .made addr idx
        | none => .made baseAddr (idx + radio * 16)
      | none =>
        match phy.addresses[idx]? with
        | some addr => .listed addr
        | none => .made baseAddr idx
    else .made baseAddr idx

/-- `type` -/
def macType (mask : Bytes) (idx : ℕ) : MacType :=
  if mbssidOf data then .b5
  else if (idx : ℤ) < numGlobalOf data then .add
  else if 0 < firstOctet (macaddrSplit mask) then .b1
  else if lastOctet (macaddrSplit mask) < 0xff then .b5
  else .add

/-- The index that is combined into the first octet. -/
def b1Index (addr : List ℕ) (idx : ℕ) : ℕ := if firstOctet addr &&& 2 = 0 then idx - 1 else idx

/-- The loop of the rule `add`, from an octet on. -/
def addLoop (idx : ℕ) : ℕ → List ℕ → List ℕ
  | 0, addr => addr
  | i + 1, addr =>
    let octet := addr.getD (i + 1) 0 + idx
    if octet < 256 then addr.set (i + 1) octet
    else addLoop idx i (addr.set (i + 1) (octet % 256))

/-- What a rule makes of an address. -/
def applyType (type : MacType) (mbssid : Bool) (addr : List ℕ) (idx : ℕ) : List ℕ :=
  match type with
  | .b1 => addr.set 0 ((firstOctet addr ||| 2) ^^^ (b1Index addr idx <<< 2))
  | .b5 =>
    let addr := if mbssid then addr.set 0 (firstOctet addr ||| 2) else addr
    addr.set 5 (lastOctet addr ^^^ idx)
  | .add => addLoop idx 5 addr

/-- The address of a candidate with a base address. -/
def madeAddr (type : MacType) (base : Mac) (idx : ℕ) : Bytes :=
  if idx = 0 ∧ mbssidOf data = false then base.text
  else macaddrJoin (applyType type (mbssidOf data) (macaddrSplit base.text) idx)

/-- `macaddr_generate` for an index. -/
def macaddrGenerate (id : ℕ) : Option Bytes := do
  let baseAddr ← phy.macaddress
  let mask ← baseMask phy
  match candidate phy data baseAddr mask id with
  | .listed addr => some addr.text
  | .made base idx => some (madeAddr data (macType data mask id) base idx)

/-- The loop of `macaddr_next`, over the indexes that are left. -/
def nextLoop (val : Option ℤ) (list : Table Bytes ℤ) : List ℕ → Option Bytes × Table Bytes ℤ
  | [] => (none, list)
  | i :: is =>
    match macaddrGenerate phy data i with
    | none => (none, list)
    | some mac =>
      if (list.get? mac).isSome then nextLoop val list is
      else (some mac, list.set mac (val.getD (-1)))

/-- `macaddr_next` -/
def macaddrNext (val : Option ℤ) (list : Table Bytes ℤ) : Option Bytes × Table Bytes ℤ :=
  nextLoop phy data val list (List.range 32)

/-- What calls one after another return. -/
def macaddrNexts : List (Option ℤ) → Table Bytes ℤ → List (Option Bytes)
  | [], _ => []
  | val :: vals, list =>
    (macaddrNext phy data val list).1 :: macaddrNexts vals (macaddrNext phy data val list).2

end Generate

/-- An index fits into the octet that it is combined into. -/
def IndexFits (type : MacType) (addr : List ℕ) (idx : ℕ) : Prop :=
  match type with
  | .b1 => b1Index addr idx < 64
  | .b5 => idx < 256
  | .add => True

/-- A candidate is an address of the list, or its index fits. -/
def Candidate.Fits (c : Candidate) (type : MacType) : Prop :=
  match c with
  | .listed _ => True
  | .made base idx => IndexFits type (macaddrSplit base.text) idx

/-- The last five octets of an address as a number. -/
def tailValue (addr : List ℕ) : ℕ := (addr.drop 1).foldl (fun n octet => n * 256 + octet) 0

/-- The phy for another of its radios. -/
def Phy.withRadio (phy : Phy) (radio : ℕ) : Phy := { phy with radio := some radio }

/-- The address that the list of a phy has for a radio. -/
def Phy.ownAddress (phy : Phy) (radio : ℕ) : Option Mac :=
  if radio = 0 then none else phy.addresses[radio]?

/-- What a call of `macaddr_next` returns and makes of the table. -/
structure NextSound (phy : Phy) (data : MacOptions) (val : Option ℤ) (list : Table Bytes ℤ) :
    Prop where
  fresh : ∀ mac, (macaddrNext phy data val list).1 = some mac → list.get? mac = none ∧
    (∃ id < 32, macaddrGenerate phy data id = some mac) ∧
    (macaddrNext phy data val list).2 = list.set mac (val.getD (-1))
  nothing : (macaddrNext phy data val list).1 = none → (macaddrNext phy data val list).2 = list

/-- What holds of the addresses that a phy hands out. -/
structure Generates (phy : Phy) (data : MacOptions) : Prop where
  next : ∀ val list, NextSound phy data val list
  distinct : ∀ vals list, ((macaddrNexts phy data vals list).filterMap id).Nodup
  wellFormed : ∀ baseAddr mask i mac, phy.macaddress = some baseAddr → baseMask phy = some mask →
    macaddrGenerate phy data i = some mac →
    (candidate phy data baseAddr mask i).Fits (macType data mask i) → WellFormed mac ∧ Unicast mac
  low : ∀ i mac, phy.radio.getD 0 ≤ 2 → i < 32 → macaddrGenerate phy data i = some mac →
    WellFormed mac ∧ Unicast mac
  add : ∀ (base : Mac) idx, lastOctet (macaddrSplit base.text) + idx < 256 ∨ idx = 1 →
    tailValue (macaddrSplit (madeAddr data .add base idx)) =
      (tailValue (macaddrSplit base.text) + idx) % 2 ^ 40
  radios : data.macaddrBase = none → baseMask phy = some fullMask → ∀ r₁ r₂ i j mac,
    phy.ownAddress r₁ = none → phy.ownAddress r₂ = none →
    macaddrGenerate (phy.withRadio r₁) data i = some mac →
    macaddrGenerate (phy.withRadio r₂) data j = some mac →
    (16 * r₁ + i) % 256 = (16 * r₂ + j) % 256
  own : data.macaddrBase = none → baseMask phy = some fullMask → mbssidOf data = false →
    numGlobalOf data ≤ 1 → ∀ r₁ r₂ base₁ base₂ i j mac,
    (phy.ownAddress r₁ = some base₁ ∨ r₁ = 0 ∧ phy.macaddress = some base₁) →
    (phy.ownAddress r₂ = some base₂ ∨ r₂ = 0 ∧ phy.macaddress = some base₂) →
    (macaddrSplit base₁.text).drop 1 ≠ (macaddrSplit base₂.text).drop 1 →
    macaddrGenerate (phy.withRadio r₁) data i = some mac →
    macaddrGenerate (phy.withRadio r₂) data j ≠ some mac

theorem macaddrSplit_join {addr : List ℕ} (h : addr ≠ []) :
    macaddrSplit (macaddrJoin addr) = addr := by
  have hfields : ∀ g ∈ addr.map fun val => zeroPad 2 (hex val), 58 ∉ g := by
    intro g hg hmem
    obtain ⟨val, -, rfl⟩ := List.mem_map.mp hg
    have hdigit := digitVal_of_mem_zeroPad (fun c hc => digitVal_of_mem_hex hc) hmem
    exact absurd hdigit (by decide)
  rw [macaddrSplit, macaddrJoin, splitOn_join (by simpa using h) hfields, List.map_map]
  conv_rhs => rw [← List.map_id addr]
  apply List.map_congr_left
  intro val _
  simp

theorem wellFormed_macaddrJoin {addr : List ℕ} (hlen : addr.length = 6)
    (hoctets : ∀ val ∈ addr, val < 256) : WellFormed (macaddrJoin addr) := by
  have hdigits : ∀ val, ∀ c ∈ zeroPad 2 (hex val), digitVal c < 16 :=
    fun val c hc => digitVal_of_mem_zeroPad (fun c hc => digitVal_of_mem_hex hc) hc
  have hsplit : (macaddrJoin addr).splitOn 58 = addr.map fun val => zeroPad 2 (hex val) := by
    rw [macaddrJoin, splitOn_join]
    · intro hnil
      rw [List.map_eq_nil_iff.mp hnil] at hlen
      cases hlen
    · intro g hg hmem
      obtain ⟨val, -, rfl⟩ := List.mem_map.mp hg
      exact absurd (hdigits val _ hmem) (by decide)
  rw [WellFormed, hsplit, List.length_map]
  refine ⟨hlen, fun g hg => ?_⟩
  obtain ⟨val, hval, rfl⟩ := List.mem_map.mp hg
  exact ⟨length_zeroPad_hex (hoctets val hval), hdigits val⟩

theorem octets_of_wellFormed {str : Bytes} (h : WellFormed str) :
    ∃ a₀ a₁ a₂ a₃ a₄ a₅, macaddrSplit str = [a₀, a₁, a₂, a₃, a₄, a₅] ∧
      a₀ < 256 ∧ a₁ < 256 ∧ a₂ < 256 ∧ a₃ < 256 ∧ a₄ < 256 ∧ a₅ < 256 := by
  obtain ⟨hlen, hfields⟩ := h
  have hlt : ∀ val ∈ macaddrSplit str, val < 256 := by
    intro val hval
    obtain ⟨g, hg, rfl⟩ := List.mem_map.mp hval
    obtain ⟨htwo, hdigits⟩ := hfields g hg
    obtain ⟨c, d, rfl⟩ := List.length_eq_two.mp htwo
    have hc := hdigits c (by simp)
    have hd := hdigits d (by simp)
    simp only [numeral, List.foldl_cons, List.foldl_nil]
    omega
  have hsix : (macaddrSplit str).length = 6 := by
    rw [macaddrSplit, List.length_map, hlen]
  rcases hsplit : macaddrSplit str with
    _ | ⟨a₀, _ | ⟨a₁, _ | ⟨a₂, _ | ⟨a₃, _ | ⟨a₄, _ | ⟨a₅, _ | ⟨a₆, l⟩⟩⟩⟩⟩⟩⟩ <;>
    rw [hsplit] at hsix hlt <;> simp only [List.length_cons, List.length_nil] at hsix <;>
    try omega
  exact ⟨a₀, a₁, a₂, a₃, a₄, a₅, rfl, by simpa using hlt⟩

section Rules

variable {a₀ a₁ a₂ a₃ a₄ a₅ idx : ℕ}

/-- The rule `add` keeps the first octet and adds the index to the last one. -/
theorem applyType_add (mbssid : Bool) (a₀ a₁ a₂ a₃ a₄ a₅ idx : ℕ) :
    ∃ b₁ b₂ b₃ b₄, applyType .add mbssid [a₀, a₁, a₂, a₃, a₄, a₅] idx =
        [a₀, b₁, b₂, b₃, b₄, (a₅ + idx) % 256] ∧
      (a₁ < 256 → b₁ < 256) ∧ (a₂ < 256 → b₂ < 256) ∧ (a₃ < 256 → b₃ < 256) ∧
        (a₄ < 256 → b₄ < 256) := by
  simp only [applyType, addLoop, List.getD_cons_succ, List.getD_cons_zero, List.set_cons_succ,
    List.set_cons_zero]
  split_ifs with h₅ h₄ h₃ h₂ h₁
  · exact ⟨_, _, _, _, by rw [Nat.mod_eq_of_lt h₅], id, id, id, id⟩
  · exact ⟨_, _, _, _, rfl, id, id, id, fun _ => h₄⟩
  · exact ⟨_, _, _, _, rfl, id, id, fun _ => h₃, fun _ => Nat.mod_lt _ (by decide)⟩
  · exact ⟨_, _, _, _, rfl, id, fun _ => h₂, fun _ => Nat.mod_lt _ (by decide),
      fun _ => Nat.mod_lt _ (by decide)⟩
  · exact ⟨_, _, _, _, rfl, fun _ => h₁, fun _ => Nat.mod_lt _ (by decide),
      fun _ => Nat.mod_lt _ (by decide), fun _ => Nat.mod_lt _ (by decide)⟩
  · exact ⟨_, _, _, _, rfl, fun _ => Nat.mod_lt _ (by decide), fun _ => Nat.mod_lt _ (by decide),
      fun _ => Nat.mod_lt _ (by decide), fun _ => Nat.mod_lt _ (by decide)⟩

/-- Without a carry, or for the index one, the rule `add` adds the index to the address. -/
theorem tailValue_add (mbssid : Bool) (h₁ : a₁ < 256) (h₂ : a₂ < 256) (h₃ : a₃ < 256)
    (h₄ : a₄ < 256) (h₅ : a₅ < 256) (h : a₅ + idx < 256 ∨ idx = 1) :
    tailValue (applyType .add mbssid [a₀, a₁, a₂, a₃, a₄, a₅] idx) =
      (tailValue [a₀, a₁, a₂, a₃, a₄, a₅] + idx) % 2 ^ 40 := by
  have hlast : ∀ {a}, a < 256 → a + 1 < 256 ∨ a = 255 := by
    intro a ha
    omega
  simp only [applyType, addLoop, List.getD_cons_succ, List.getD_cons_zero, List.set_cons_succ,
    List.set_cons_zero]
  simp only [tailValue, apply_ite (List.drop 1), List.drop_succ_cons, List.drop_zero,
    apply_ite (List.foldl _ _), List.foldl_cons, List.foldl_nil]
  rcases h with h | rfl
  · rw [if_pos h]
    omega
  · -- the carry goes up to the first octet that is not 255
    rcases hlast h₅ with h | rfl
    · rw [if_pos h]
      omega
    rcases hlast h₄ with h | rfl
    · rw [if_neg (by decide), if_pos h]
      omega
    rcases hlast h₃ with h | rfl
    · rw [if_neg (by decide), if_neg (by decide), if_pos h]
      omega
    rcases hlast h₂ with h | rfl
    · rw [if_neg (by decide), if_neg (by decide), if_neg (by decide), if_pos h]
      omega
    rcases hlast h₁ with h | rfl
    · rw [if_neg (by decide), if_neg (by decide), if_neg (by decide), if_neg (by decide), if_pos h]
      omega
    · rfl

/-- The rule `b1` combines its index into the first octet. -/
theorem applyType_b1 (mbssid : Bool) (a₀ a₁ a₂ a₃ a₄ a₅ idx : ℕ) :
    applyType .b1 mbssid [a₀, a₁, a₂, a₃, a₄, a₅] idx =
      [(a₀ ||| 2) ^^^ (b1Index [a₀, a₁, a₂, a₃, a₄, a₅] idx <<< 2), a₁, a₂, a₃, a₄, a₅] := rfl

/-- The rule `b5` combines the index into the last octet. -/
theorem applyType_b5 (mbssid : Bool) (a₀ a₁ a₂ a₃ a₄ a₅ idx : ℕ) :
    applyType .b5 mbssid [a₀, a₁, a₂, a₃, a₄, a₅] idx =
      [if mbssid then a₀ ||| 2 else a₀, a₁, a₂, a₃, a₄, a₅ ^^^ idx] := by
  cases mbssid <;> rfl

theorem or_two_lt (h : a₀ < 256) : a₀ ||| 2 < 256 := Nat.or_lt_two_pow (n := 8) h (by decide)

theorem or_two_even (h : a₀ % 2 = 0) : (a₀ ||| 2) % 2 = 0 := by
  have hbit := Nat.testBit_or a₀ 2 0
  rw [Nat.testBit_zero, Nat.testBit_zero, h] at hbit
  exact Nat.mod_two_ne_one.mp (of_decide_eq_false hbit)

theorem xor_shift_even (k : ℕ) (h : a₀ % 2 = 0) : (a₀ ^^^ (k <<< 2)) % 2 = 0 := by
  have hbit := Nat.testBit_xor a₀ (k <<< 2) 0
  rw [Nat.testBit_shiftLeft, Nat.testBit_zero, Nat.testBit_zero, h] at hbit
  exact Nat.mod_two_ne_one.mp (of_decide_eq_false hbit)

theorem and_two_eq_zero_iff (a : ℕ) : a &&& 2 = 0 ↔ a.testBit 1 = false := by
  have hand := Nat.and_two_pow a 1
  rw [pow_one] at hand
  cases hbit : a.testBit 1 with
  | false => simp [hand, hbit]
  | true => simp [hand, hbit]

theorem b1_ne_first (hidx : idx ≠ 0) :
    (a₀ ||| 2) ^^^ (b1Index [a₀, a₁, a₂, a₃, a₄, a₅] idx <<< 2) ≠ a₀ := by
  intro heq
  have hone := congrArg (Nat.testBit · 1) heq
  simp only [Nat.testBit_xor, Nat.testBit_or, Nat.testBit_shiftLeft] at hone
  have hset : a₀.testBit 1 = true := by
    rw [← hone]
    cases a₀.testBit 1 <;> rfl
  have hlocal : ¬a₀ &&& 2 = 0 := by
    rw [and_two_eq_zero_iff, hset]
    exact Bool.true_eq_false.mp
  have hor : a₀ ||| 2 = a₀ := by
    apply Nat.eq_of_testBit_eq
    intro i
    rw [Nat.testBit_or]
    by_cases hi : i = 1
    · rw [hi, hset]
      rfl
    · have htwo : Nat.testBit 2 i = false := Nat.testBit_two_pow_of_ne (n := 1) (Ne.symm hi)
      rw [htwo, Bool.or_false]
  have hindex : b1Index [a₀, a₁, a₂, a₃, a₄, a₅] idx = idx := if_neg hlocal
  rw [hor, hindex] at heq
  have hzero : idx <<< 2 = 0 := by
    have hxor : a₀ ^^^ (idx <<< 2) = a₀ ^^^ 0 := by rw [heq, Nat.xor_zero]
    exact Nat.xor_right_injective hxor
  rw [Nat.shiftLeft_eq] at hzero
  omega

/-- The rule `b1` makes different octets of different indexes. -/
theorem b1_inj {idx' : ℕ} (hidx : idx ≠ 0) (hidx' : idx' ≠ 0)
    (h : (a₀ ||| 2) ^^^ (b1Index [a₀, a₁, a₂, a₃, a₄, a₅] idx <<< 2) =
      (a₀ ||| 2) ^^^ (b1Index [a₀, a₁, a₂, a₃, a₄, a₅] idx' <<< 2)) : idx = idx' := by
  have hshift := Nat.xor_right_injective h
  simp only [Nat.shiftLeft_eq, b1Index, firstOctet, List.getD_cons_zero] at hshift
  split_ifs at hshift <;> omega

end Rules

section Candidates

variable {phy : Phy} {data : MacOptions} {base : Mac} {type : MacType} {mask : Bytes} {i idx : ℕ}
  {mac : Bytes}

theorem splitMadeAddr (hidx : ¬(idx = 0 ∧ mbssidOf data = false)) {a₀ a₁ a₂ a₃ a₄ a₅ : ℕ}
    (hbase : macaddrSplit base.text = [a₀, a₁, a₂, a₃, a₄, a₅]) :
    macaddrSplit (madeAddr data type base idx) =
      applyType type (mbssidOf data) [a₀, a₁, a₂, a₃, a₄, a₅] idx := by
  rw [madeAddr, if_neg hidx, hbase]
  apply macaddrSplit_join
  cases type with
  | b1 => simp [applyType]
  | b5 => simp [applyType_b5]
  | add =>
    obtain ⟨b₁, b₂, b₃, b₄, hadd, -⟩ := applyType_add (mbssidOf data) a₀ a₁ a₂ a₃ a₄ a₅ idx
    simp [hadd]

/-- A candidate whose index fits is a unicast address. -/
theorem wellFormed_madeAddr (h : IndexFits type (macaddrSplit base.text) idx) :
    WellFormed (madeAddr data type base idx) ∧ Unicast (madeAddr data type base idx) := by
  by_cases hidx : idx = 0 ∧ mbssidOf data = false
  · rw [madeAddr, if_pos hidx]
    exact ⟨base.wellFormed, base.unicast⟩
  obtain ⟨a₀, a₁, a₂, a₃, a₄, a₅, hbase, h₀, h₁, h₂, h₃, h₄, h₅⟩ :=
    octets_of_wellFormed base.wellFormed
  have heven : a₀ % 2 = 0 := by
    have hunicast := base.unicast
    rwa [Unicast, hbase] at hunicast
  have hor := or_two_lt h₀
  rw [Unicast, splitMadeAddr hidx hbase, madeAddr, if_neg hidx, hbase]
  rw [hbase] at h
  cases type with
  | b1 =>
    have hshift : b1Index [a₀, a₁, a₂, a₃, a₄, a₅] idx <<< 2 < 256 := by
      rw [Nat.shiftLeft_eq]
      have hlt : b1Index [a₀, a₁, a₂, a₃, a₄, a₅] idx < 64 := h
      omega
    have hxor := Nat.xor_lt_two_pow (n := 8) hor hshift
    rw [applyType_b1]
    refine ⟨wellFormed_macaddrJoin rfl ?_, xor_shift_even _ (or_two_even heven)⟩
    simpa using ⟨hxor, h₁, h₂, h₃, h₄, h₅⟩
  | b5 =>
    have hxor := Nat.xor_lt_two_pow (n := 8) h₅ h
    rw [applyType_b5]
    cases mbssidOf data with
    | false =>
      refine ⟨wellFormed_macaddrJoin rfl ?_, heven⟩
      simpa using ⟨h₀, h₁, h₂, h₃, h₄, hxor⟩
    | true =>
      refine ⟨wellFormed_macaddrJoin rfl ?_, or_two_even heven⟩
      simpa using ⟨hor, h₁, h₂, h₃, h₄, hxor⟩
  | add =>
    obtain ⟨b₁, b₂, b₃, b₄, hadd, hb₁, hb₂, hb₃, hb₄⟩ :=
      applyType_add (mbssidOf data) a₀ a₁ a₂ a₃ a₄ a₅ idx
    rw [hadd]
    refine ⟨wellFormed_macaddrJoin rfl ?_, heven⟩
    simpa using ⟨h₀, hb₁ h₁, hb₂ h₂, hb₃ h₃, hb₄ h₄, Nat.mod_lt _ (by decide)⟩

theorem generate_cases (h : macaddrGenerate phy data i = some mac) :
    ∃ baseAddr mask, phy.macaddress = some baseAddr ∧ baseMask phy = some mask ∧
      ((∃ addr, candidate phy data baseAddr mask i = .listed addr ∧ mac = addr.text) ∨
        ∃ base idx, candidate phy data baseAddr mask i = .made base idx ∧
          mac = madeAddr data (macType data mask i) base idx) := by
  obtain ⟨baseAddr, hbase, h⟩ := Option.bind_eq_some_iff.mp h
  obtain ⟨mask, hmask, h⟩ := Option.bind_eq_some_iff.mp h
  refine ⟨baseAddr, mask, hbase, hmask, ?_⟩
  cases hc : candidate phy data baseAddr mask i with
  | listed addr =>
    rw [hc] at h
    cases h
    exact Or.inl ⟨addr, rfl, rfl⟩
  | made base idx =>
    rw [hc] at h
    cases h
    exact Or.inr ⟨base, idx, rfl, rfl⟩

/-- The index of a candidate is at most that of the radio behind it. -/
theorem le_of_candidate {baseAddr : Mac} (h : candidate phy data baseAddr mask i = .made base idx) :
    idx ≤ i + phy.radio.getD 0 * 16 := by
  rw [candidate] at h
  split at h
  · cases h
    omega
  · split_ifs at h with hsearch
    · split at h
      · rename_i radio hradio
        rw [hradio]
        split at h
        · cases h
          omega
        · cases h
          rfl
      · split at h
        · cases h
        · cases h
          omega
    · cases h
      omega

/-- A radio without an address of its own has that of the phy, with an index behind those of the
radio before it. -/
theorem candidate_shared {r : ℕ} {baseAddr : Mac} (hbase : data.macaddrBase = none)
    (hown : phy.ownAddress r = none) :
    candidate (phy.withRadio r) data baseAddr fullMask i = .made baseAddr (i + r * 16) := by
  have hlist : (if r = 0 then none else phy.addresses[r]?) = none := hown
  simp only [candidate, hbase, Phy.withRadio, hlist, Option.getD_some, true_and]
  split_ifs with h
  · rfl
  · obtain rfl : r = 0 := by omega
    rfl

/-- A radio with an address of its own begins with it. -/
theorem candidate_own {r : ℕ} {baseAddr : Mac} (hbase : data.macaddrBase = none)
    (hown : phy.ownAddress r = some base) :
    candidate (phy.withRadio r) data baseAddr fullMask i = .made base i := by
  have hlist : (if r = 0 then none else phy.addresses[r]?) = some base := hown
  have hr : 0 < r := by
    rw [Nat.pos_iff_ne_zero]
    rintro rfl
    cases hlist
  simp only [candidate, hbase, Phy.withRadio, hlist, Option.getD_some, hr, true_or, and_self,
    if_true]

/-- The radio of the phy, and any other with an address of its own, begin with their address. -/
theorem candidate_begins (phy : Phy) {r : ℕ} {baseAddr : Mac} (hbase : data.macaddrBase = none)
    (haddr : phy.macaddress = some baseAddr)
    (hown : phy.ownAddress r = some base ∨ r = 0 ∧ phy.macaddress = some base) :
    candidate (phy.withRadio r) data baseAddr fullMask i = .made base i := by
  rcases hown with hown | ⟨rfl, hown⟩
  · exact candidate_own hbase hown
  · obtain rfl := Option.some.inj (haddr.symm.trans hown)
    exact candidate_shared hbase rfl

/-- With the full mask an index below `num_global` is added, and any other one combined into the
first octet. -/
theorem macType_fullMask (hmbssid : mbssidOf data = false) :
    macType data fullMask i = if (i : ℤ) < numGlobalOf data then .add else .b1 := by
  have hfirst : 0 < firstOctet (macaddrSplit fullMask) := by decide +kernel
  rw [macType, hmbssid, if_neg Bool.false_ne_true, if_pos hfirst]

/-- With the full mask a candidate keeps the first octet and adds its index to the last one, or
changes the first octet. -/
theorem split_fullMask (i idx : ℕ) {a₀ a₁ a₂ a₃ a₄ a₅ : ℕ} (hmbssid : mbssidOf data = false)
    (hbase : macaddrSplit base.text = [a₀, a₁, a₂, a₃, a₄, a₅]) (h₅ : a₅ < 256) :
    (∃ b₁ b₂ b₃ b₄, macaddrSplit (madeAddr data (macType data fullMask i) base idx) =
      [a₀, b₁, b₂, b₃, b₄, (a₅ + idx) % 256]) ∨
    (idx ≠ 0 ∧ macaddrSplit (madeAddr data (macType data fullMask i) base idx) =
      [(a₀ ||| 2) ^^^ (b1Index [a₀, a₁, a₂, a₃, a₄, a₅] idx <<< 2), a₁, a₂, a₃, a₄, a₅]) := by
  by_cases hidx : idx = 0
  · left
    rw [madeAddr, if_pos ⟨hidx, hmbssid⟩, hbase, hidx, Nat.add_zero, Nat.mod_eq_of_lt h₅]
    exact ⟨a₁, a₂, a₃, a₄, rfl⟩
  · rw [splitMadeAddr (fun h => hidx h.1) hbase, macType_fullMask hmbssid]
    split_ifs with hglobal
    · left
      obtain ⟨b₁, b₂, b₃, b₄, hadd, -⟩ := applyType_add (mbssidOf data) a₀ a₁ a₂ a₃ a₄ a₅ idx
      exact ⟨b₁, b₂, b₃, b₄, hadd⟩
    · right
      exact ⟨hidx, rfl⟩

/-- With the full mask two candidates with one base address are the same only for indexes that are
the same up to a whole octet. -/
theorem index_eq_of_madeAddr {j idx' : ℕ}
    (h : madeAddr data (macType data fullMask i) base idx =
      madeAddr data (macType data fullMask j) base idx') : idx % 256 = idx' % 256 := by
  obtain ⟨a₀, a₁, a₂, a₃, a₄, a₅, hbase, h₀, h₁, h₂, h₃, h₄, h₅⟩ :=
    octets_of_wellFormed base.wellFormed
  have hsplit := congrArg macaddrSplit h
  cases hmbssid : mbssidOf data with
  | true =>
    have hne : ∀ k, ¬(k = 0 ∧ mbssidOf data = false) := by simp [hmbssid]
    rw [splitMadeAddr (hne _) hbase, splitMadeAddr (hne _) hbase, macType, macType, hmbssid,
      if_pos rfl, if_pos rfl, applyType_b5, applyType_b5] at hsplit
    simp only [List.cons.injEq, and_true, true_and] at hsplit
    rw [Nat.xor_right_injective hsplit]
  | false =>
    rcases split_fullMask i idx hmbssid hbase h₅ with
      ⟨b₁, b₂, b₃, b₄, hl⟩ | ⟨hidx, hl⟩
    · rcases split_fullMask j idx' hmbssid hbase h₅ with
        ⟨c₁, c₂, c₃, c₄, hr⟩ | ⟨hidx', hr⟩
      · rw [hl, hr] at hsplit
        simp only [List.cons.injEq, and_true] at hsplit
        omega
      · rw [hl, hr, List.cons.injEq] at hsplit
        exact absurd hsplit.1.symm (b1_ne_first hidx')
    · rcases split_fullMask j idx' hmbssid hbase h₅ with
        ⟨c₁, c₂, c₃, c₄, hr⟩ | ⟨hidx', hr⟩
      · rw [hl, hr, List.cons.injEq] at hsplit
        exact absurd hsplit.1 (b1_ne_first hidx)
      · rw [hl, hr, List.cons.injEq] at hsplit
        rw [b1_inj hidx hidx' hsplit.1]

/-- With the full mask and at most one global address a candidate keeps the last five octets. -/
theorem tail_madeAddr (hmbssid : mbssidOf data = false) (hglobal : numGlobalOf data ≤ 1) :
    (macaddrSplit (madeAddr data (macType data fullMask i) base i)).drop 1 =
      (macaddrSplit base.text).drop 1 := by
  obtain ⟨a₀, a₁, a₂, a₃, a₄, a₅, hbase, -⟩ := octets_of_wellFormed base.wellFormed
  by_cases hi : i = 0
  · rw [madeAddr, if_pos ⟨hi, hmbssid⟩]
  · rw [splitMadeAddr (fun h => hi h.1) hbase, macType_fullMask hmbssid, if_neg (by omega), hbase]
    rfl

end Candidates

section Calls

variable {phy : Phy} {data : MacOptions} {val : Option ℤ} {list : Table Bytes ℤ}

/-- A call returns a candidate that is not in the table and enters it, or returns nothing. -/
theorem nextLoop_cases (phy : Phy) (data : MacOptions) (val : Option ℤ) (list : Table Bytes ℤ)
    (is : List ℕ) :
    (∃ mac, ∃ i ∈ is, macaddrGenerate phy data i = some mac ∧ list.get? mac = none ∧
      nextLoop phy data val list is = (some mac, list.set mac (val.getD (-1)))) ∨
    nextLoop phy data val list is = (none, list) := by
  induction is with
  | nil => exact Or.inr rfl
  | cons i is ih =>
    rw [nextLoop]
    cases hmac : macaddrGenerate phy data i with
    | none => exact Or.inr rfl
    | some mac =>
      simp only
      by_cases hused : (list.get? mac).isSome
      · rw [if_pos hused]
        rcases ih with ⟨mac', j, hj, h⟩ | h
        · exact Or.inl ⟨mac', j, List.mem_cons_of_mem _ hj, h⟩
        · exact Or.inr h
      · rw [if_neg hused]
        exact Or.inl ⟨mac, i, List.mem_cons_self .., hmac, Option.not_isSome_iff_eq_none.mp hused, rfl⟩

theorem macaddrNext_cases (phy : Phy) (data : MacOptions) (val : Option ℤ)
    (list : Table Bytes ℤ) :
    (∃ mac, ∃ i < 32, macaddrGenerate phy data i = some mac ∧ list.get? mac = none ∧
      macaddrNext phy data val list = (some mac, list.set mac (val.getD (-1)))) ∨
    macaddrNext phy data val list = (none, list) := by
  rcases nextLoop_cases phy data val list (List.range 32) with ⟨mac, i, hi, h⟩ | h
  · exact Or.inl ⟨mac, i, List.mem_range.mp hi, h⟩
  · exact Or.inr h

theorem next_sound (phy : Phy) (data : MacOptions) (val : Option ℤ) (list : Table Bytes ℤ) :
    NextSound phy data val list := by
  rcases macaddrNext_cases phy data val list with ⟨mac, i, hi, hgen, hfree, heq⟩ | heq
  · refine ⟨fun mac' hmac' => ?_, fun hnone => ?_⟩
    · rw [heq] at hmac' ⊢
      obtain rfl := Option.some.inj hmac'
      exact ⟨hfree, ⟨i, hi, hgen⟩, rfl⟩
    · rw [heq] at hnone
      cases hnone
  · refine ⟨fun mac' hmac' => ?_, fun _ => by rw [heq]⟩
    rw [heq] at hmac'
    cases hmac'

/-- Calls one after another return different addresses, none of them in the table before. -/
theorem macaddrNexts_distinct (phy : Phy) (data : MacOptions) (vals : List (Option ℤ))
    (list : Table Bytes ℤ) :
    ((macaddrNexts phy data vals list).filterMap id).Nodup ∧
      ∀ mac ∈ (macaddrNexts phy data vals list).filterMap id, list.get? mac = none := by
  induction vals generalizing list with
  | nil => exact ⟨List.nodup_nil, by simp [macaddrNexts]⟩
  | cons val vals ih =>
    obtain ⟨hnodup, hfree⟩ := ih (macaddrNext phy data val list).2
    rw [macaddrNexts]
    rcases macaddrNext_cases phy data val list with ⟨mac, i, -, -, hnew, heq⟩ | heq
    · rw [heq] at hnodup hfree ⊢
      rw [List.filterMap_cons_some (f := id) rfl]
      refine ⟨List.nodup_cons.mpr ⟨fun hmem => ?_, hnodup⟩, ?_⟩
      · have hget := hfree mac hmem
        rw [Table.get?_set_self] at hget
        cases hget
      · intro mac' hmac'
        rcases List.mem_cons.mp hmac' with rfl | hmem
        · exact hnew
        · have hget := hfree mac' hmem
          rw [Table.get?_set] at hget
          split_ifs at hget
          exact hget
    · rw [heq] at hnodup hfree ⊢
      rw [List.filterMap_cons_none (f := id) rfl]
      exact ⟨hnodup, hfree⟩

end Calls

/-- Every phy hands out its addresses as promised. -/
theorem macaddr_generates (phy : Phy) (data : MacOptions) : Generates phy data where
  next := next_sound phy data
  distinct vals list := (macaddrNexts_distinct phy data vals list).1
  wellFormed baseAddr mask i mac hbase hmask hgen hfits := by
    obtain ⟨baseAddr', mask', hbase', hmask', hcases⟩ := generate_cases hgen
    obtain rfl := Option.some.inj (hbase.symm.trans hbase')
    obtain rfl := Option.some.inj (hmask.symm.trans hmask')
    rcases hcases with ⟨addr, -, rfl⟩ | ⟨base, idx, hc, rfl⟩
    · exact ⟨addr.wellFormed, addr.unicast⟩
    · rw [hc] at hfits
      exact wellFormed_madeAddr hfits
  low i mac hradio hi hgen := by
    obtain ⟨baseAddr, mask, -, -, hcases⟩ := generate_cases hgen
    rcases hcases with ⟨addr, -, rfl⟩ | ⟨base, idx, hc, rfl⟩
    · exact ⟨addr.wellFormed, addr.unicast⟩
    · have hle := le_of_candidate hc
      apply wellFormed_madeAddr
      cases macType data mask i with
      | b1 =>
        simp only [IndexFits, b1Index]
        split_ifs <;> omega
      | b5 =>
        simp only [IndexFits]
        omega
      | add => trivial
  add base idx h := by
    obtain ⟨a₀, a₁, a₂, a₃, a₄, a₅, hbase, h₀, h₁, h₂, h₃, h₄, h₅⟩ :=
      octets_of_wellFormed base.wellFormed
    rw [hbase] at h ⊢
    by_cases hidx : idx = 0 ∧ mbssidOf data = false
    · rw [madeAddr, if_pos hidx, hbase, hidx.1, Nat.add_zero, Nat.mod_eq_of_lt]
      simp only [tailValue, List.drop_succ_cons, List.drop_zero, List.foldl_cons, List.foldl_nil]
      omega
    · rw [splitMadeAddr hidx hbase, tailValue_add _ h₁ h₂ h₃ h₄ h₅ h]
  radios hbase hmask r₁ r₂ i j mac hown₁ hown₂ h₁ h₂ := by
    obtain ⟨addr₁, mask₁, haddr₁, hmask₁, h₁⟩ := generate_cases h₁
    obtain ⟨addr₂, mask₂, haddr₂, hmask₂, h₂⟩ := generate_cases h₂
    obtain rfl := Option.some.inj (hmask.symm.trans hmask₁)
    obtain rfl := Option.some.inj (hmask.symm.trans hmask₂)
    obtain rfl := Option.some.inj (haddr₁.symm.trans haddr₂)
    rw [candidate_shared hbase hown₁] at h₁
    rw [candidate_shared hbase hown₂] at h₂
    obtain ⟨_, hc, -⟩ | ⟨_, _, hc₁, rfl⟩ := h₁
    · cases hc
    obtain ⟨_, hc, -⟩ | ⟨_, _, hc₂, heq⟩ := h₂
    · cases hc
    cases hc₁
    cases hc₂
    have := index_eq_of_madeAddr heq
    omega
  own hbase hmask hmbssid hglobal r₁ r₂ base₁ base₂ i j mac hown₁ hown₂ hne h₁ := by
    intro h₂
    obtain ⟨addr₁, mask₁, haddr₁, hmask₁, h₁⟩ := generate_cases h₁
    obtain ⟨addr₂, mask₂, haddr₂, hmask₂, h₂⟩ := generate_cases h₂
    obtain rfl := Option.some.inj (hmask.symm.trans hmask₁)
    obtain rfl := Option.some.inj (hmask.symm.trans hmask₂)
    rw [candidate_begins phy hbase haddr₁ hown₁] at h₁
    rw [candidate_begins phy hbase haddr₂ hown₂] at h₂
    obtain ⟨_, hc, -⟩ | ⟨_, _, hc₁, rfl⟩ := h₁
    · cases hc
    obtain ⟨_, hc, -⟩ | ⟨_, _, hc₂, heq⟩ := h₂
    · cases hc
    cases hc₁
    cases hc₂
    apply hne
    rw [← tail_madeAddr hmbssid hglobal, heq, tail_madeAddr hmbssid hglobal]

/-- The candidates of two radios of a phy are different, whatever they are made from. -/
def RadiosDisjoint (phy : Phy) (data : MacOptions) : Prop :=
  data.macaddrBase = none → baseMask phy = some fullMask → ∀ r₁ r₂, r₁ ≠ r₂ →
    ∀ i < 32, ∀ j < 32, ∀ mac, macaddrGenerate (phy.withRadio r₁) data i = some mac →
      macaddrGenerate (phy.withRadio r₂) data j ≠ some mac

/-- A unicast address that ends in 255. -/
def sampleMac : Mac where
  text := ascii "00:11:22:33:44:ff"
  wellFormed := by decide +kernel
  unicast := by decide +kernel

/-- A phy with that address and the full mask, without a list of addresses. -/
def samplePhy : Phy where
  radio := none
  macaddress := some sampleMac
  addressMask := some ⟨fullMask, by decide +kernel⟩
  addresses := [sampleMac]

/-- The first radio comes to the indexes of the second one, and a carry adds the index twice. -/
theorem not_radiosDisjoint :
    ¬RadiosDisjoint samplePhy ⟨none, none, none⟩ ∧
      tailValue (macaddrSplit (madeAddr ⟨none, none, some 4⟩ .add sampleMac 2)) ≠
        (tailValue (macaddrSplit sampleMac.text) + 2) % 2 ^ 40 := by
  constructor
  · intro h
    have hfirst : macaddrGenerate (samplePhy.withRadio 0) ⟨none, none, none⟩ 17 =
        some (ascii "42:11:22:33:44:ff") := by
      decide +kernel
    have hsecond : macaddrGenerate (samplePhy.withRadio 1) ⟨none, none, none⟩ 1 =
        some (ascii "42:11:22:33:44:ff") := by
      decide +kernel
    exact h rfl (by decide +kernel) 0 1 Nat.zero_ne_one 17 (by decide) 1 (by decide) _ hfirst
      hsecond
  · decide +kernel

end NeonWrt.Wireless
