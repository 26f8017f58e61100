import NeonWrt.Luci.CidrMask

/-!
# Sums and differences of addresses of luci.ip

`_cidr_add_sub` adds a second address or a number of 32 bits to an address, or
subtracts it: on the word of an IPv4 address, and byte by byte with a carry on
the others. A result outside the family is replaced by the last address or the
first one, and a call that changes the value in place tells whether it was.
-/

namespace NeonWrt.Luci

open Lib

/-- The number branch of `_cidr_new`, which reads the number into a `uint32_t`. -/
def cidrOfInteger (family : Family) (n : ℕ) : Cidr :=
  let n := n % 4294967296
  let word : Bytes := [UInt8.ofNat (n / 0x1000000), UInt8.ofNat (n % 0x1000000 / 0x10000),
    UInt8.ofNat (n % 0x10000 / 0x100), UInt8.ofNat (n % 0x100)]
  { addr := match family with
      | .inet6 => .v6 ⟨List.replicate 12 0 ++ word, rfl⟩
      | .inet => .v4 (htonl n)
      | .packet => .mac ⟨List.replicate 2 0 ++ word, rfl⟩
    scope := 0
    scope_inet6 := fun h => absurd rfl h
    bits := family.afBits }

/-- The second argument: a value or a number. -/
inductive Operand
  | cidr (c : Cidr)
  | integer (n : ℕ)

/-- `L_checkcidr` with the family of the first argument. -/
def checkcidr (p : Cidr) : Operand → Cidr
  | .cidr c => c
  | .integer n => cidrOfInteger p.family n

/-- The loop of `_cidr_add_sub` over the bytes from the last one on. -/
def addSubOctets (add : Bool) {n : ℕ} (a b : Octets n) : Octets n × ℕ :=
  have hlen : a.1.reverse.length = b.1.reverse.length := by
    rw [List.length_reverse, List.length_reverse, a.2, b.2]
  match add with
  | true =>
    let r := addBytes 0 a.1.reverse b.1.reverse
    (⟨r.1.reverse, by rw [List.length_reverse, length_addBytes hlen, List.length_reverse, a.2]⟩, r.2)
  | false =>
    let r := subBytes 0 a.1.reverse b.1.reverse
    (⟨r.1.reverse, by rw [List.length_reverse, length_subBytes hlen, List.length_reverse, a.2]⟩, r.2)

/-- The branch of IPv4 addresses. -/
def addSubWord (add : Bool) (a b : Octets 4) : Addr × Bool :=
  let x := ntohl a
  let y := ntohl b
  if (add ∧ 0xFFFFFFFF - x < y) ∨ (!add ∧ x < y) then
    (.v4 (htonl (if add then 0xFFFFFFFF else 0)), false)
  else (.v4 (htonl (if add then x + y else x - y)), true)

/-- The branch of the other families. -/
def addSubBytes (add : Bool) {n : ℕ} (mk : Octets n → Addr) (a b : Octets n) : Addr × Bool :=
  let r := addSubOctets add a b
  if r.2 ≠ 0 then ((mk a).fill (if add then 0xFF else 0), false) else (mk r.1, true)

/-- The address that `_cidr_add_sub` computes, and whether it did not over- or underflow. -/
def addSubAddr (add : Bool) : Addr → Addr → Addr × Bool
  | .v4 a, .v4 b => addSubWord add a b
  | .v6 a, .v6 b => addSubBytes add .v6 a b
  | .mac a, .mac b => addSubBytes add .mac a b
  | a, _ => (a, false)

theorem family_addSubAddr (add : Bool) (a b : Addr) : (addSubAddr add a b).1.family = a.family := by
  cases a <;> cases b <;> simp only [addSubAddr, addSubWord, addSubBytes] <;> first
    | rfl
    | split <;> rfl

/-- `_cidr_add_sub`: the first argument after the call, and what is returned, which says in place
whether it went well and is the new value otherwise. -/
def cidrAddSub (add : Bool) (p1 : Cidr) (operand : Operand) (inplace : Bool) :
    Cidr × (Bool ⊕ Cidr) :=
  let p2 := checkcidr p1 operand
  let r := addSubAddr add p1.addr p2.addr
  let c : Cidr :=
    { p1 with addr := r.1, scope_inet6 := fun h => (family_addSubAddr ..).trans (p1.scope_inet6 h) }
  if inplace then (c, .inl r.2) else (p1, .inr c)

/-- `cidr_add` -/
def cidrAdd : Cidr → Operand → Bool → Cidr × (Bool ⊕ Cidr) := cidrAddSub true

/-- `cidr_sub` -/
def cidrSub : Cidr → Operand → Bool → Cidr × (Bool ⊕ Cidr) := cidrAddSub false

section Sums

variable {a b : Addr} {p : Cidr}

theorem addSubOctets_true {n : ℕ} (a b : Octets n) :
    bigEndian (addSubOctets true a b).1.1 + 256 ^ n * (addSubOctets true a b).2 =
      bigEndian a.1 + bigEndian b.1 := by
  have hspec := addBytes_spec (a := a.1.reverse) (b := b.1.reverse)
    (by rw [List.length_reverse, List.length_reverse, a.2, b.2]) 0
  rw [List.length_reverse, a.2] at hspec
  rw [bigEndian]
  simp only [addSubOctets, List.reverse_reverse]
  exact hspec

theorem addSubOctets_false {n : ℕ} (a b : Octets n) :
    bigEndian (addSubOctets false a b).1.1 + bigEndian b.1 =
      bigEndian a.1 + 256 ^ n * (addSubOctets false a b).2 := by
  have hspec := subBytes_spec (a := a.1.reverse) (b := b.1.reverse)
    (by rw [List.length_reverse, List.length_reverse, a.2, b.2]) (Nat.zero_le 1)
  rw [List.length_reverse, a.2] at hspec
  rw [bigEndian]
  simp only [addSubOctets, List.reverse_reverse]
  exact hspec

/-- Addition and subtraction of numbers below `m`, with the nearest of them where the result is
outside, and whether it is inside. -/
def saturated (add : Bool) (m x y : ℕ) : ℕ × Bool :=
  if add then (min (x + y) (m - 1), x + y < m) else (x - y, y ≤ x)

theorem saturated_overflow {add : Bool} {m x y : ℕ} (h : if add then m ≤ x + y else x < y) :
    saturated add m x y = (if add then m - 1 else 0, false) := by
  cases add with
  | true =>
    simp only [if_true] at h
    simp [saturated, h]
    omega
  | false =>
    simp only [Bool.false_eq_true, if_false] at h
    simp [saturated, h]
    omega

theorem saturated_inside {add : Bool} {m x y : ℕ} (h : if add then x + y < m else y ≤ x) :
    saturated add m x y = (if add then x + y else x - y, true) := by
  cases add with
  | true =>
    simp only [if_true] at h
    simp [saturated, h]
    omega
  | false =>
    simp only [Bool.false_eq_true, if_false] at h
    simp [saturated, h]

theorem addSubWord_spec (add : Bool) (a b : Octets 4) :
    ((addSubWord add a b).1.value, (addSubWord add a b).2) =
      saturated add (2 ^ 32) (Addr.v4 a).value (Addr.v4 b).value := by
  have ha : (Addr.v4 a).value < 2 ^ 32 := (Addr.v4 a).value_lt
  have hb : (Addr.v4 b).value < 2 ^ 32 := (Addr.v4 b).value_lt
  rw [addSubWord, ntohl_eq, ntohl_eq]
  cases add with
  | true =>
    simp only [true_and, Bool.not_true, Bool.false_eq_true, false_and, or_false, if_true]
    split_ifs with h
    · rw [saturated_overflow (by rw [if_pos rfl]; omega), value_htonl]
      rfl
    · rw [saturated_inside (by rw [if_pos rfl]; omega), value_htonl, Nat.mod_eq_of_lt (by omega)]
      rfl
  | false =>
    simp only [Bool.false_eq_true, false_and, Bool.not_false, true_and, false_or, if_false]
    split_ifs with h
    · rw [saturated_overflow (by rwa [if_neg (by decide)]), value_htonl]
      rfl
    · rw [saturated_inside (by rw [if_neg (by decide)]; omega), value_htonl,
        Nat.mod_eq_of_lt (by omega)]
      rfl

/-- The carry that is left tells whether the result is outside. -/
theorem addSubOctets_cases (add : Bool) {n : ℕ} (a b : Octets n) :
    let r := addSubOctets add a b
    (r.2 = 0 ∧ (if add then bigEndian a.1 + bigEndian b.1 < 256 ^ n else bigEndian b.1 ≤ bigEndian a.1) ∧
      bigEndian r.1.1 = if add then bigEndian a.1 + bigEndian b.1 else bigEndian a.1 - bigEndian b.1) ∨
    (r.2 ≠ 0 ∧ if add then 256 ^ n ≤ bigEndian a.1 + bigEndian b.1 else bigEndian a.1 < bigEndian b.1) := by
  intro r
  have ha := bigEndian_lt a.1
  have hb := bigEndian_lt b.1
  have hr := bigEndian_lt r.1.1
  rw [a.2] at ha
  rw [b.2] at hb
  rw [r.1.2] at hr
  have hcarry : r.2 ≠ 0 → 256 ^ n ≤ 256 ^ n * r.2 := fun h =>
    Nat.le_mul_of_pos_right _ (Nat.pos_of_ne_zero h)
  cases add with
  | true =>
    have hspec : bigEndian r.1.1 + 256 ^ n * r.2 = bigEndian a.1 + bigEndian b.1 :=
      addSubOctets_true a b
    simp only [if_true]
    by_cases h : r.2 = 0
    · rw [h, Nat.mul_zero, Nat.add_zero] at hspec
      exact Or.inl ⟨h, by omega, hspec⟩
    · have := hcarry h
      exact Or.inr ⟨h, by omega⟩
  | false =>
    have hspec : bigEndian r.1.1 + bigEndian b.1 = bigEndian a.1 + 256 ^ n * r.2 :=
      addSubOctets_false a b
    simp only [Bool.false_eq_true, if_false]
    by_cases h : r.2 = 0
    · rw [h, Nat.mul_zero, Nat.add_zero] at hspec
      exact Or.inl ⟨h, by omega, by omega⟩
    · have := hcarry h
      exact Or.inr ⟨h, by omega⟩

theorem addSubBytes_spec (add : Bool) {n : ℕ} {mk : Octets n → Addr} {a b : Octets n}
    (hvalue : ∀ z, (mk z).value = bigEndian z.1) (hwidth : 2 ^ (mk a).family.afBits = 256 ^ n) :
    ((addSubBytes add mk a b).1.value, (addSubBytes add mk a b).2) =
      saturated add (256 ^ n) (mk a).value (mk b).value := by
  rw [addSubBytes, hvalue, hvalue]
  rcases addSubOctets_cases add a b with ⟨hcarry, hinside, hsum⟩ | ⟨hcarry, hover⟩
  · simp only [if_neg (not_not.mpr hcarry), hvalue]
    rw [saturated_inside hinside, hsum]
  · simp only [if_pos hcarry]
    rw [saturated_overflow hover]
    cases add with
    | true => rw [if_pos rfl, if_pos rfl, Addr.value_fill_max, hwidth]
    | false => rw [if_neg (by decide), if_neg (by decide), Addr.value_fill_zero]

/-- Addresses of one family are added and subtracted as numbers of the family's width. -/
theorem addSubAddr_spec (add : Bool) (h : a.family = b.family) :
    ((addSubAddr add a b).1.value, (addSubAddr add a b).2) =
      saturated add (2 ^ a.family.afBits) a.value b.value := by
  cases a with
  | v4 a =>
    cases b with
    | v4 b => exact addSubWord_spec add a b
    | v6 b => cases h
    | mac b => cases h
  | v6 a =>
    cases b with
    | v4 b => cases h
    | v6 b => exact addSubBytes_spec add (fun z => rfl) rfl
    | mac b => cases h
  | mac a =>
    cases b with
    | v4 b => cases h
    | v6 b => cases h
    | mac b => exact addSubBytes_spec add (fun z => rfl) rfl

end Sums

/-- What the second argument may be: a value of the family, or a number of 32 bits. -/
def Operand.Allowed (p : Cidr) : Operand → Prop
  | .cidr c => c.family = p.family
  | .integer n => n < 2 ^ 32

/-- The number that is added. -/
def Operand.value : Operand → ℕ
  | .cidr c => c.addr.value
  | .integer n => n

section Calls

variable {p c : Cidr} {operand : Operand}

theorem cidrOfInteger_spec (family : Family) {n : ℕ} (h : n < 2 ^ 32) :
    (cidrOfInteger family n).family = family ∧ (cidrOfInteger family n).addr.value = n := by
  have hword : (UInt8.ofNat (n / 0x1000000)).toNat * 256 ^ 3 +
      ((UInt8.ofNat (n % 0x1000000 / 0x10000)).toNat * 256 ^ 2 +
        ((UInt8.ofNat (n % 0x10000 / 0x100)).toNat * 256 ^ 1 +
          (UInt8.ofNat (n % 0x100)).toNat * 256 ^ 0)) = n := by
    simp only [UInt8.toNat_ofNat']
    omega
  have hmod : n % 4294967296 = n := Nat.mod_eq_of_lt h
  refine ⟨by cases family <;> rfl, ?_⟩
  cases family with
  | inet =>
    simp only [cidrOfInteger, hmod, value_htonl]
    exact hmod
  | inet6 =>
    simp only [cidrOfInteger, hmod, Addr.value, Addr.octets, List.replicate, List.cons_append,
      List.nil_append, bigEndian_cons, bigEndian_nil, List.length_cons, List.length_nil]
    simpa using hword
  | packet =>
    simp only [cidrOfInteger, hmod, Addr.value, Addr.octets, List.replicate, List.cons_append,
      List.nil_append, bigEndian_cons, bigEndian_nil, List.length_cons, List.length_nil]
    simpa using hword

theorem checkcidr_spec (h : operand.Allowed p) :
    p.family = (checkcidr p operand).family ∧
      (checkcidr p operand).addr.value = operand.value := by
  cases operand with
  | cidr c => exact ⟨h.symm, rfl⟩
  | integer n =>
    obtain ⟨hfamily, hvalue⟩ := cidrOfInteger_spec p.family h
    exact ⟨hfamily.symm, hvalue⟩

/-- Two values that differ in nothing but the address have the same address. -/
theorem Cidr.eq_of_addr {c p : Cidr} (haddr : c.addr = p.addr) (hscope : c.scope = p.scope)
    (hbits : c.bits = p.bits) : c = p := by
  cases c
  cases p
  simp only at haddr hscope hbits
  subst haddr hscope hbits
  rfl

/-- Either call computes one value, whether it stores it or returns it. -/
theorem cidrAddSub_cases (add : Bool) (h : operand.Allowed p) : ∃ r : Cidr,
    r.family = p.family ∧ r.scope = p.scope ∧ r.bits = p.bits ∧
      r.addr.value = (saturated add (2 ^ p.family.afBits) p.addr.value operand.value).1 ∧
      cidrAddSub add p operand true =
        (r, .inl (saturated add (2 ^ p.family.afBits) p.addr.value operand.value).2) ∧
      cidrAddSub add p operand false = (p, .inr r) := by
  obtain ⟨hfamily, hvalue⟩ := checkcidr_spec h
  have hspec := addSubAddr_spec add hfamily
  rw [hvalue] at hspec
  refine ⟨(cidrAddSub add p operand true).1, ?_, rfl, rfl, congrArg Prod.fst hspec, ?_, rfl⟩
  · exact family_addSubAddr add p.addr (checkcidr p operand).addr
  · exact Prod.ext rfl (congrArg Sum.inl (congrArg Prod.snd hspec))

/-- Sums and differences are the numbers' own, or the end of the family that they run over, and
a call in place says which. The rest of the value stays. What was added can be subtracted. -/
theorem cidrAddSub_spec (p : Cidr) (operand : Operand) (h : operand.Allowed p) :
    ∃ sum diff : Cidr,
      (∀ r ∈ [sum, diff], r.family = p.family ∧ r.scope = p.scope ∧ r.bits = p.bits) ∧
      sum.addr.value = min (p.addr.value + operand.value) (2 ^ p.family.afBits - 1) ∧
      diff.addr.value = p.addr.value - operand.value ∧
      cidrAdd p operand true =
        (sum, .inl (decide (p.addr.value + operand.value < 2 ^ p.family.afBits))) ∧
      cidrAdd p operand false = (p, .inr sum) ∧
      cidrSub p operand true = (diff, .inl (decide (operand.value ≤ p.addr.value))) ∧
      cidrSub p operand false = (p, .inr diff) ∧
      (p.addr.value + operand.value < 2 ^ p.family.afBits →
        cidrSub sum operand true = (p, .inl true)) := by
  obtain ⟨sum, hfamily, hscope, hbits, hsum, hplace, hderived⟩ := cidrAddSub_cases true h
  obtain ⟨diff, hfamily', hscope', hbits', hdiff, hplace', hderived'⟩ := cidrAddSub_cases false h
  refine ⟨sum, diff, ?_, hsum, hdiff, hplace, hderived, hplace', hderived', fun hlt => ?_⟩
  · rintro r hr
    simp only [List.mem_cons, List.not_mem_nil, or_false] at hr
    rcases hr with rfl | rfl
    · exact ⟨hfamily, hscope, hbits⟩
    · exact ⟨hfamily', hscope', hbits'⟩
  · have hback : operand.Allowed sum := by
      cases operand with
      | cidr c => exact Eq.trans h hfamily.symm
      | integer n => exact h
    obtain ⟨r, hr, hrscope, hrbits, hrvalue, hrplace, -⟩ := cidrAddSub_cases false hback
    have hsumvalue : sum.addr.value = p.addr.value + operand.value := by
      rw [hsum, saturated_inside (by rwa [if_pos rfl]), if_pos rfl]
    have hinside : operand.value ≤ sum.addr.value := by omega
    rw [saturated_inside (by rwa [if_neg (by decide)]), if_neg (by decide), hsumvalue,
      Nat.add_sub_cancel] at hrvalue
    rw [saturated_inside (by rwa [if_neg (by decide)])] at hrplace
    have heq : r = p := Cidr.eq_of_addr (Addr.eq_of_value (hr.trans hfamily) hrvalue)
      (hrscope.trans hscope) (hrbits.trans hbits)
    rw [cidrSub, hrplace, heq]

/-- The address 192.168.1.1. -/
def lanCidr : Cidr := ⟨.v4 ⟨[192, 168, 1, 1], rfl⟩, 0, fun h => absurd rfl h, 24⟩

theorem cidrAddSub_lan : ∃ sum : Cidr, cidrAdd lanCidr (.integer 250) true =
    (sum, .inl (decide (lanCidr.addr.value + 250 < 2 ^ 32))) ∧
      (lanCidr.addr.value + 250 < 2 ^ 32 → cidrSub sum (.integer 250) true = (lanCidr, .inl true)) := by
  obtain ⟨sum, -, -, -, -, hadd, -, -, -, hback⟩ :=
    cidrAddSub_spec lanCidr (.integer 250) (show 250 < 2 ^ 32 by decide)
  exact ⟨sum, hadd, hback⟩

/-- A number beyond 32 bits is added without its high bits, and no overflow is told. -/
theorem not_cidrAddSub : cidrAdd lanCidr (.integer (2 ^ 32)) true = (lanCidr, .inl true) ∧
    lanCidr.addr.value ≠ min (lanCidr.addr.value + 2 ^ 32) (2 ^ 32 - 1) ∧
    ¬lanCidr.addr.value + 2 ^ 32 < 2 ^ 32 := by
  refine ⟨?_, by decide +kernel, by omega⟩
  refine Prod.ext ?_ (by decide +kernel)
  exact Cidr.eq_of_addr (by decide +kernel) rfl rfl

end Calls

end NeonWrt.Luci
