import NeonWrt.Luci.CidrMask

/-!
# Networks of luci.ip

An address with a prefix length stands for the network of all addresses that
agree with it in that many bits.
-/

namespace NeonWrt.Luci

open Lib

/-- `cidr_network` -/
def cidrNetwork (c : Cidr) (bits : ℤ) : Cidr where
  addr := applyMask c.addr bits false
  scope := c.scope
  scope_inet6 h := (family_applyMask ..).trans (c.scope_inet6 h)
  bits := c.family.afBits

/-- `cidr_broadcast`, which there is for IPv4 only -/
def cidrBroadcast (c : Cidr) (bits : ℤ) : Option Cidr :=
  if c.family ≠ .inet then none
  else some {
    addr := applyMask c.addr bits true
    scope := c.scope
    scope_inet6 := fun h => (family_applyMask ..).trans (c.scope_inet6 h)
    bits := 32 }

/-- The loop of `cidr_minhost`, from the lowest byte on. -/
def incLoop : ℕ → Bytes → Bytes
  | _, [] => []
  | carry, x :: r =>
    let rest := if 255 < x.toNat + carry then 1 else 0
    (x + UInt8.ofNat carry) :: incLoop rest r

theorem length_incLoop (carry : ℕ) (r : Bytes) : (incLoop carry r).length = r.length := by
  fun_induction incLoop carry r with
  | case1 => rfl
  | case2 carry x r rest ih => rw [List.length_cons, ih, List.length_cons]

/-- The address after this one. -/
def incAddr : Addr → Addr
  | .v4 a => .v4 (htonl (ntohl a + 1))
  | .v6 a => (Addr.v6 a).mapOctets (fun b => (incLoop 1 b.reverse).reverse) (by simp [length_incLoop])
  | .mac a => (Addr.mac a).mapOctets (fun b => (incLoop 1 b.reverse).reverse) (by simp [length_incLoop])

@[simp] theorem family_incAddr (a : Addr) : (incAddr a).family = a.family := by cases a <;> rfl

/-- `cidr_minhost` -/
def cidrMinhost (c : Cidr) : Cidr :=
  let r := applyMask c.addr c.bits false
  if c.bits < c.family.afBits then
    { addr := incAddr r
      scope := c.scope
      scope_inet6 := fun h => by simpa [r] using c.scope_inet6 h
      bits := c.family.afBits }
  else
    { addr := r
      scope := c.scope
      scope_inet6 := fun h => by simpa [r] using c.scope_inet6 h
      bits := c.bits }

/-- The last address of an IPv4 network is left to the broadcasts. -/
def decAddr : Addr → Addr
  | .v4 a => .v4 (htonl (u32Sub (ntohl a) 1))
  | a => a

@[simp] theorem family_decAddr (a : Addr) : (decAddr a).family = a.family := by cases a <;> rfl

/-- `cidr_maxhost` -/
def cidrMaxhost (c : Cidr) : Cidr :=
  let r := applyMask c.addr c.bits true
  { addr := if c.family = .inet ∧ c.bits < 32 then decAddr r else r
    scope := c.scope
    scope_inet6 := fun h => by
      split_ifs
      · simpa [r] using c.scope_inet6 h
      · simpa [r] using c.scope_inet6 h
    bits := c.family.afBits }

/-- How many bits of the addresses of a network are free. -/
def Cidr.host (c : Cidr) : ℕ := hostBits c.family c.bits

/-- The address lies in the network. -/
def Cidr.Covers (c : Cidr) (x : Addr) : Prop :=
  x.family = c.family ∧ x.value / 2 ^ c.host = c.addr.value / 2 ^ c.host

section Hosts

variable {a : Addr} {c : Cidr} {x : Addr}

theorem incLoop_value {carry : ℕ} (h : carry ≤ 1) (r : Bytes) :
    littleEndian (incLoop carry r) = (littleEndian r + carry) % 256 ^ r.length := by
  induction r generalizing carry with
  | nil => simp [incLoop, Nat.mod_one]
  | cons x r ih =>
    have hx := x.toNat_lt
    have hrest : (if 255 < x.toNat + carry then 1 else 0) = (x.toNat + carry) / 256 := by
      split_ifs <;> omega
    have hbyte : (x + UInt8.ofNat carry).toNat = (x.toNat + carry) % 256 := by
      rw [UInt8.toNat_add, UInt8.toNat_ofNat']
      omega
    have hsum : littleEndian (x :: r) + carry =
        256 * (littleEndian r + (x.toNat + carry) / 256) + (x.toNat + carry) % 256 := by
      rw [littleEndian_cons]
      omega
    have hlow : (x.toNat + carry) % 256 < 256 := Nat.mod_lt _ (by decide)
    rw [incLoop, littleEndian_cons, hbyte, hrest, ih (by omega), hsum, List.length_cons, pow_succ',
      Nat.mod_mul, Nat.mul_add_mod, Nat.mod_mod, Nat.mul_add_div (by decide),
      Nat.div_eq_of_lt hlow, Nat.add_zero]

theorem incAddr_value (a : Addr) : (incAddr a).value = (a.value + 1) % 2 ^ a.family.afBits := by
  have hloop : bigEndian (incLoop 1 a.octets.reverse).reverse =
      (a.value + 1) % 2 ^ a.family.afBits := by
    rw [bigEndian, List.reverse_reverse, incLoop_value le_rfl, List.length_reverse,
      Addr.length_octets, show (256 : ℕ) = 2 ^ 8 from rfl, ← pow_mul, ← Family.afBits_eq]
    rfl
  cases a with
  | v4 a => rw [incAddr, value_htonl, ntohl_eq]; rfl
  | v6 a => exact hloop
  | mac a => exact hloop

theorem Cidr.network_le (c : Cidr) :
    c.addr.value / 2 ^ c.host * 2 ^ c.host + 2 ^ c.host ≤ 2 ^ c.family.afBits := by
  have hle : c.host ≤ c.family.afBits := Nat.sub_le _ _
  have hsplit : 2 ^ c.family.afBits = 2 ^ (c.family.afBits - c.host) * 2 ^ c.host := by
    rw [← pow_add, Nat.sub_add_cancel hle]
  have hquot : c.addr.value / 2 ^ c.host < 2 ^ (c.family.afBits - c.host) := by
    rw [Nat.div_lt_iff_lt_mul (Nat.two_pow_pos _), ← hsplit]
    exact c.addr.value_lt
  rw [← Nat.succ_mul, hsplit]
  exact Nat.mul_le_mul_right _ hquot

theorem network_value (c : Cidr) :
    (cidrNetwork c c.bits).addr.value = c.addr.value / 2 ^ c.host * 2 ^ c.host :=
  (applyMask_value c.addr c.bits false).trans (Nat.add_zero _)

theorem broadcast_value (h : c.family = .inet) : ∃ b, cidrBroadcast c c.bits = some b ∧
    b.addr.value = c.addr.value / 2 ^ c.host * 2 ^ c.host + (2 ^ c.host - 1) :=
  ⟨_, if_neg (not_not.mpr h), applyMask_value c.addr c.bits true⟩

/-- A network of more than one address has a free bit. -/
theorem Cidr.host_pos_iff (c : Cidr) : 0 < c.host ↔ c.bits < c.family.afBits := by
  have hpos : 0 < c.family.afBits := by cases c.family <;> decide
  rw [Cidr.host, hostBits]
  omega

theorem minhost_value (c : Cidr) : (cidrMinhost c).addr.value =
    c.addr.value / 2 ^ c.host * 2 ^ c.host + if 0 < c.host then 1 else 0 := by
  have hmask : (applyMask c.addr c.bits false).value = c.addr.value / 2 ^ c.host * 2 ^ c.host :=
    network_value c
  by_cases hhost : 0 < c.host
  · have htwo : 2 ≤ 2 ^ c.host := Nat.le_self_pow (by omega) 2
    have hle := c.network_le
    simp only [cidrMinhost, if_pos (c.host_pos_iff.mp hhost), if_pos hhost, incAddr_value,
      family_applyMask, hmask]
    exact Nat.mod_eq_of_lt (by unfold Cidr.family at hle; omega)
  · simp only [cidrMinhost, if_neg (mt c.host_pos_iff.mpr hhost), if_neg hhost, hmask, Nat.add_zero]

theorem maxhost_value (c : Cidr) : (cidrMaxhost c).addr.value =
    c.addr.value / 2 ^ c.host * 2 ^ c.host +
      if c.family = .inet ∧ 0 < c.host then 2 ^ c.host - 2 else 2 ^ c.host - 1 := by
  have hmask : (applyMask c.addr c.bits true).value =
      c.addr.value / 2 ^ c.host * 2 ^ c.host + (2 ^ c.host - 1) :=
    applyMask_value c.addr c.bits true
  by_cases hfamily : c.family = .inet
  · have hbits : c.bits < 32 ↔ 0 < c.host := by
      rw [c.host_pos_iff, hfamily]
      rfl
    by_cases hhost : 0 < c.host
    · have htwo : 2 ≤ 2 ^ c.host := Nat.le_self_pow (by omega) 2
      obtain ⟨a, ha⟩ : ∃ a, applyMask c.addr c.bits true = .v4 a := by
        have hinet : (applyMask c.addr c.bits true).family = .inet :=
          (family_applyMask ..).trans hfamily
        cases h : applyMask c.addr c.bits true with
        | v4 a => exact ⟨a, rfl⟩
        | v6 a => rw [h] at hinet; cases hinet
        | mac a => rw [h] at hinet; cases hinet
      have hlt : (Addr.v4 a).value < 2 ^ 32 := (Addr.v4 a).value_lt
      rw [ha] at hmask
      simp only [cidrMaxhost, if_pos (⟨hfamily, hbits.mpr hhost⟩ : _ ∧ _), ha, decAddr,
        value_htonl, ntohl_eq, if_pos (⟨hfamily, hhost⟩ : _ ∧ _)]
      rw [u32Sub_of_le (by omega), Nat.mod_eq_of_lt (lt_of_le_of_lt (Nat.sub_le _ _) hlt)]
      omega
    · simp only [cidrMaxhost, if_neg (fun h : _ ∧ _ => hhost (hbits.mp h.2)),
        if_neg (fun h : _ ∧ _ => hhost h.2), hmask]
  · simp only [cidrMaxhost, if_neg (fun h : _ ∧ _ => hfamily h.1), hmask]

theorem covers_of_value {e : ℕ} (hfamily : x.family = c.family)
    (hvalue : x.value = c.addr.value / 2 ^ c.host * 2 ^ c.host + e) (he : e < 2 ^ c.host) :
    c.Covers x := by
  refine ⟨hfamily, ?_⟩
  rw [hvalue, Nat.mul_comm, Nat.mul_add_div (Nat.two_pow_pos _), Nat.div_eq_of_lt he, Nat.add_zero]

theorem family_minhost (c : Cidr) : (cidrMinhost c).family = c.family := by
  simp only [cidrMinhost]
  split <;> simp [Cidr.family]

theorem family_maxhost (c : Cidr) : (cidrMaxhost c).family = c.family := by
  simp only [cidrMaxhost, Cidr.family]
  split_ifs <;> simp

/-- The lowest host is not above the highest one and both lie in the network, without the
network's own address and its broadcast address where there are more, unless it is an IPv4
network of two addresses. -/
theorem minhost_le_maxhost_iff (c : Cidr) :
    ((cidrMinhost c).addr.value ≤ (cidrMaxhost c).addr.value ∧
      c.Covers (cidrMinhost c).addr ∧ c.Covers (cidrMaxhost c).addr ∧
      (c.family = .inet → c.bits ≤ 30 → ∀ x ∈ [(cidrMinhost c).addr, (cidrMaxhost c).addr],
        x ≠ (cidrNetwork c c.bits).addr ∧ ∀ b ∈ cidrBroadcast c c.bits, x ≠ b.addr)) ↔
      ¬(c.family = .inet ∧ c.bits = 31) := by
  have hmin := minhost_value c
  have hmax := maxhost_value c
  have hpos := Nat.two_pow_pos c.host
  have hinet : c.family = .inet → c.host = 32 - c.bits.toNat := fun h => by
    rw [Cidr.host, h]
    rfl
  constructor
  · rintro ⟨hle, -⟩ ⟨hfamily, hbits⟩
    have hhost : c.host = 1 := by
      rw [hinet hfamily, hbits]
      rfl
    rw [hmin, hmax, if_pos (by omega), if_pos ⟨hfamily, by omega⟩, hhost] at hle
    omega
  · intro hok
    -- the free bits leave room for the adjustments of both ends
    have hroom : 0 < c.host → 2 ≤ 2 ^ c.host := fun h => Nat.le_self_pow (by omega) 2
    have hmore : c.family = .inet → 0 < c.host → 4 ≤ 2 ^ c.host := by
      intro hfamily hhost
      have htwo : 2 ≤ c.host := by
        have := hinet hfamily
        by_contra hlt
        exact hok ⟨hfamily, by omega⟩
      exact Nat.pow_le_pow_right (show 0 < 2 by decide) htwo
    refine ⟨?_, covers_of_value (family_minhost c) hmin ?_,
      covers_of_value (family_maxhost c) hmax ?_, ?_⟩
    · rw [hmin, hmax]
      split_ifs with h₁ h₂ h₂
      · have := hmore h₂.1 h₁
        omega
      · have := hroom h₁
        omega
      · exact absurd h₂.2 h₁
      · omega
    · split_ifs with h
      · have := hroom h
        omega
      · exact hpos
    · split_ifs <;> omega
    · intro hfamily hbits x hx
      have hhost : 0 < c.host := by
        have := hinet hfamily
        omega
      have hfour := hmore hfamily hhost
      obtain ⟨b, hb, hbvalue⟩ := broadcast_value hfamily
      rw [if_pos hhost] at hmin
      rw [if_pos ⟨hfamily, hhost⟩] at hmax
      have hnet := network_value c
      have hx : x.value = c.addr.value / 2 ^ c.host * 2 ^ c.host + 1 ∨
          x.value = c.addr.value / 2 ^ c.host * 2 ^ c.host + (2 ^ c.host - 2) := by
        simp only [List.mem_cons, List.not_mem_nil, or_false] at hx
        rcases hx with rfl | rfl
        · exact Or.inl hmin
        · exact Or.inr hmax
      refine ⟨?_, fun b' hb' => ?_⟩
      · rintro rfl
        omega
      · obtain rfl : b = b' := Option.some.inj (hb.symm.trans hb')
        rintro rfl
        omega

/-- An IPv4 address that belongs to no interface. -/
def quadCidr (a b c d : UInt8) (bits : ℤ) : Cidr :=
  ⟨.v4 ⟨[a, b, c, d], rfl⟩, 0, fun h => absurd rfl h, bits⟩

/-- 10.0.0.0/31 has its lowest host above the highest. -/
theorem not_minhost_le_maxhost :
    (cidrMinhost (quadCidr 10 0 0 0 31)).addr = (quadCidr 10 0 0 1 32).addr ∧
      (cidrMaxhost (quadCidr 10 0 0 0 31)).addr = (quadCidr 10 0 0 0 32).addr ∧
      ¬(cidrMinhost (quadCidr 10 0 0 0 31)).addr.value ≤
        (cidrMaxhost (quadCidr 10 0 0 0 31)).addr.value := by
  decide +kernel

end Hosts

/-- `cidr_contains` -/
def cidrContains (p1 p2 : Cidr) : Bool :=
  if p1.family = p2.family ∧ p1.bits ≤ p2.bits then
    (applyMask p1.addr p1.bits false).octets = (applyMask p2.addr p1.bits false).octets
  else false

/-- The loop of `diff_prefix` over the bytes of two addresses. -/
def diffLoop : ℕ → Bytes → Bytes → Bool
  | r, x :: a, y :: u8 =>
    let k := if 8 < r then 8 else r
    let b := if r ≠ 0 then UInt8.ofNat (0xFF <<< (8 - k)) else 0
    if x &&& b ≠ y &&& b then true else diffLoop (r - k) a u8
  | _, _, _ => false

/-- What `diff_prefix` compares. A shift by 33 bits or more, and one by less than no bits,
is undefined. -/
def diffMasked (p : Cidr) (a : Bytes) : Option Bool :=
  match p.addr with
  | .v4 v4 =>
    if p.bits < 0 ∨ 32 < p.bits then none
    else
      let m := if p.bits ≠ 0 then 0xFFFFFFFF - ((1 <<< (32 - p.bits.toNat)) - 1) else 0
      some (Endian.big.getU32 a 0 &&& m ≠ ntohl v4 &&& m)
  | addr => some (diffLoop (p.bits % 256).toNat a addr.octets)

/-- `diff_prefix`. A filter that is not there differs from nothing. -/
def diffPrefix (family : Family) (addr : Option Bytes) (bits : ℤ) (exact : Bool)
    (p : Option Cidr) : Option Bool :=
  match p with
  | none => some false
  | some p =>
    match addr with
    | none => some true
    | some a =>
      if p.family ≠ family ∨ bits < p.bits then some true
      else (diffMasked p a).map fun diff => diff || (exact && p.bits ≠ bits)

section Inclusion

variable {a b c : Cidr}

theorem div_two_pow_congr {x y m n : ℕ} (h : m ≤ n) (heq : x / 2 ^ m = y / 2 ^ m) :
    x / 2 ^ n = y / 2 ^ n := by
  rw [← Nat.add_sub_cancel' h, pow_add, ← Nat.div_div_eq_div_mul, ← Nat.div_div_eq_div_mul, heq]

theorem masked_eq_iff {x y : Addr} (h : x.family = y.family) (bits : ℤ) :
    (applyMask x bits false).octets = (applyMask y bits false).octets ↔
      x.value / 2 ^ hostBits x.family bits = y.value / 2 ^ hostBits x.family bits := by
  have hvalue : ∀ z : Addr, (applyMask z bits false).value =
      z.value / 2 ^ hostBits z.family bits * 2 ^ hostBits z.family bits := fun z =>
    (applyMask_value z bits false).trans (Nat.add_zero _)
  constructor
  · intro heq
    have hnum : (applyMask x bits false).value = (applyMask y bits false).value :=
      congrArg bigEndian heq
    rw [hvalue, hvalue, ← h] at hnum
    exact Nat.eq_of_mul_eq_mul_right (Nat.two_pow_pos _) hnum
  · intro heq
    have hsame : applyMask x bits false = applyMask y bits false :=
      Addr.eq_of_value (by rw [family_applyMask, family_applyMask, h])
        (by rw [hvalue, hvalue, ← h, heq])
    rw [hsame]

theorem cidrContains_iff : cidrContains a b = true ↔ a.family = b.family ∧ a.bits ≤ b.bits ∧
    b.addr.value / 2 ^ a.host = a.addr.value / 2 ^ a.host := by
  unfold cidrContains
  split_ifs with h
  · rw [decide_eq_true_eq, masked_eq_iff h.1]
    exact ⟨fun heq => ⟨h.1, h.2, heq.symm⟩, fun heq => heq.2.2.symm⟩
  · simp only [false_iff]
    exact fun h' => h ⟨h'.1, h'.2.1⟩

theorem Cidr.covers_self (c : Cidr) : c.Covers c.addr := ⟨rfl, rfl⟩

/-- A network is not below another one unless it leaves as few bits free and starts where the
other one does. -/
theorem covers_imp_iff : (∀ x, b.Covers x → a.Covers x) ↔
    a.family = b.family ∧ b.host ≤ a.host ∧
      b.addr.value / 2 ^ a.host = a.addr.value / 2 ^ a.host := by
  constructor
  · intro h
    obtain ⟨hfamily, hvalue⟩ := h _ b.covers_self
    refine ⟨hfamily.symm, ?_, hvalue⟩
    -- the ends of the smaller network are in the larger one
    have hlow := (h (applyMask b.addr b.bits false) (covers_of_value (e := 0) (family_applyMask ..)
      (applyMask_value b.addr b.bits false) (Nat.two_pow_pos _))).2
    have hhigh := (h (applyMask b.addr b.bits true) (covers_of_value (family_applyMask ..)
      (applyMask_value b.addr b.bits true) (Nat.sub_lt (Nat.two_pow_pos _) one_pos))).2
    rw [applyMask_value, ← hlow, applyMask_value] at hhigh
    by_contra hlt
    obtain ⟨d, hd⟩ := Nat.exists_eq_add_of_lt (not_le.mp hlt)
    have hpow : 2 ^ b.host = 2 ^ a.host * (2 * 2 ^ d) := by
      rw [hd, pow_succ, pow_add]
      ring
    have hpos := Nat.two_pow_pos a.host
    have hdpos := Nat.two_pow_pos d
    have hends : (2 ^ a.host * (b.addr.value / 2 ^ b.host * (2 * 2 ^ d)) + (2 ^ b.host - 1)) /
        2 ^ a.host = 2 ^ a.host * (b.addr.value / 2 ^ b.host * (2 * 2 ^ d)) / 2 ^ a.host := by
      have hre : b.addr.value / 2 ^ b.host * 2 ^ b.host =
          2 ^ a.host * (b.addr.value / 2 ^ b.host * (2 * 2 ^ d)) := by
        rw [hpow]
        ring
      rw [← hre]
      exact hhigh
    rw [Nat.mul_add_div hpos, Nat.mul_div_cancel_left _ hpos] at hends
    have hone : 1 ≤ (2 ^ b.host - 1) / 2 ^ a.host := by
      rw [Nat.le_div_iff_mul_le hpos, hpow]
      have : 2 ^ a.host * (2 * 2 ^ d) = 2 * (2 ^ a.host * 2 ^ d) := by ring
      have hle : 2 ^ a.host ≤ 2 ^ a.host * 2 ^ d := Nat.le_mul_of_pos_right _ hdpos
      omega
    omega
  · rintro ⟨hfamily, hle, hvalue⟩ x ⟨hx, hxvalue⟩
    exact ⟨hx.trans hfamily.symm, (div_two_pow_congr hle hxvalue).trans hvalue⟩

theorem diffLoop_iff (r : ℕ) {x y : Bytes} (hlen : x.length = y.length) :
    diffLoop r x y = true ↔ maskLoop false r x ≠ maskLoop false r y := by
  induction x generalizing r y with
  | nil =>
    obtain rfl := List.length_eq_zero_iff.mp hlen.symm
    simp [diffLoop]
  | cons c x ih =>
    obtain ⟨d, y, rfl⟩ := List.exists_cons_of_length_eq_add_one hlen.symm
    have hmask : (if r ≠ 0 then UInt8.ofNat (0xFF <<< (8 - if 8 < r then 8 else r)) else 0) =
        UInt8.ofNat (0xFF <<< (8 - if 8 < r then 8 else r)) := by
      split_ifs with h₁ h₂
      · rfl
      · rfl
      · omega
      · obtain rfl : r = 0 := by simpa using h₁
        rfl
    simp only [diffLoop, maskLoop, hmask, Bool.false_eq_true, if_false, ne_eq, List.cons.injEq,
      not_and]
    generalize (if 8 < r then 8 else r) = k
    by_cases heq : c &&& UInt8.ofNat (0xFF <<< (8 - k)) = d &&& UInt8.ofNat (0xFF <<< (8 - k))
    · rw [if_neg (not_not.mpr heq), ih _ (by simpa using hlen)]
      exact ⟨fun h _ => h, fun h => h heq⟩
    · rw [if_pos heq]
      exact ⟨fun _ h => absurd h heq, fun _ => rfl⟩

/-- How many bits `diff_prefix` leaves out of the comparison, where its counter is a byte. -/
def Cidr.routeHost (c : Cidr) : ℕ :=
  if c.family = .inet then c.host else c.family.afBits - (c.bits % 256).toNat

theorem diffMasked_eq (ha : a.bits ≤ a.family.afBits) (hfamily : a.family = b.family) :
    diffMasked a b.addr.octets =
      if a.family = .inet ∧ a.bits < 0 then none
      else some (decide (b.addr.value / 2 ^ a.routeHost ≠ a.addr.value / 2 ^ a.routeHost)) := by
  have hloop : ∀ n : ℕ, diffLoop n b.addr.octets a.addr.octets =
      decide (b.addr.value / 2 ^ (a.family.afBits - n) ≠ a.addr.value / 2 ^ (a.family.afBits - n)) := by
    intro n
    have hlen : b.addr.octets.length = a.addr.octets.length := by
      rw [Addr.length_octets, Addr.length_octets]
      exact congrArg _ hfamily.symm
    have hvalue : ∀ z : Addr, z.family = a.family → bigEndian (maskLoop false n z.octets) =
        z.value / 2 ^ (a.family.afBits - n) * 2 ^ (a.family.afBits - n) := by
      intro z hz
      rw [maskLoop_value, Addr.length_octets, ← Family.afBits_eq, hz]
      exact Nat.add_zero _
    rw [Bool.eq_iff_iff, diffLoop_iff n hlen, decide_eq_true_eq]
    refine not_congr ⟨fun heq => ?_, fun heq => ?_⟩
    · have hnum := congrArg bigEndian heq
      rw [hvalue _ hfamily.symm, hvalue _ rfl] at hnum
      exact Nat.eq_of_mul_eq_mul_right (Nat.two_pow_pos _) hnum
    · apply bigEndian_inj (by rw [length_maskLoop, length_maskLoop, hlen])
      rw [hvalue _ hfamily.symm, hvalue _ rfl, heq]
  obtain ⟨addr, scope, hscope, bits⟩ := a
  cases addr with
  | v6 v6 => exact congrArg some (hloop (bits % 256).toNat)
  | mac mac => exact congrArg some (hloop (bits % 256).toNat)
  | v4 v4 =>
    replace ha : bits ≤ 32 := ha
    obtain ⟨w, hw⟩ : ∃ w, b.addr = .v4 w := by
      cases h : b.addr with
      | v4 w => exact ⟨w, rfl⟩
      | v6 w => exact absurd hfamily (by simp [Cidr.family, h, Addr.family])
      | mac w => exact absurd hfamily (by simp [Cidr.family, h, Addr.family])
    have hword : Endian.big.getU32 b.addr.octets 0 = ntohl w := by
      rw [hw]
      rfl
    simp only [diffMasked, Cidr.routeHost, Cidr.host, hostBits, Cidr.family, Addr.family,
      Family.afBits, hword, true_and]
    by_cases hneg : bits < 0
    · rw [if_pos (Or.inl hneg), if_pos hneg]
    · have hk : 32 - bits.toNat ≤ 32 := Nat.sub_le 32 _
      have hpow := Nat.pow_le_pow_right (show 0 < 2 by decide) hk
      have hpos := Nat.two_pow_pos (32 - bits.toNat)
      have hmask : (if bits ≠ 0 then 0xFFFFFFFF - (1 <<< (32 - bits.toNat) - 1) else 0) =
          2 ^ 32 - 2 ^ (32 - bits.toNat) := by
        split_ifs with hzero
        · rw [Nat.one_shiftLeft]
          omega
        · obtain rfl : bits = 0 := by simpa using hzero
          rfl
      have hand : ∀ z : Octets 4, ntohl z &&& (2 ^ 32 - 2 ^ (32 - bits.toNat)) =
          (Addr.v4 z).value / 2 ^ (32 - bits.toNat) * 2 ^ (32 - bits.toNat) := fun z => by
        rw [ntohl_eq]
        exact and_high (Addr.v4 z).value_lt hk
      rw [if_neg (by omega), if_neg hneg, hmask, hand, hand, hw, if_pos trivial]
      congr 2
      rw [ne_eq, Nat.mul_left_inj hpos.ne']

theorem host_le_host_iff (hfamily : a.family = b.family) (ha : a.bits ≤ a.family.afBits)
    (hb : b.bits ≤ b.family.afBits) : b.host ≤ a.host ↔ a.bits.toNat ≤ b.bits.toNat := by
  rw [hfamily] at ha
  rw [Cidr.host, Cidr.host, hostBits, hostBits, hfamily]
  omega

theorem cidrContains_self (a : Cidr) : cidrContains a a = true :=
  cidrContains_iff.mpr ⟨rfl, le_rfl, rfl⟩

theorem cidrContains_trans (h₁ : cidrContains a b = true) (h₂ : cidrContains b c = true) :
    cidrContains a c = true := by
  obtain ⟨hab, hle₁, hvalue₁⟩ := cidrContains_iff.mp h₁
  obtain ⟨hbc, hle₂, hvalue₂⟩ := cidrContains_iff.mp h₂
  have hhost : b.host ≤ a.host := by
    rw [Cidr.host, Cidr.host, hostBits, hostBits, hab]
    omega
  exact cidrContains_iff.mpr
    ⟨hab.trans hbc, hle₁.trans hle₂, (div_two_pow_congr hhost hvalue₂).trans hvalue₁⟩

theorem cidrContains_antisymm (h₁ : cidrContains a b = true) (h₂ : cidrContains b a = true) :
    a.bits = b.bits ∧ (cidrNetwork a a.bits).addr = (cidrNetwork b b.bits).addr := by
  obtain ⟨hfamily, hle₁, hvalue⟩ := cidrContains_iff.mp h₁
  have hbits : a.bits = b.bits := le_antisymm hle₁ (cidrContains_iff.mp h₂).2.1
  have hhost : a.host = b.host := by rw [Cidr.host, Cidr.host, hfamily, hbits]
  refine ⟨hbits, Addr.eq_of_value ?_ ?_⟩
  · exact (family_applyMask ..).trans (hfamily.trans (family_applyMask ..).symm)
  · rw [network_value, network_value, ← hvalue, hhost]

theorem diffPrefix_eq (ha : a.bits ≤ a.family.afBits) (b : Cidr) :
    diffPrefix b.family (some b.addr.octets) b.bits false (some a) =
      if a.family = b.family ∧ a.bits ≤ b.bits then
        if a.family = .inet ∧ a.bits < 0 then none
        else some (decide (b.addr.value / 2 ^ a.routeHost ≠ a.addr.value / 2 ^ a.routeHost))
      else some true := by
  simp only [diffPrefix]
  by_cases h : a.family = b.family ∧ a.bits ≤ b.bits
  · rw [if_neg (by rw [not_or, not_not, not_lt]; exact h), if_pos h, diffMasked_eq ha h.1]
    split_ifs <;> simp
  · rw [if_pos (by rwa [← not_le, ← not_and_or]), if_neg h]

/-- `contains` is inclusion of the networks, an order, and what the route filter tests, as long
as prefix lengths are not negative. Those that `parse_mask` lets through may be, and then the
filter compares as many bits as the length has in its byte. -/
theorem contains_covers_iff (a b : Cidr) (ha : a.bits ≤ a.family.afBits)
    (hb : b.bits ≤ b.family.afBits) :
    ((cidrContains a b = true ↔ a.family = b.family ∧ ∀ x, b.Covers x → a.Covers x) ∧
      cidrContains a a = true ∧
      (∀ c, cidrContains a b = true → cidrContains b c = true → cidrContains a c = true) ∧
      (cidrContains a b = true → cidrContains b a = true →
        a.bits = b.bits ∧ (cidrNetwork a a.bits).addr = (cidrNetwork b b.bits).addr) ∧
      diffPrefix b.family (some b.addr.octets) b.bits false (some a) =
        some (!cidrContains a b)) ↔
    (a.family = b.family → 0 < a.bits ∨ (a.bits = 0 ∧ 0 ≤ b.bits) ∨
      (a.bits < 0 ∧ a.bits ≤ b.bits ∧ a.family ≠ .inet ∧
        b.addr.value / 2 ^ a.routeHost = a.addr.value / 2 ^ a.routeHost)) := by
  have hfull : a.bits ≤ 0 → a.host = a.family.afBits := fun h => by
    rw [Cidr.host, hostBits, Int.toNat_of_nonpos h, Nat.sub_zero]
  -- without a prefix all addresses of the family are in the network
  have hall : a.family = b.family → a.bits ≤ 0 →
      b.addr.value / 2 ^ a.host = a.addr.value / 2 ^ a.host := by
    intro hfamily h
    have hblt := b.addr.value_lt
    rw [show b.addr.family = a.family from hfamily.symm] at hblt
    rw [hfull h, Nat.div_eq_of_lt hblt, Nat.div_eq_of_lt a.addr.value_lt]
  have hroute : 0 ≤ a.bits → a.routeHost = a.host := by
    intro h
    have hbits : a.family.afBits ≤ 128 := by cases a.family <;> decide
    rw [Cidr.routeHost, Cidr.host, hostBits, Int.emod_eq_of_lt h (by omega), ite_self]
  rw [covers_imp_iff, diffPrefix_eq ha b]
  constructor
  · rintro ⟨hincl, -, -, -, hdiff⟩ hfamily
    by_contra hcond
    have hle : a.bits ≤ 0 := by
      by_contra hpos
      exact hcond (Or.inl (not_le.mp hpos))
    have hcontains : cidrContains a b = true := by
      refine hincl.mpr ⟨hfamily, hfamily, ?_, hall hfamily hle⟩
      rw [host_le_host_iff hfamily ha hb, Int.toNat_of_nonpos hle]
      exact Nat.zero_le _
    obtain ⟨-, hbits, -⟩ := cidrContains_iff.mp hcontains
    rw [if_pos ⟨hfamily, hbits⟩, hcontains] at hdiff
    split_ifs at hdiff with hinet
    have hvalue : b.addr.value / 2 ^ a.routeHost = a.addr.value / 2 ^ a.routeHost := by
      simpa using hdiff
    rcases hle.lt_or_eq with hneg | hzero
    · exact hcond (Or.inr (Or.inr ⟨hneg, hbits, fun h => hinet ⟨h, hneg⟩, hvalue⟩))
    · exact hcond (Or.inr (Or.inl ⟨hzero, hzero ▸ hbits⟩))
  · intro hcond
    refine ⟨⟨fun h => ?_, fun h => ?_⟩, cidrContains_self a,
      fun c => cidrContains_trans, cidrContains_antisymm, ?_⟩
    · obtain ⟨hfamily, hbits, hvalue⟩ := cidrContains_iff.mp h
      exact ⟨hfamily, hfamily, (host_le_host_iff hfamily ha hb).mpr (by omega), hvalue⟩
    · obtain ⟨hfamily, -, hhost, hvalue⟩ := h
      have hbits : a.bits ≤ b.bits := by
        rw [host_le_host_iff hfamily ha hb] at hhost
        rcases hcond hfamily with h | h | h <;> omega
      exact cidrContains_iff.mpr ⟨hfamily, hbits, hvalue⟩
    · split_ifs with h hinet
      · exact absurd (hcond h.1) (by have := hinet.2; simp [hinet.1]; omega)
      · -- both tests compare the same bits, or no bits
        congr 1
        rw [Bool.eq_iff_iff, Bool.not_eq_true', ← Bool.not_eq_true, cidrContains_iff,
          decide_eq_true_eq]
        rcases le_or_gt 0 a.bits with hnonneg | hneg
        · rw [hroute hnonneg]
          exact not_congr ⟨fun heq => ⟨h.1, h.2, heq⟩, fun heq => heq.2.2⟩
        · obtain ⟨-, -, -, hsame⟩ : a.bits < 0 ∧ _ := by
            rcases hcond h.1 with hpos | hzero | hrest
            · omega
            · omega
            · exact hrest
          exact iff_of_false (not_not.mpr hsame)
            (not_not.mpr ⟨h.1, h.2, hall h.1 hneg.le⟩)
      · have hnot : cidrContains a b = false := by
          rw [← Bool.not_eq_true, cidrContains_iff]
          exact fun h' => h ⟨h'.1, h'.2.1⟩
        rw [hnot]
        rfl

theorem contains_covers_lan :
    (cidrContains (quadCidr 10 24 0 0 16) (quadCidr 10 24 5 1 32) = true ↔
      ∀ x, (quadCidr 10 24 5 1 32).Covers x → (quadCidr 10 24 0 0 16).Covers x) ∧
    diffPrefix .inet (some [10, 24, 5, 1]) 32 false (some (quadCidr 10 24 0 0 16)) =
      some (!cidrContains (quadCidr 10 24 0 0 16) (quadCidr 10 24 5 1 32)) := by
  obtain ⟨hincl, -, -, -, hdiff⟩ := (contains_covers_iff (quadCidr 10 24 0 0 16)
    (quadCidr 10 24 5 1 32) (by decide) (by decide)).mpr fun _ => Or.inl (by decide)
  exact ⟨hincl.trans ⟨fun h => h.2, fun h => ⟨rfl, h⟩⟩, hdiff⟩

/-- `0.0.0.0/65535` is read as all of IPv4 with the prefix length -1, and then `0.0.0.0/0` does
not contain it. -/
theorem not_contains_covers :
    parseMask stack .inet (ascii "65535") = some (quadCidr 0 0 0 0 (-1)).bits ∧
      ¬(cidrContains (quadCidr 0 0 0 0 0) (quadCidr 0 0 0 0 (-1)) = true ↔
        (quadCidr 0 0 0 0 0).family = (quadCidr 0 0 0 0 (-1)).family ∧
          ∀ x, (quadCidr 0 0 0 0 (-1)).Covers x → (quadCidr 0 0 0 0 0).Covers x) := by
  refine ⟨by decide +kernel, fun h => ?_⟩
  have hcontains := h.mpr ⟨rfl, fun x hx => hx⟩
  exact absurd hcontains (by decide)

end Inclusion

end NeonWrt.Luci
