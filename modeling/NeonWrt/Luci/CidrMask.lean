import NeonWrt.Lib.BigEndian
import NeonWrt.Luci.Cidr

/-!
# Addresses of luci.ip as numbers

An address is a number in network order, of a width that depends on the family.
`_apply_mask` works on the word of an IPv4 address and on the bytes of the other
addresses; on the number it is a division in both cases.
-/

namespace NeonWrt.Luci

open Lib

/-- `AF_BYTES` -/
def Family.afBytes : Family → ℕ
  | .inet => 4
  | .inet6 => 16
  | .packet => 6

theorem Family.afBits_eq (f : Family) : f.afBits = 8 * f.afBytes := by cases f <;> rfl

/-- The member `u8` of the union. -/
def Addr.octets : Addr → Bytes
  | .v4 a => a.1
  | .v6 a => a.1
  | .mac a => a.1

/-- The address as a number. -/
def Addr.value (a : Addr) : ℕ := bigEndian a.octets

/-- A loop over `u8`. -/
def Addr.mapOctets (f : Bytes → Bytes) (hf : ∀ b, (f b).length = b.length) : Addr → Addr
  | .v4 a => .v4 ⟨f a.1, (hf a.1).trans a.2⟩
  | .v6 a => .v6 ⟨f a.1, (hf a.1).trans a.2⟩
  | .mac a => .mac ⟨f a.1, (hf a.1).trans a.2⟩

/-- `memset` of the whole address. -/
def Addr.fill (c : UInt8) : Addr → Addr :=
  Addr.mapOctets (fun b => List.replicate b.length c) fun _ => List.length_replicate

/-- `ntohl` -/
def ntohl (a : Octets 4) : ℕ := Endian.big.getU32 a.1 0

/-- `htonl` -/
def htonl (n : ℕ) : Octets 4 := ⟨Endian.big.u32 n, Endian.length_u32 ..⟩

section Addresses

variable {a b : Addr} {f : Bytes → Bytes} {hf : ∀ b, (f b).length = b.length}

@[simp] theorem Addr.length_octets (a : Addr) : a.octets.length = a.family.afBytes := by
  cases a with
  | v4 a => exact a.2
  | v6 a => exact a.2
  | mac a => exact a.2

theorem Addr.value_lt (a : Addr) : a.value < 2 ^ a.family.afBits := by
  have hlt := bigEndian_lt a.octets
  rwa [Addr.length_octets, show (256 : ℕ) = 2 ^ 8 from rfl, ← pow_mul, ← Family.afBits_eq] at hlt

/-- An address is its family and its number. -/
theorem Addr.eq_of_value (hfamily : a.family = b.family) (h : a.value = b.value) : a = b := by
  have hoctets : a.octets = b.octets :=
    bigEndian_inj (by rw [Addr.length_octets, Addr.length_octets, hfamily]) h
  cases a <;> cases b <;> first
    | exact congrArg Addr.v4 (Subtype.ext hoctets)
    | exact congrArg Addr.v6 (Subtype.ext hoctets)
    | exact congrArg Addr.mac (Subtype.ext hoctets)
    | cases hfamily

@[simp] theorem Addr.family_mapOctets : (a.mapOctets f hf).family = a.family := by
  cases a <;> rfl

@[simp] theorem Addr.octets_mapOctets : (a.mapOctets f hf).octets = f a.octets := by
  cases a <;> rfl

@[simp] theorem Addr.family_fill (c : UInt8) : (a.fill c).family = a.family :=
  Addr.family_mapOctets

theorem Addr.value_fill_zero : (a.fill 0).value = 0 := by
  rw [Addr.value, Addr.fill, Addr.octets_mapOctets]
  exact bigEndian_replicate_zero _

theorem Addr.value_fill_max : (a.fill 255).value = 2 ^ a.family.afBits - 1 := by
  rw [Addr.value, Addr.fill, Addr.octets_mapOctets, bigEndian_replicate_max, Addr.length_octets,
    show (256 : ℕ) = 2 ^ 8 from rfl, ← pow_mul, ← Family.afBits_eq]

theorem ntohl_eq (a : Octets 4) : ntohl a = (Addr.v4 a).value := (bigEndian_eq_getU32 a.2).symm

theorem value_htonl (n : ℕ) : (Addr.v4 (htonl n)).value = n % 2 ^ 32 := bigEndian_u32 n

end Addresses

/-- The loop of `_apply_mask`. -/
def maskLoop (inv : Bool) : ℕ → Bytes → Bytes
  | _, [] => []
  | bits, a :: u8 =>
    let b := if 8 < bits then 8 else bits
    let m := UInt8.ofNat (0xFF <<< (8 - b))
    (if inv then a ||| ~~~m else a &&& m) :: maskLoop inv (bits - b) u8

theorem length_maskLoop (inv : Bool) (bits : ℕ) (u8 : Bytes) :
    (maskLoop inv bits u8).length = u8.length := by
  fun_induction maskLoop inv bits u8 with
  | case1 => rfl
  | case2 bits a u8 b m ih => rw [List.length_cons, ih, List.length_cons]

/-- `_apply_mask` on the word of an IPv4 address. -/
def maskWord (inv : Bool) (bits : ℕ) (a : Octets 4) : Octets 4 :=
  let m := (1 <<< (32 - bits)) - 1
  htonl (if inv then ntohl a ||| m else ntohl a &&& (0xFFFFFFFF - m))

/-- `_apply_mask` -/
def applyMask (a : Addr) (bits : ℤ) (inv : Bool) : Addr :=
  if bits ≤ 0 then a.fill (if inv then 0xFF else 0)
  else if bits ≤ a.family.afBits then
    match a with
    | .v4 a => .v4 (maskWord inv bits.toNat a)
    | .v6 a => (Addr.v6 a).mapOctets (maskLoop inv bits.toNat) (length_maskLoop inv bits.toNat)
    | .mac a => (Addr.mac a).mapOctets (maskLoop inv bits.toNat) (length_maskLoop inv bits.toNat)
  else a

@[simp] theorem family_applyMask (a : Addr) (bits : ℤ) (inv : Bool) :
    (applyMask a bits inv).family = a.family := by
  unfold applyMask
  split
  · exact Addr.family_fill _
  · split
    · cases a <;> rfl
    · rfl

/-- How many bits of an address the prefix leaves free. -/
def hostBits (f : Family) (bits : ℤ) : ℕ := f.afBits - bits.toNat

section Masks

variable {a : Addr} {bits : ℤ}

theorem mask_toNat : ∀ k ≤ 8, (UInt8.ofNat (0xFF <<< k)).toNat = 2 ^ 8 - 2 ^ k ∧
    (~~~UInt8.ofNat (0xFF <<< k)).toNat = 2 ^ k - 1 := by
  decide

theorem mask_byte (inv : Bool) (x : UInt8) {k : ℕ} (hk : k ≤ 8) :
    (if inv then x ||| ~~~UInt8.ofNat (0xFF <<< k) else x &&& UInt8.ofNat (0xFF <<< k)).toNat =
      x.toNat / 2 ^ k * 2 ^ k + if inv then 2 ^ k - 1 else 0 := by
  obtain ⟨hkeep, hset⟩ := mask_toNat k hk
  cases inv with
  | false =>
    rw [if_neg (by decide), if_neg (by decide), UInt8.toNat_and, hkeep]
    exact and_high x.toNat_lt hk
  | true =>
    rw [if_pos rfl, if_pos rfl, UInt8.toNat_or, hset]
    exact or_low _ _

theorem maskLoop_value (inv : Bool) (bits : ℕ) (u8 : Bytes) :
    bigEndian (maskLoop inv bits u8) =
      bigEndian u8 / 2 ^ (8 * u8.length - bits) * 2 ^ (8 * u8.length - bits) +
        if inv then 2 ^ (8 * u8.length - bits) - 1 else 0 := by
  induction u8 generalizing bits with
  | nil => cases inv <;> simp [maskLoop]
  | cons x u8 ih =>
    have hbytes : (256 : ℕ) ^ u8.length = 2 ^ (8 * u8.length) := by
      rw [show (256 : ℕ) = 2 ^ 8 from rfl, ← pow_mul]
    have hlt := bigEndian_lt u8
    rw [hbytes] at hlt
    rw [maskLoop, bigEndian_cons, length_maskLoop, ih, bigEndian_cons, hbytes, List.length_cons]
    by_cases hbits : 8 ≤ bits
    · -- the whole byte stays
      have hb : (if 8 < bits then 8 else bits) = 8 := by split_ifs <;> omega
      rw [hb, mask_byte inv x (by decide), show 8 * (u8.length + 1) - bits
        = 8 * u8.length - (bits - 8) by omega, add_mul_div_mul (pow_dvd_pow 2 (by omega))]
      cases inv <;> simp [Nat.add_assoc]
    · -- the prefix ends in this byte
      have hb : (if 8 < bits then 8 else bits) = bits := if_neg (by omega)
      have hhost : 8 * (u8.length + 1) - bits = 8 * u8.length + (8 - bits) := by omega
      have hfirst : (x.toNat * 2 ^ (8 * u8.length) + bigEndian u8) / 2 ^ (8 * u8.length) = x.toNat := by
        rw [Nat.mul_comm, Nat.mul_add_div (Nat.two_pow_pos _), Nat.div_eq_of_lt hlt, Nat.add_zero]
      rw [hb, Nat.sub_self, Nat.sub_zero, mask_byte inv x (by omega), hhost, pow_add,
        ← Nat.div_div_eq_div_mul, hfirst, Nat.div_eq_of_lt hlt]
      have hpos := Nat.two_pow_pos (8 * u8.length)
      cases inv with
      | false => simp only [Bool.false_eq_true, if_false]; ring
      | true =>
        simp only [if_true]
        obtain ⟨m, hm⟩ := Nat.exists_eq_add_of_le' (Nat.two_pow_pos (8 * u8.length))
        obtain ⟨l, hl⟩ := Nat.exists_eq_add_of_le' (Nat.two_pow_pos (8 - bits))
        rw [hm, hl]
        have hprod : (m + 1) * (l + 1) - 1 = l * (m + 1) + m := by
          rw [show (m + 1) * (l + 1) = l * (m + 1) + m + 1 by ring, Nat.add_sub_cancel]
        rw [hprod, Nat.add_sub_cancel, Nat.add_sub_cancel]
        ring

theorem maskWord_value (inv : Bool) (bits : ℕ) (a : Octets 4) :
    (Addr.v4 (maskWord inv bits a)).value =
      (Addr.v4 a).value / 2 ^ (32 - bits) * 2 ^ (32 - bits) +
        if inv then 2 ^ (32 - bits) - 1 else 0 := by
  have hword : (Addr.v4 a).value < 2 ^ 32 := (Addr.v4 a).value_lt
  have hk : 32 - bits ≤ 32 := Nat.sub_le 32 _
  have hpow := Nat.pow_le_pow_right (show 0 < 2 by decide) hk
  have hpos := Nat.two_pow_pos (32 - bits)
  rw [maskWord, value_htonl, ntohl_eq, Nat.one_shiftLeft]
  cases inv with
  | false =>
    have hdiv := Nat.div_mul_le_self (Addr.v4 a).value (2 ^ (32 - bits))
    rw [if_neg (by decide), if_neg (by decide),
      show 0xFFFFFFFF - (2 ^ (32 - bits) - 1) = 2 ^ 32 - 2 ^ (32 - bits) by omega,
      and_high hword hk]
    exact Nat.mod_eq_of_lt (hdiv.trans_lt hword)
  | true =>
    rw [if_pos rfl, if_pos rfl, ← or_low]
    exact Nat.mod_eq_of_lt (Nat.or_lt_two_pow hword (by omega))

theorem applyMask_value (a : Addr) (bits : ℤ) (inv : Bool) :
    (applyMask a bits inv).value =
      a.value / 2 ^ hostBits a.family bits * 2 ^ hostBits a.family bits +
        if inv then 2 ^ hostBits a.family bits - 1 else 0 := by
  by_cases hle : bits ≤ 0
  · have hhost : hostBits a.family bits = a.family.afBits := by
      rw [hostBits, Int.toNat_of_nonpos hle, Nat.sub_zero]
    unfold applyMask
    rw [if_pos hle, hhost, Nat.div_eq_of_lt a.value_lt, Nat.zero_mul, Nat.zero_add]
    cases inv with
    | false => rw [if_neg (by decide), if_neg (by decide), Addr.value_fill_zero]
    | true => rw [if_pos rfl, if_pos rfl, Addr.value_fill_max]
  · by_cases hfit : bits ≤ a.family.afBits
    · have hloop : bigEndian (maskLoop inv bits.toNat a.octets) =
          a.value / 2 ^ hostBits a.family bits * 2 ^ hostBits a.family bits +
            if inv then 2 ^ hostBits a.family bits - 1 else 0 := by
        rw [maskLoop_value, Addr.length_octets, ← Family.afBits_eq]
        rfl
      unfold applyMask
      rw [if_neg hle, if_pos hfit]
      cases a with
      | v4 a => exact maskWord_value inv bits.toNat a
      | v6 a => exact hloop
      | mac a => exact hloop
    · have hhost : hostBits a.family bits = 0 := by
        unfold hostBits
        omega
      unfold applyMask
      rw [if_neg hle, if_neg hfit, hhost]
      cases inv <;> simp

end Masks

end NeonWrt.Luci
