import NeonWrt.Lib.Number

/-!
# Addresses and netmasks in shell

The functions of `ipv4.sh`. They take texts and leave texts in variables; in between
they compute with the shell's numbers of 64 bits. A function that returns an error
gives nothing.
-/

namespace NeonWrt.BaseFiles

open Lib

/-- A number of the shell's arithmetic. -/
abbrev Num := BitVec 64

/-- What `$((...))` leaves of a number. -/
def numText (n : Num) : Bytes := fmtInt n.toInt

/-- `uint_max` -/
def uintMax : Num := 4294967295

/-- `assert_uint32`: the number of a text it accepts. Arithmetic takes a text that begins with a
zero as octal, but what it gives does not begin with one, so that only the decimal text of a number
is equal to the text of its value. -/
def assertUint32 (n : Bytes) : Option Num :=
  if n = [] ∨ n.any (fun c => !isdigit c) then none
  else if uintMax.toNat < numeral 10 n then none
  else if dec (numeral 10 n) ≠ n then none
  else some (BitVec.ofNat 64 (numeral 10 n))

/-- `bitcount` -/
def bitcount (c : Bytes) : Option Bytes :=
  (assertUint32 c).map fun (c : Num) =>
    let c := ((c >>> 1) &&& 0x55555555) + (c &&& 0x55555555)
    let c := ((c >>> 2) &&& 0x33333333) + (c &&& 0x33333333)
    let c := ((c >>> 4) &&& 0x0f0f0f0f) + (c &&& 0x0f0f0f0f)
    let c := ((c >>> 8) &&& 0x00ff00ff) + (c &&& 0x00ff00ff)
    let c := ((c >>> 16) &&& 0x0000ffff) + (c &&& 0x0000ffff)
    numText c

/-- A text begins with a character of each class. -/
def classes : List (UInt8 × UInt8) → Bytes → Bool
  | [], _ => true
  | _ :: _, [] => false
  | (lo, hi) :: cs, c :: s => decide (lo ≤ c) && decide (c ≤ hi) && classes cs s

/-- `[0-9]` -/
def d09 : UInt8 × UInt8 := (48, 57)

/-- `[1-9]` -/
def d19 : UInt8 × UInt8 := (49, 57)

/-- A character as a class. -/
def only (c : UInt8) : UInt8 × UInt8 := (c, c)

/-- `1[0-9][0-9]|2[0-4][0-9]|25[0-5]`, before some other classes. -/
def threeDigits (after : List (UInt8 × UInt8)) (s : Bytes) : Bool :=
  classes (only 49 :: d09 :: d09 :: after) s ||
    classes (only 50 :: (48, 52) :: d09 :: after) s ||
    classes (only 50 :: only 53 :: (48, 53) :: after) s

/-- One of the first three `case` commands of `str2ip`: the number, and the text behind the dot. -/
def leadOctet (ip : Bytes) : Option (Num × Bytes) :=
  if classes [d09, only 46] ip then some (BitVec.ofNat 64 (numeral 10 (ip.take 1)), ip.drop 2)
  else if classes [d19, d09, only 46] ip then
    some (BitVec.ofNat 64 (numeral 10 (ip.take 2)), ip.drop 3)
  else if threeDigits [only 46] ip then
    some (BitVec.ofNat 64 (numeral 10 (ip.take 3)), ip.drop 4)
  else none

/-- The last `case` command of `str2ip`, whose patterns are for the whole text. -/
def lastOctet (ip : Bytes) : Option (Num × Bytes) :=
  if classes [d09] ip && ip.length == 1 then
    some (BitVec.ofNat 64 (numeral 10 (ip.take 1)), ip.drop 1)
  else if classes [d19, d09] ip && ip.length == 2 then
    some (BitVec.ofNat 64 (numeral 10 (ip.take 2)), ip.drop 2)
  else if threeDigits [] ip && ip.length == 3 then
    some (BitVec.ofNat 64 (numeral 10 (ip.take 3)), ip.drop 3)
  else none

/-- `str2ip` -/
def str2ip (ip : Bytes) : Option Bytes := do
  let (n, ip) ← leadOctet ip
  let val := n <<< 24
  let (n, ip) ← leadOctet ip
  let val := val + n <<< 16
  let (n, ip) ← leadOctet ip
  let val := val + n <<< 8
  let (n, ip) ← lastOctet ip
  let val := val + n
  if ip ≠ [] then none else some (numText val)

/-- Four texts with dots between them. -/
def quad (a b c d : Bytes) : Bytes := a ++ 46 :: (b ++ 46 :: (c ++ 46 :: d))

/-- `ip2str` -/
def ip2str (n : Bytes) : Option Bytes :=
  (assertUint32 n).map fun (n : Num) =>
    quad (numText (n >>> 24)) (numText (n >>> 16 &&& 255)) (numText (n >>> 8 &&& 255))
      (numText (n &&& 255))

/-- `prefix2netmask` -/
def prefix2netmask (n : Bytes) : Option Bytes :=
  (assertUint32 n).bind fun n =>
    if 32 < n.toInt then none else some (numText (~~~(uintMax >>> n) &&& uintMax))

/-- `is_contiguous` -/
def isContiguous (x : Bytes) : Option Bool :=
  (assertUint32 x).map fun x =>
    let y := ~~~x &&& uintMax
    let z := (y + 1) &&& uintMax
    z &&& y == 0

/-- `netmask2prefix` -/
def netmask2prefix (n : Bytes) : Option Bytes :=
  (assertUint32 n).bind fun _ =>
    (isContiguous n).bind fun cont => if cont then bitcount n else none

theorem toInt_ofNat {m : ℕ} (h : m < 2 ^ 63) : (BitVec.ofNat 64 m).toInt = m := by
  rw [BitVec.toInt_ofNat']
  exact Int.bmod_eq_of_le_mul_two (by omega) (by omega)

theorem numText_ofNat {m : ℕ} (h : m < 2 ^ 63) : numText (BitVec.ofNat 64 m) = dec m := by
  rw [numText, toInt_ofNat h, fmtInt, if_neg (by omega), Int.natAbs_natCast]

theorem numText_of_toNat {n : Num} {m : ℕ} (hn : n.toNat = m) (h : m < 2 ^ 63) :
    numText n = dec m := by
  rw [← numText_ofNat h, ← hn, BitVec.ofNat_toNat, BitVec.setWidth_eq]

/-- Exactly the decimal texts of 32-bit numbers are accepted. -/
theorem assertUint32_eq_some_iff {t : Bytes} {n : Num} :
    assertUint32 t = some n ↔ ∃ m < 2 ^ 32, t = dec m ∧ n = BitVec.ofNat 64 m := by
  have hmax : uintMax.toNat = 2 ^ 32 - 1 := rfl
  rw [assertUint32]
  constructor
  · intro h
    split_ifs at h with hdigits hbig hnorm
    exact ⟨numeral 10 t, by omega, (not_not.mp hnorm).symm, (Option.some.inj h).symm⟩
  · rintro ⟨m, hm, rfl, rfl⟩
    have hdigits : ¬ (dec m = [] ∨ (dec m).any (fun c => !isdigit c) = true) := by
      rintro (hnil | hany)
      · exact dec_ne_nil m hnil
      · obtain ⟨c, hc, hnot⟩ := List.any_eq_true.mp hany
        rw [isdigit_of_mem_dec hc] at hnot
        cases hnot
    rw [if_neg hdigits, numeral_dec, if_neg (by omega), if_neg (not_not_intro rfl)]

theorem assertUint32_dec {m : ℕ} (h : m < 2 ^ 32) :
    assertUint32 (dec m) = some (BitVec.ofNat 64 m) :=
  assertUint32_eq_some_iff.mpr ⟨m, h, rfl, rfl⟩

/-- The number of the netmask of a prefix. -/
def mask (p : ℕ) : ℕ := 2 ^ 32 - 2 ^ (32 - p)

theorem mask_lt (p : ℕ) : mask p < 2 ^ 32 := by
  have hpos : 0 < 2 ^ (32 - p) := Nat.two_pow_pos _
  unfold mask
  omega

theorem toNat_netmask : ∀ p ≤ 32, (~~~(uintMax >>> BitVec.ofNat 64 p) &&& uintMax).toNat = mask p := by
  decide +kernel

theorem prefix2netmask_dec {p : ℕ} (hp : p ≤ 32) : prefix2netmask (dec p) = some (dec (mask p)) := by
  have hsmall : ¬ 32 < (BitVec.ofNat 64 p).toInt := by
    rw [toInt_ofNat (by omega)]
    omega
  have hlt := mask_lt p
  rw [prefix2netmask, assertUint32_dec (by omega), Option.bind_some, if_neg hsmall,
    numText_of_toNat (toNat_netmask p hp) (by omega)]

theorem prefix2netmask_eq_some_iff {t m : Bytes} :
    prefix2netmask t = some m ↔ ∃ p ≤ 32, t = dec p ∧ m = dec (mask p) := by
  constructor
  · intro h
    obtain ⟨n, hassert, hmask⟩ := Option.bind_eq_some_iff.mp h
    obtain ⟨p, hp, rfl, rfl⟩ := assertUint32_eq_some_iff.mp hassert
    rw [toInt_ofNat (by omega)] at hmask
    split_ifs at hmask with hbig
    have hle : p ≤ 32 := by omega
    rw [prefix2netmask_dec hle] at h
    exact ⟨p, hle, rfl, (Option.some.inj h).symm⟩
  · rintro ⟨p, hp, rfl, rfl⟩
    exact prefix2netmask_dec hp

/-- A number of 32 bits has no bit in common with the next one exactly if that is a power of two,
or the first that has no place in 32 bits. -/
theorem and_succ_eq_zero_iff {y : ℕ} (hy : y < 2 ^ 32) :
    (y + 1) % 2 ^ 32 &&& y = 0 ↔ ∃ k ≤ 32, y + 1 = 2 ^ k := by
  rcases Nat.lt_or_eq_of_le (show y + 1 ≤ 2 ^ 32 by omega) with hlt | heq
  · rw [Nat.mod_eq_of_lt hlt]
    have hpow := Nat.and_sub_one_eq_zero_iff_isPowerOfTwo (Nat.succ_ne_zero y)
    rw [Nat.succ_sub_one] at hpow
    rw [hpow]
    constructor
    · rintro ⟨k, hk⟩
      refine ⟨k, ?_, hk⟩
      by_contra hbig
      have hle : 2 ^ 32 ≤ 2 ^ k := Nat.pow_le_pow_right (by decide) (by omega)
      omega
    · rintro ⟨k, -, hk⟩
      exact ⟨k, hk⟩
  · rw [heq, Nat.mod_self, Nat.zero_and]
    exact iff_of_true rfl ⟨32, Nat.le_refl 32, rfl⟩

theorem isContiguous_dec {m : ℕ} (hm : m < 2 ^ 32) :
    isContiguous (dec m) = some true ↔ ∃ p ≤ 32, m = mask p := by
  have hmax : uintMax.toNat = 2 ^ 32 - 1 := rfl
  have hy : (~~~(BitVec.ofNat 64 m) &&& uintMax).toNat = 2 ^ 32 - 1 - m := by
    rw [BitVec.toNat_and, BitVec.toNat_not, BitVec.toNat_ofNat, hmax,
      Nat.and_two_pow_sub_one_eq_mod]
    omega
  have hz : ((~~~(BitVec.ofNat 64 m) &&& uintMax) + 1 &&& uintMax).toNat =
      (2 ^ 32 - 1 - m + 1) % 2 ^ 32 := by
    rw [BitVec.toNat_and, BitVec.toNat_add, hy, hmax, Nat.and_two_pow_sub_one_eq_mod,
      Nat.mod_eq_of_lt (show 2 ^ 32 - 1 - m + (1 : BitVec 64).toNat < 2 ^ 64 by
        change 2 ^ 32 - 1 - m + 1 < 2 ^ 64
        omega)]
    rfl
  rw [isContiguous, assertUint32_dec hm, Option.map_some, Option.some.injEq, beq_iff_eq,
    ← BitVec.toNat_inj, BitVec.toNat_and, hz, hy]
  refine (and_succ_eq_zero_iff (by omega)).trans ⟨?_, ?_⟩
  · rintro ⟨k, hk, hpow⟩
    refine ⟨32 - k, Nat.sub_le _ _, ?_⟩
    rw [mask, Nat.sub_sub_self hk]
    omega
  · rintro ⟨p, -, rfl⟩
    refine ⟨32 - p, Nat.sub_le _ _, ?_⟩
    have hle : 2 ^ (32 - p) ≤ 2 ^ 32 := Nat.pow_le_pow_right (by decide) (Nat.sub_le _ _)
    have hpos : 0 < 2 ^ (32 - p) := Nat.two_pow_pos _
    unfold mask
    omega

theorem bitcount_mask : ∀ p ≤ 32, bitcount (dec (mask p)) = some (dec p) := by
  decide +kernel

/-- A netmask is converted exactly if it is the one of a prefix, and to that prefix. -/
theorem netmask2prefix_dec_iff {m : ℕ} (hm : m < 2 ^ 32) {t : Bytes} :
    netmask2prefix (dec m) = some t ↔ ∃ p ≤ 32, m = mask p ∧ t = dec p := by
  rw [ netmask2prefix, assertUint32_dec hm, Option.bind_some]
  constructor
  · intro h
    obtain ⟨cont, hcont, hbits⟩ := Option.bind_eq_some_iff.mp h
    cases cont with
    | false => cases hbits
    | true =>
      obtain ⟨p, hp, rfl⟩ := (isContiguous_dec hm).mp hcont
      rw [if_pos rfl, bitcount_mask p hp] at hbits
      exact ⟨p, hp, rfl, (Option.some.inj hbits).symm⟩
  · rintro ⟨p, hp, rfl, rfl⟩
    rw [(isContiguous_dec hm).mpr ⟨p, hp, rfl⟩, Option.bind_some, if_pos rfl, bitcount_mask p hp]

/-- A text long enough begins as it does with more behind it. -/
theorem classes_append (cs : List (UInt8 × UInt8)) {s rest : Bytes} (h : cs.length ≤ s.length) :
    classes cs (s ++ rest) = classes cs s := by
  induction cs generalizing s with
  | nil => rfl
  | cons c cs ih =>
    cases s with
    | nil => simp at h
    | cons x s => rw [List.cons_append, classes, classes, ih (Nat.le_of_succ_le_succ h)]

theorem length_le_of_classes {cs : List (UInt8 × UInt8)} {s : Bytes} (h : classes cs s = true) :
    cs.length ≤ s.length := by
  induction cs generalizing s with
  | nil => exact Nat.zero_le _
  | cons c cs ih =>
    cases s with
    | nil => cases h
    | cons x s =>
      rw [classes, Bool.and_eq_true] at h
      exact Nat.succ_le_succ (ih h.2)

/-- A text begins with characters of some classes and a dot if it has a dot behind such a text. -/
theorem exists_of_classes_dot (cs : List (UInt8 × UInt8)) {s : Bytes}
    (h : classes (cs ++ [only 46]) s = true) : ∃ ds rest, ds.length = cs.length ∧
      classes cs ds = true ∧ s = ds ++ 46 :: rest := by
  induction cs generalizing s with
  | nil =>
    cases s with
    | nil => cases h
    | cons c s =>
      simp only [List.nil_append, classes, only, Bool.and_eq_true, decide_eq_true_eq] at h
      obtain rfl := UInt8.le_antisymm h.1.1 h.1.2
      exact ⟨[], s, rfl, rfl, rfl⟩
  | cons c cs ih =>
    cases s with
    | nil => cases h
    | cons x s =>
      rw [List.cons_append, classes, Bool.and_eq_true] at h
      obtain ⟨ds, rest, hlen, hds, rfl⟩ := ih h.2
      refine ⟨x :: ds, rest, congrArg (· + 1) hlen, ?_, rfl⟩
      rw [classes, Bool.and_eq_true]
      exact ⟨h.1, hds⟩

theorem exists_hexDigit {lo hi c : UInt8} (hlo : 48 ≤ lo) (hhi : hi ≤ 57)
    (h : (decide (lo ≤ c) && decide (c ≤ hi)) = true) :
    ∃ x, c = hexDigit 55 x ∧ lo.toNat - 48 ≤ x ∧ x ≤ hi.toNat - 48 := by
  rw [Bool.and_eq_true, decide_eq_true_eq, decide_eq_true_eq] at h
  obtain ⟨hlow, hhigh⟩ := h
  rw [UInt8.le_iff_toNat_le] at hlo hhi hlow hhigh
  change 48 ≤ lo.toNat at hlo
  change hi.toNat ≤ 57 at hhi
  refine ⟨c.toNat - 48, ?_, by omega, by omega⟩
  rw [hexDigit, if_pos (by omega), show 48 + (c.toNat - 48) = c.toNat by omega, UInt8.ofNat_toNat]

/-- Digits without a zero at the front are the text of their number. -/
theorem dec_two {x y : ℕ} (hx : x < 10) (hy : y < 10) (hpos : 0 < x) :
    dec (10 * x + y) = [hexDigit 55 x, hexDigit 55 y] := by
  rw [dec_of_le (by omega), show (10 * x + y) / 10 = x by omega,
    show (10 * x + y) % 10 = y by omega, dec_of_lt hx]
  rfl

theorem dec_three {x y z : ℕ} (hx : x < 10) (hy : y < 10) (hz : z < 10) (hpos : 0 < x) :
    dec (100 * x + 10 * y + z) = [hexDigit 55 x, hexDigit 55 y, hexDigit 55 z] := by
  rw [dec_of_le (by omega), show (100 * x + 10 * y + z) / 10 = 10 * x + y by omega,
    show (100 * x + 10 * y + z) % 10 = z by omega, dec_two hx hy hpos]
  rfl

/-- Three classes of digits match the texts of the numbers whose digits are in them. -/
theorem exists_three {l₁ h₁ l₂ h₂ l₃ h₃ : UInt8} (hlow : 49 ≤ l₁ ∧ 48 ≤ l₂ ∧ 48 ≤ l₃)
    (hhigh : h₁ ≤ 57 ∧ h₂ ≤ 57 ∧ h₃ ≤ 57) {ds : Bytes} (hlen : ds.length = 3)
    (h : classes [(l₁, h₁), (l₂, h₂), (l₃, h₃)] ds = true) : ∃ x y z, ds = dec (100 * x + 10 * y + z) ∧
      x ≤ h₁.toNat - 48 ∧ y ≤ h₂.toNat - 48 ∧ z ≤ h₃.toNat - 48 := by
  match ds, hlen with
  | [a, b, c], _ =>
    simp only [classes, Bool.and_true] at h
    obtain ⟨ha, hbc⟩ := Bool.and_eq_true_iff.mp h
    obtain ⟨hb, hc⟩ := Bool.and_eq_true_iff.mp hbc
    obtain ⟨x, rfl, hx, hx'⟩ := exists_hexDigit (UInt8.le_trans (by decide) hlow.1) hhigh.1 ha
    obtain ⟨y, rfl, hy, hy'⟩ := exists_hexDigit hlow.2.1 hhigh.2.1 hb
    obtain ⟨z, rfl, hz, hz'⟩ := exists_hexDigit hlow.2.2 hhigh.2.2 hc
    simp only [UInt8.le_iff_toNat_le, UInt8.reduceToNat] at hlow hhigh
    exact ⟨x, y, z, (dec_three (by omega) (by omega) (by omega) (by omega)).symm, hx', hy', hz'⟩

theorem octet_of_one {ds : Bytes} (hlen : ds.length = 1) (h : classes [d09] ds = true) :
    ∃ a < 256, ds = dec a := by
  match ds, hlen with
  | [c], _ =>
    simp only [classes, d09, Bool.and_true] at h
    obtain ⟨x, rfl, -, hx⟩ := exists_hexDigit (by decide) (by decide) h
    change x ≤ 9 at hx
    exact ⟨x, by omega, (dec_of_lt (by omega)).symm⟩

theorem octet_of_two {ds : Bytes} (hlen : ds.length = 2) (h : classes [d19, d09] ds = true) :
    ∃ a < 256, ds = dec a := by
  match ds, hlen with
  | [b, c], _ =>
    simp only [classes, d19, d09, Bool.and_true] at h
    rw [Bool.and_eq_true] at h
    obtain ⟨x, rfl, hpos, hx⟩ := exists_hexDigit (by decide) (by decide) h.1
    obtain ⟨y, rfl, -, hy⟩ := exists_hexDigit (by decide) (by decide) h.2
    change 1 ≤ x at hpos
    change x ≤ 9 at hx
    change y ≤ 9 at hy
    exact ⟨10 * x + y, by omega, (dec_two (by omega) (by omega) hpos).symm⟩

theorem octet_of_three {ds : Bytes} (hlen : ds.length = 3) (h : threeDigits [] ds = true) :
    ∃ a < 256, ds = dec a := by
  rw [threeDigits, Bool.or_eq_true, Bool.or_eq_true] at h
  rcases h with (h | h) | h
  · obtain ⟨x, y, z, rfl, hx, hy, hz⟩ := exists_three (by decide) (by decide) hlen h
    change x ≤ 1 at hx
    change y ≤ 9 at hy
    change z ≤ 9 at hz
    exact ⟨_, by omega, rfl⟩
  · obtain ⟨x, y, z, rfl, hx, hy, hz⟩ := exists_three (by decide) (by decide) hlen h
    change x ≤ 2 at hx
    change y ≤ 4 at hy
    change z ≤ 9 at hz
    exact ⟨_, by omega, rfl⟩
  · obtain ⟨x, y, z, rfl, hx, hy, hz⟩ := exists_three (by decide) (by decide) hlen h
    change x ≤ 2 at hx
    change y ≤ 5 at hy
    change z ≤ 5 at hz
    exact ⟨_, by omega, rfl⟩

theorem exists_of_threeDigits_dot {s : Bytes} (h : threeDigits [only 46] s = true) :
    ∃ ds rest, ds.length = 3 ∧ threeDigits [] ds = true ∧ s = ds ++ 46 :: rest := by
  rw [threeDigits, Bool.or_eq_true, Bool.or_eq_true] at h
  rcases h with (h | h) | h
  · obtain ⟨ds, rest, hlen, hds, rfl⟩ := exists_of_classes_dot [only 49, d09, d09] h
    exact ⟨ds, rest, hlen, by rw [threeDigits, hds]; rfl, rfl⟩
  · obtain ⟨ds, rest, hlen, hds, rfl⟩ := exists_of_classes_dot [only 50, (48, 52), d09] h
    exact ⟨ds, rest, hlen, by rw [threeDigits, hds, Bool.or_true]; rfl, rfl⟩
  · obtain ⟨ds, rest, hlen, hds, rfl⟩ :=
      exists_of_classes_dot [only 50, only 53, (48, 53)] h
    exact ⟨ds, rest, hlen, by rw [threeDigits, hds, Bool.or_true], rfl⟩

theorem leadOctet_eq_some {s t : Bytes} {n : Num} (h : leadOctet s = some (n, t)) :
    ∃ a < 256, s = dec a ++ 46 :: t ∧ n = BitVec.ofNat 64 a := by
  -- all three branches cut off the digits and the dot
  have hcut : ∀ {ds rest : Bytes} {k : ℕ}, ds.length = k → (∃ a < 256, ds = dec a) →
      (BitVec.ofNat 64 (numeral 10 ((ds ++ 46 :: rest).take k)),
        (ds ++ 46 :: rest).drop (k + 1)) = (n, t) →
      ∃ a < 256, ds ++ 46 :: rest = dec a ++ 46 :: t ∧ n = BitVec.ofNat 64 a := by
    rintro ds rest k rfl ⟨a, ha, rfl⟩ heq
    rw [List.take_left, numeral_dec, List.drop_append, List.drop_eq_nil_of_le (by omega)] at heq
    obtain ⟨rfl, rfl⟩ := Prod.mk.inj heq
    refine ⟨a, ha, ?_, rfl⟩
    rw [List.nil_append, Nat.add_sub_cancel_left]
    rfl
  rw [leadOctet] at h
  split_ifs at h with hone htwo hthree
  · obtain ⟨ds, rest, hlen, hds, rfl⟩ := exists_of_classes_dot [d09] hone
    exact hcut hlen (octet_of_one hlen hds) (Option.some.inj h)
  · obtain ⟨ds, rest, hlen, hds, rfl⟩ := exists_of_classes_dot [d19, d09] htwo
    exact hcut hlen (octet_of_two hlen hds) (Option.some.inj h)
  · obtain ⟨ds, rest, hlen, hds, rfl⟩ := exists_of_threeDigits_dot hthree
    exact hcut hlen (octet_of_three hlen hds) (Option.some.inj h)

theorem threeDigits_append (after : List (UInt8 × UInt8)) {s rest : Bytes}
    (h : after.length + 3 ≤ s.length) : threeDigits after (s ++ rest) = threeDigits after s := by
  rw [threeDigits, threeDigits, classes_append (_ :: _ :: _ :: after) h,
    classes_append (_ :: _ :: _ :: after) h, classes_append (_ :: _ :: _ :: after) h]

theorem length_of_threeDigits {after : List (UInt8 × UInt8)} {s : Bytes}
    (h : threeDigits after s = true) : after.length + 3 ≤ s.length := by
  rw [threeDigits, Bool.or_eq_true, Bool.or_eq_true] at h
  rcases h with (h | h) | h
  · exact length_le_of_classes h
  · exact length_le_of_classes h
  · exact length_le_of_classes h

/-- More behind a text does not change what is read from its front. -/
theorem leadOctet_append {s t rest : Bytes} {n : Num} (h : leadOctet s = some (n, t)) :
    leadOctet (s ++ rest) = some (n, t ++ rest) := by
  have hcut : ∀ {k : ℕ}, k + 1 ≤ s.length →
      (BitVec.ofNat 64 (numeral 10 (s.take k)), s.drop (k + 1)) = (n, t) →
      (BitVec.ofNat 64 (numeral 10 ((s ++ rest).take k)), (s ++ rest).drop (k + 1)) =
        (n, t ++ rest) := by
    intro k hk heq
    obtain ⟨rfl, rfl⟩ := Prod.mk.inj heq
    rw [List.take_append_of_le_length (by omega), List.drop_append_of_le_length hk]
  rw [leadOctet] at h ⊢
  split_ifs at h with hone htwo hthree
  · have hlen := length_le_of_classes hone
    rw [classes_append _ hlen, if_pos hone]
    exact congrArg some (hcut hlen (Option.some.inj h))
  · have hlen : 3 ≤ s.length := length_le_of_classes htwo
    rw [classes_append [d09, only 46] (show 2 ≤ s.length by omega), if_neg hone,
      classes_append [d19, d09, only 46] hlen, if_pos htwo]
    exact congrArg some (hcut hlen (Option.some.inj h))
  · have hlen : 4 ≤ s.length := length_of_threeDigits hthree
    rw [classes_append [d09, only 46] (show 2 ≤ s.length by omega), if_neg hone,
      classes_append [d19, d09, only 46] (show 3 ≤ s.length by omega), if_neg htwo, threeDigits_append [only 46] hlen,
      if_pos hthree]
    exact congrArg some (hcut hlen (Option.some.inj h))

theorem leadOctet_dec_dot : ∀ a < 256, leadOctet (dec a ++ [46]) = some (BitVec.ofNat 64 a, []) := by
  decide +kernel

theorem leadOctet_dec {a : ℕ} (ha : a < 256) (rest : Bytes) :
    leadOctet (dec a ++ 46 :: rest) = some (BitVec.ofNat 64 a, rest) := by
  have happend := @leadOctet_append _ _ rest _ (leadOctet_dec_dot a ha)
  rwa [List.append_assoc] at happend

theorem lastOctet_dec : ∀ a < 256, lastOctet (dec a) = some (BitVec.ofNat 64 a, []) := by
  decide +kernel

theorem lastOctet_eq_some {s t : Bytes} {n : Num} (h : lastOctet s = some (n, t)) :
    ∃ a < 256, s = dec a ∧ n = BitVec.ofNat 64 a ∧ t = [] := by
  have hall : ∀ {k : ℕ}, s.length = k → (∃ a < 256, s = dec a) →
      (BitVec.ofNat 64 (numeral 10 (s.take k)), s.drop k) = (n, t) →
      ∃ a < 256, s = dec a ∧ n = BitVec.ofNat 64 a ∧ t = [] := by
    rintro k rfl ⟨a, ha, hs⟩ heq
    rw [List.take_length, List.drop_length] at heq
    obtain ⟨rfl, rfl⟩ := Prod.mk.inj heq
    refine ⟨a, ha, hs, ?_, rfl⟩
    rw [hs, numeral_dec]
  rw [lastOctet] at h
  split_ifs at h with hone htwo hthree
  · rw [Bool.and_eq_true, beq_iff_eq] at hone
    exact hall hone.2 (octet_of_one hone.2 hone.1) (Option.some.inj h)
  · rw [Bool.and_eq_true, beq_iff_eq] at htwo
    exact hall htwo.2 (octet_of_two htwo.2 htwo.1) (Option.some.inj h)
  · rw [Bool.and_eq_true, beq_iff_eq] at hthree
    exact hall hthree.2 (octet_of_three hthree.2 hthree.1) (Option.some.inj h)

/-- The number of four octets. -/
def quadNumber (a b c d : ℕ) : ℕ := a * 2 ^ 24 + b * 2 ^ 16 + c * 2 ^ 8 + d

/-- The text of four octets. -/
def quadText (a b c d : ℕ) : Bytes := quad (dec a) (dec b) (dec c) (dec d)

section

variable {a b c d : ℕ}

theorem quadNumber_lt (ha : a < 256) (hb : b < 256) (hc : c < 256) (hd : d < 256) :
    quadNumber a b c d < 2 ^ 32 := by
  unfold quadNumber
  omega

theorem toNat_quad (ha : a < 256) (hb : b < 256) (hc : c < 256) (hd : d < 256) :
    (BitVec.ofNat 64 a <<< 24 + BitVec.ofNat 64 b <<< 16 + BitVec.ofNat 64 c <<< 8 +
      BitVec.ofNat 64 d).toNat = quadNumber a b c d := by
  simp only [BitVec.toNat_add, BitVec.toNat_shiftLeft, BitVec.toNat_ofNat, Nat.shiftLeft_eq]
  unfold quadNumber
  omega

theorem str2ip_quadText (ha : a < 256) (hb : b < 256) (hc : c < 256) (hd : d < 256) :
    str2ip (quadText a b c d) = some (dec (quadNumber a b c d)) := by
  have hlt := quadNumber_lt ha hb hc hd
  simp only [str2ip, quadText, quad, leadOctet_dec ha, leadOctet_dec hb, leadOctet_dec hc,
    lastOctet_dec d hd, bind, Option.bind]
  rw [if_neg (not_not_intro rfl), numText_of_toNat (toNat_quad ha hb hc hd) (by omega)]

/-- Exactly the texts of four octets are accepted. -/
theorem str2ip_eq_some {s t : Bytes} (h : str2ip s = some t) :
    ∃ a < 256, ∃ b < 256, ∃ c < 256, ∃ d < 256, s = quadText a b c d := by
  obtain ⟨⟨n₁, s₁⟩, h₁, h⟩ := Option.bind_eq_some_iff.mp h
  obtain ⟨⟨n₂, s₂⟩, h₂, h⟩ := Option.bind_eq_some_iff.mp h
  obtain ⟨⟨n₃, s₃⟩, h₃, h⟩ := Option.bind_eq_some_iff.mp h
  obtain ⟨⟨n₄, s₄⟩, h₄, -⟩ := Option.bind_eq_some_iff.mp h
  obtain ⟨a, ha, rfl, -⟩ := leadOctet_eq_some h₁
  obtain ⟨b, hb, rfl, -⟩ := leadOctet_eq_some h₂
  obtain ⟨c, hc, rfl, -⟩ := leadOctet_eq_some h₃
  obtain ⟨d, hd, rfl, -⟩ := lastOctet_eq_some h₄
  exact ⟨a, ha, b, hb, c, hc, d, hd, rfl⟩

theorem ip2str_dec {n : ℕ} (hn : n < 2 ^ 32) :
    ip2str (dec n) = some (quadText (n / 2 ^ 24) (n / 2 ^ 16 % 256) (n / 2 ^ 8 % 256) (n % 256)) := by
  have hbyte : ∀ m : ℕ, m &&& 255 = m % 256 := fun m => Nat.and_two_pow_sub_one_eq_mod m 8
  have hmask : (255 : BitVec 64).toNat = 255 := rfl
  have hmod : n % 2 ^ 64 = n := Nat.mod_eq_of_lt (by omega)
  rw [ip2str, assertUint32_dec hn, Option.map_some, quadText]
  congr 2
  · apply numText_of_toNat _ (by omega)
    rw [BitVec.toNat_ushiftRight, BitVec.toNat_ofNat, hmod, Nat.shiftRight_eq_div_pow]
  · apply numText_of_toNat _ (by omega)
    rw [BitVec.toNat_and, BitVec.toNat_ushiftRight, BitVec.toNat_ofNat, hmod,
      Nat.shiftRight_eq_div_pow, hmask, hbyte]
  · apply numText_of_toNat _ (by omega)
    rw [BitVec.toNat_and, BitVec.toNat_ushiftRight, BitVec.toNat_ofNat, hmod,
      Nat.shiftRight_eq_div_pow, hmask, hbyte]
  · apply numText_of_toNat _ (by omega)
    rw [BitVec.toNat_and, BitVec.toNat_ofNat, hmod, hmask, hbyte]

theorem ip2str_quadNumber (ha : a < 256) (hb : b < 256) (hc : c < 256) (hd : d < 256) :
    ip2str (dec (quadNumber a b c d)) = some (quadText a b c d) := by
  have ha' : quadNumber a b c d / 2 ^ 24 = a := by
    unfold quadNumber
    omega
  have hb' : quadNumber a b c d / 2 ^ 16 % 256 = b := by
    unfold quadNumber
    omega
  have hc' : quadNumber a b c d / 2 ^ 8 % 256 = c := by
    unfold quadNumber
    omega
  have hd' : quadNumber a b c d % 256 = d := by
    unfold quadNumber
    omega
  rw [ip2str_dec (quadNumber_lt ha hb hc hd), ha', hb', hc', hd']

end

/-- Addresses and netmasks are converted exactly: the texts of four octets without zeros at the
front are accepted and come back, numbers come back, and netmasks are those of prefixes. -/
theorem ipv4_conversions_exact :
    (∀ s, (∃ t, str2ip s = some t) ↔
      ∃ a < 256, ∃ b < 256, ∃ c < 256, ∃ d < 256, s = quadText a b c d) ∧
    (∀ s t, str2ip s = some t → ip2str t = some s) ∧
    (∀ n : BitVec 32, (ip2str (dec n.toNat)).bind str2ip = some (dec n.toNat)) ∧
    ∀ (n : BitVec 32) t, netmask2prefix (dec n.toNat) = some t ↔
      ∃ p ≤ 32, prefix2netmask (dec p) = some (dec n.toNat) ∧ t = dec p := by
  refine ⟨fun s => ⟨?_, ?_⟩, ?_, fun n => ?_, fun n t => ?_⟩
  · rintro ⟨t, h⟩
    exact str2ip_eq_some h
  · rintro ⟨a, ha, b, hb, c, hc, d, hd, rfl⟩
    exact ⟨_, str2ip_quadText ha hb hc hd⟩
  · intro s t h
    obtain ⟨a, ha, b, hb, c, hc, d, hd, rfl⟩ := str2ip_eq_some h
    rw [str2ip_quadText ha hb hc hd] at h
    rw [← Option.some.inj h, ip2str_quadNumber ha hb hc hd]
  · have hn := n.isLt
    have hnumber : quadNumber (n.toNat / 2 ^ 24) (n.toNat / 2 ^ 16 % 256) (n.toNat / 2 ^ 8 % 256)
        (n.toNat % 256) = n.toNat := by
      unfold quadNumber
      omega
    rw [ip2str_dec hn, Option.bind_some, str2ip_quadText (by omega) (by omega) (by omega)
      (by omega), hnumber]
  · rw [netmask2prefix_dec_iff n.isLt]
    refine exists_congr fun p => and_congr_right fun hp => and_congr_left' ?_
    rw [prefix2netmask_dec hp, Option.some.injEq]
    exact ⟨fun h => congrArg dec h.symm, fun h => (dec_inj h).symm⟩

end NeonWrt.BaseFiles
