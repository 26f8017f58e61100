import NeonWrt.Lib.Number

/-!
# Hexadecimal texts

Numbers and bytes as hexadecimal digits, and texts cut into pieces of one length.
-/

namespace NeonWrt.Lib

/-- `%x`. -/
def hex (n : ℕ) : Bytes := (Nat.toDigits 16 n).map fun c => UInt8.ofNat c.toNat

/-- Zeros before a text, up to a width. -/
def zeroPad (width : ℕ) (t : Bytes) : Bytes := List.replicate (width - t.length) 48 ++ t

/-- `%02x` of a byte. -/
def hexByte (b : UInt8) : Bytes := [hexDigit 87 (b.toNat / 16), hexDigit 87 (b.toNat % 16)]

/-- `%02x` of each byte. -/
def hexdump (data : Bytes) : Bytes := data.flatMap hexByte

/-- The bytes that pairs of digits stand for. -/
def unhex : Bytes → Bytes
  | h :: l :: t => UInt8.ofNat (16 * digitVal h + digitVal l) :: unhex t
  | _ => []

/-- The pieces of a text of `k` bytes each; the last one may be shorter. -/
def pieces (k : ℕ) (t : Bytes) : List Bytes :=
  (List.range ((t.length + k - 1) / k)).map fun i => (t.drop (k * i)).take k

@[simp] theorem unhex_nil : unhex [] = [] := rfl

@[simp] theorem hexdump_cons (b : UInt8) (data : Bytes) :
    hexdump (b :: data) = hexByte b ++ hexdump data := rfl

@[simp] theorem length_hexdump (data : Bytes) : (hexdump data).length = 2 * data.length := by
  induction data with
  | nil => rfl
  | cons b data ih =>
    rw [hexdump_cons, List.length_append, ih, List.length_cons]
    simp only [hexByte, List.length_cons, List.length_nil]
    omega

theorem digitVal_of_mem_hexdump {data : Bytes} {c : UInt8} (hc : c ∈ hexdump data) :
    digitVal c < 16 := by
  obtain ⟨b, -, hc⟩ := List.mem_flatMap.mp hc
  have hb := b.toNat_lt
  rcases List.mem_pair.mp hc with rfl | rfl
  · exact (digitVal_hexDigit_lower (by omega)).trans_lt (by omega)
  · exact (digitVal_hexDigit_lower (by omega)).trans_lt (by omega)

theorem unhex_hexdump (data : Bytes) : unhex (hexdump data) = data := by
  induction data with
  | nil => rfl
  | cons b data ih =>
    have hb := b.toNat_lt
    have hbyte : 16 * (b.toNat / 16) + b.toNat % 16 = b.toNat := Nat.div_add_mod _ _
    rw [hexdump_cons, hexByte, List.cons_append, List.singleton_append, unhex,
      digitVal_hexDigit_lower (by omega), digitVal_hexDigit_lower (by omega), hbyte,
      UInt8.ofNat_toNat, ih]

theorem length_unhex (t : Bytes) : (unhex t).length = t.length / 2 := by
  fun_induction unhex t with
  | case1 h l t ih =>
    rw [List.length_cons, ih, List.length_cons, List.length_cons]
    omega
  | case2 t ht =>
    cases t with
    | nil => rfl
    | cons h t =>
      cases t with
      | nil => exact (Nat.div_eq_of_lt Nat.one_lt_two).symm
      | cons l t => exact absurd rfl (ht h l t)

theorem hex_of_lt {n : ℕ} (h : n < 16) : hex n = [hexDigit 87 n] := by
  interval_cases n <;> rfl

theorem hex_of_le {n : ℕ} (h : 16 ≤ n) : hex n = hex (n / 16) ++ [hexDigit 87 (n % 16)] := by
  have hlast := hex_of_lt (Nat.mod_lt n (by decide : 0 < 16))
  rw [hex, Nat.toDigits_of_lt_base (Nat.mod_lt n (by decide)), List.map_singleton] at hlast
  rw [hex, Nat.toDigits_of_base_le (by decide) h, List.map_append, ← hex, List.map_singleton,
    hlast]

/-- Digits are taken off the end of a number with zeros before it. -/
theorem zeroPad_hex_succ {k n : ℕ} (hk : 0 < k) :
    zeroPad (k + 1) (hex n) = zeroPad k (hex (n / 16)) ++ [hexDigit 87 (n % 16)] := by
  rcases lt_or_ge n 16 with h | h
  · -- one digit: what is left of the number is a zero
    obtain ⟨k, rfl⟩ := Nat.exists_eq_add_of_lt hk
    rw [hex_of_lt h, Nat.div_eq_of_lt h, hex_of_lt (by decide : 0 < 16), Nat.mod_eq_of_lt h]
    simp only [zeroPad, List.length_singleton, Nat.add_sub_cancel, Nat.zero_add]
    rw [List.replicate_succ']
    rfl
  · rw [hex_of_le h, zeroPad, zeroPad, List.length_append, List.length_singleton,
      Nat.add_sub_add_right, List.append_assoc]

theorem digitVal_of_mem_hex {n : ℕ} {c : UInt8} (hc : c ∈ hex n) : digitVal c < 16 := by
  induction n using Nat.strongRecOn with
  | _ n ih =>
    rcases lt_or_ge n 16 with h | h
    · rw [hex_of_lt h, List.mem_singleton] at hc
      rw [hc, digitVal_hexDigit_lower h]
      exact h
    · rw [hex_of_le h, List.mem_append, List.mem_singleton] at hc
      rcases hc with hc | rfl
      · exact ih (n / 16) (by omega) hc
      · rw [digitVal_hexDigit_lower (Nat.mod_lt n (by decide))]
        exact Nat.mod_lt n (by decide)

@[simp] theorem numeral_hex (n : ℕ) : numeral 16 (hex n) = n := by
  induction n using Nat.strongRecOn with
  | _ n ih =>
    rcases lt_or_ge n 16 with h | h
    · rw [hex_of_lt h]
      simpa [numeral] using digitVal_hexDigit_lower h
    · rw [hex_of_le h, numeral_concat, ih (n / 16) (by omega),
        digitVal_hexDigit_lower (Nat.mod_lt n (by decide))]
      omega

@[simp] theorem numeral_zeroPad (base width : ℕ) (t : Bytes) :
    numeral base (zeroPad width t) = numeral base t := by
  have hzeros : ∀ k, numeral base (List.replicate k 48) = 0 := by
    intro k
    induction k with
    | zero => rfl
    | succ k ih =>
      rw [List.replicate_succ', numeral_concat, ih, Nat.zero_mul]
      rfl
  rw [zeroPad, numeral, List.foldl_append, ← numeral, hzeros]
  rfl

theorem digitVal_of_mem_zeroPad {width : ℕ} {t : Bytes} {c : UInt8} (ht : ∀ c ∈ t, digitVal c < 16)
    (hc : c ∈ zeroPad width t) : digitVal c < 16 := by
  rcases List.mem_append.mp hc with hc | hc
  · rw [List.eq_of_mem_replicate hc]
    decide
  · exact ht c hc

theorem length_zeroPad_hex {n : ℕ} (h : n < 256) : (zeroPad 2 (hex n)).length = 2 := by
  have hone : (zeroPad 1 (hex (n / 16))).length = 1 := by
    rw [hex_of_lt (by omega)]
    rfl
  rw [zeroPad_hex_succ (by decide), List.length_append, hone]
  rfl

/-- A word with four digits is the dump of its two bytes. -/
theorem zeroPad_hex_word {n : ℕ} (h : n < 65536) :
    zeroPad 4 (hex n) = hexdump [UInt8.ofNat (n / 256), UInt8.ofNat (n % 256)] := by
  have hone : zeroPad 1 (hex (n / 16 / 16 / 16)) = [hexDigit 87 (n / 16 / 16 / 16)] := by
    rw [hex_of_lt (by omega)]
    rfl
  have hhigh : (UInt8.ofNat (n / 256)).toNat = n / 256 := Nat.mod_eq_of_lt (by omega)
  have hlow : (UInt8.ofNat (n % 256)).toNat = n % 256 := Nat.mod_eq_of_lt (by omega)
  have h₁ : n / 256 / 16 = n / 16 / 16 / 16 := by omega
  have h₂ : n / 256 % 16 = n / 16 / 16 % 16 := by omega
  have h₃ : n % 256 / 16 = n / 16 % 16 := by omega
  have h₄ : n % 256 % 16 = n % 16 := by omega
  rw [zeroPad_hex_succ (by decide), zeroPad_hex_succ (by decide), zeroPad_hex_succ (by decide),
    hone]
  simp only [hexdump, hexByte, List.flatMap_cons, List.flatMap_nil, hhigh, hlow, h₁, h₂, h₃, h₄]
  rfl

@[simp] theorem pieces_nil {k : ℕ} (hk : 0 < k) : pieces k [] = [] := by
  rw [pieces, List.length_nil, Nat.div_eq_of_lt (by omega)]
  rfl

theorem pieces_append {k : ℕ} {a : Bytes} (t : Bytes) (hk : 0 < k) (ha : a.length = k) :
    pieces k (a ++ t) = a :: pieces k t := by
  have hcount : (k + t.length + k - 1) / k = (t.length + k - 1) / k + 1 := by
    rw [← Nat.add_div_right _ hk]
    congr 1
    omega
  have hdrop : ∀ i, (a ++ t).drop (k * (i + 1)) = t.drop (k * i) := by
    intro i
    rw [Nat.mul_succ, Nat.add_comm, ← List.drop_drop, List.drop_left' ha]
  rw [pieces, List.length_append, ha, hcount, List.range_succ_eq_map, List.map_cons, List.map_map,
    Nat.mul_zero, List.drop_zero, List.take_left' ha, pieces]
  congr 1
  apply List.map_congr_left
  intro i _
  rw [Function.comp_apply, Nat.succ_eq_add_one, hdrop]

end NeonWrt.Lib
