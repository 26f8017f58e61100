import NeonWrt.Lib.CString

/-!
# Fixed-width numbers in buffers

Little-endian words as C structures on flash hold them, the arithmetic of
`uint32_t`, and the CRC of the Linux kernel's `crc32_le`.
-/

namespace NeonWrt.Lib

/-- `a - b` in `uint32_t`. -/
def u32Sub (a b : ℕ) : ℕ := if b ≤ a then a - b else a + 4294967296 - b

/-- `a++` in `uint32_t`. -/
def u32Inc (a : ℕ) : ℕ := (a + 1) % 4294967296

theorem u32Sub_of_le {a b : ℕ} (h : b ≤ a) : u32Sub a b = a - b := if_pos h

/-- The four bytes of a `uint32_t`. -/
def u32le (n : ℕ) : Bytes :=
  [UInt8.ofNat n, UInt8.ofNat (n / 256), UInt8.ofNat (n / 65536), UInt8.ofNat (n / 16777216)]

/-- The four bytes of an `int32_t`. -/
def i32le (n : ℤ) : Bytes := u32le (n % 4294967296).toNat

/-- The `uint32_t` at an offset. -/
def getU32 (b : Bytes) (off : ℕ) : ℕ :=
  (b.getD off 0).toNat + 256 * (b.getD (off + 1) 0).toNat + 65536 * (b.getD (off + 2) 0).toNat +
    16777216 * (b.getD (off + 3) 0).toNat

/-- The `int32_t` at an offset. -/
def getI32 (b : Bytes) (off : ℕ) : ℤ :=
  let n := getU32 b off
  if n < 2147483648 then n else (n : ℤ) - 4294967296

theorem getU32_lt (b : Bytes) (off : ℕ) : getU32 b off < 4294967296 := by
  have h₀ := (b.getD off 0).toNat_lt
  have h₁ := (b.getD (off + 1) 0).toNat_lt
  have h₂ := (b.getD (off + 2) 0).toNat_lt
  have h₃ := (b.getD (off + 3) 0).toNat_lt
  unfold getU32
  omega

theorem getI32_bounds (b : Bytes) (off : ℕ) :
    -2147483648 ≤ getI32 b off ∧ getI32 b off < 2147483648 := by
  have hlt := getU32_lt b off
  unfold getI32
  dsimp only
  split_ifs <;> omega

/-- A buffer holds some bytes at an offset. -/
def HasAt (b : Bytes) (off : ℕ) (data : Bytes) : Prop := ∀ i < data.length, b[off + i]? = data[i]?

section HasAt

variable {b data data' : Bytes} {off : ℕ}

theorem HasAt.append_iff : HasAt b off (data ++ data') ↔
    HasAt b off data ∧ HasAt b (off + data.length) data' := by
  constructor
  · intro h
    refine ⟨fun i hi => ?_, fun i hi => ?_⟩
    · rw [h i (by rw [List.length_append]; omega), List.getElem?_append_left hi]
    · rw [Nat.add_assoc, h (data.length + i) (by rw [List.length_append]; omega),
        List.getElem?_append_right (by omega), Nat.add_sub_cancel_left]
  · rintro ⟨h, h'⟩ i hi
    rw [List.length_append] at hi
    by_cases hlt : i < data.length
    · rw [h i hlt, List.getElem?_append_left hlt]
    · have hsecond := h' (i - data.length) (by omega)
      rw [show off + data.length + (i - data.length) = off + i by omega] at hsecond
      rw [hsecond, List.getElem?_append_right (by omega)]

theorem HasAt.slice (h : HasAt b off data) : (b.drop off).take data.length = data := by
  apply List.ext_getElem?
  intro i
  rw [List.getElem?_take, List.getElem?_drop]
  split_ifs with hi
  · exact h i hi
  · exact (List.getElem?_eq_none (by omega)).symm

/-- A part of the buffer is held where it was taken from. -/
theorem hasAt_slice (b : Bytes) (off n : ℕ) : HasAt b off ((b.drop off).take n) := by
  intro i hi
  rw [List.length_take] at hi
  rw [List.getElem?_take, if_pos (by omega), List.getElem?_drop]

/-- Bytes that are there lie inside the buffer. -/
theorem HasAt.le_length (h : HasAt b off data) (hne : data ≠ []) :
    off + data.length ≤ b.length := by
  have hpos : 0 < data.length := List.length_pos_iff.mpr hne
  have hlast := h (data.length - 1) (by omega)
  by_contra hlt
  rw [List.getElem?_eq_none (by omega), List.getElem?_eq_getElem (by omega)] at hlast
  cases hlast

theorem hasAt_middle (front data back : Bytes) :
    HasAt (front ++ (data ++ back)) front.length data := by
  intro i hi
  rw [List.getElem?_append_right (Nat.le_add_right ..), Nat.add_sub_cancel_left,
    List.getElem?_append_left hi]

theorem HasAt.getD (h : HasAt b off data) {i : ℕ} (hi : i < data.length) (d : UInt8) :
    b.getD (off + i) d = data.getD i d := by
  rw [List.getD_eq_getElem?_getD, h i hi, List.getD_eq_getElem?_getD]

theorem HasAt.getU32 {n : ℕ} (h : HasAt b off (u32le n)) : getU32 b off = n % 4294967296 := by
  have h₀ := h.getD (show 0 < 4 by decide) 0
  have h₁ := h.getD (show 1 < 4 by decide) 0
  have h₂ := h.getD (show 2 < 4 by decide) 0
  have h₃ := h.getD (show 3 < 4 by decide) 0
  rw [Nat.add_zero] at h₀
  rw [Lib.getU32, h₀, h₁, h₂, h₃]
  simp only [u32le, List.getD_cons_zero, List.getD_cons_succ, UInt8.toNat_ofNat']
  omega

theorem length_u32le (n : ℕ) : (u32le n).length = 4 := rfl

end HasAt

/-- `memcpy` into a buffer. -/
def overwrite (b : Bytes) (off : ℕ) (data : Bytes) : Bytes :=
  b.take off ++ data ++ b.drop (off + data.length)

section Overwrite

variable {b data data' : Bytes} {off : ℕ}

theorem length_overwrite (h : off + data.length ≤ b.length) :
    (overwrite b off data).length = b.length := by
  simp only [overwrite, List.length_append, List.length_take, List.length_drop]
  omega

theorem le_length_overwrite : b.length ≤ (overwrite b off data).length := by
  simp only [overwrite, List.length_append, List.length_take, List.length_drop]
  omega

theorem hasAt_overwrite (h : off ≤ b.length) : HasAt (overwrite b off data) off data := by
  intro i hi
  have htake : (b.take off).length = off := List.length_take_of_le h
  rw [overwrite, List.append_assoc, List.getElem?_append_right (by omega), htake,
    Nat.add_sub_cancel_left, List.getElem?_append_left hi]

theorem getElem?_overwrite {i : ℕ} (h : off ≤ b.length) (hi : i < off ∨ off + data.length ≤ i) :
    (overwrite b off data)[i]? = b[i]? := by
  have htake : (b.take off).length = off := List.length_take_of_le h
  rw [overwrite, List.append_assoc]
  rcases hi with hi | hi
  · rw [List.getElem?_append_left (by omega), List.getElem?_take, if_pos hi]
  · rw [List.getElem?_append_right (by omega), List.getElem?_append_right (by omega),
      List.getElem?_drop, htake]
    congr 1
    omega

theorem HasAt.of_apart {off' : ℕ} (h : HasAt b off data) (hoff : off' ≤ b.length)
    (hapart : off + data.length ≤ off' ∨ off' + data'.length ≤ off) :
    HasAt (overwrite b off' data') off data := by
  intro i hi
  rw [getElem?_overwrite hoff (by omega)]
  exact h i hi

/-- A part of the buffer is replaced by as many bytes. -/
theorem overwrite_append {a x c : Bytes} (h : data.length = x.length) :
    overwrite (a ++ (x ++ c)) a.length data = a ++ (data ++ c) := by
  have hback : (a ++ (x ++ c)).drop (a.length + data.length) = c := by
    rw [← List.append_assoc, List.drop_left' (by rw [List.length_append, h])]
  rw [overwrite, List.take_left' rfl, hback, List.append_assoc]

/-- The second of two copies to the same place is the one that counts. -/
theorem overwrite_overwrite (h : off ≤ b.length) (hlen : data'.length = data.length) :
    overwrite (overwrite b off data) off data' = overwrite b off data' := by
  have htake : (b.take off).length = off := List.length_take_of_le h
  have hfront : (overwrite b off data).take off = b.take off := by
    rw [overwrite, List.append_assoc, List.take_left' htake]
  have hback : (overwrite b off data).drop (off + data'.length) = b.drop (off + data'.length) := by
    rw [overwrite, List.drop_left' (by rw [List.length_append, htake, hlen]), hlen]
  rw [overwrite, hfront, hback]
  rfl

/-- Copying what is there already changes nothing. -/
theorem HasAt.overwrite_eq (h : HasAt b off data) : overwrite b off data = b := by
  have hdata : (b.drop off).take data.length = data := h.slice
  calc overwrite b off data
      = b.take off ++ ((b.drop off).take data.length ++ (b.drop off).drop data.length) := by
        rw [overwrite, hdata, List.drop_drop, List.append_assoc]
    _ = b := by rw [List.take_append_drop, List.take_append_drop]

end Overwrite

/-- The byte order of a CPU. -/
inductive Endian where
  | little
  | big
  deriving DecidableEq

namespace Endian

/-- The four bytes of a `uint32_t` in memory. -/
def u32 : Endian → ℕ → Bytes
  | little, n => u32le n
  | big, n => (u32le n).reverse

/-- The `uint32_t` in memory at an offset. -/
def getU32 : Endian → Bytes → ℕ → ℕ
  | little, b, off => Lib.getU32 b off
  | big, b, off => Lib.getU32 ((b.drop off).take 4).reverse 0

/-- The two bytes of a `uint16_t` in memory. -/
def u16 : Endian → ℕ → Bytes
  | little, n => [UInt8.ofNat n, UInt8.ofNat (n / 256)]
  | big, n => [UInt8.ofNat (n / 256), UInt8.ofNat n]

/-- The `uint16_t` in memory at an offset. -/
def getU16 : Endian → Bytes → ℕ → ℕ
  | little, b, off => (b.getD off 0).toNat + 256 * (b.getD (off + 1) 0).toNat
  | big, b, off => 256 * (b.getD off 0).toNat + (b.getD (off + 1) 0).toNat

theorem length_u16 (e : Endian) (n : ℕ) : (e.u16 n).length = 2 := by
  cases e <;> rfl

theorem length_u32 (e : Endian) (n : ℕ) : (e.u32 n).length = 4 := by
  cases e <;> rfl

end Endian

theorem HasAt.zero (data : Bytes) : HasAt data 0 data := fun i _ => by rw [Nat.zero_add]

/-- A word is read back in the byte order it was written in. -/
theorem HasAt.endian {b : Bytes} {off n : ℕ} {e : Endian} (h : HasAt b off (e.u32 n)) :
    e.getU32 b off = n % 4294967296 := by
  cases e with
  | little => exact HasAt.getU32 h
  | big =>
    have hslice : (b.drop off).take 4 = (u32le n).reverse := h.slice
    rw [Endian.getU32, hslice, List.reverse_reverse]
    exact (HasAt.zero (u32le n)).getU32

/-- A word that reads as zero is four zero bytes. -/
theorem getU32_eq_zero {w : Bytes} (hlen : w.length = 4) (h : getU32 w 0 = 0) : w = u32le 0 := by
  obtain ⟨a, b, c, d, rfl⟩ := List.length_eq_four.mp hlen
  simp only [getU32, List.getD_cons_zero, List.getD_cons_succ] at h
  have hzero : ∀ x : UInt8, x.toNat = 0 → x = 0 := fun x hx => UInt8.toNat_inj.mp hx
  rw [hzero a (by omega), hzero b (by omega), hzero c (by omega), hzero d (by omega)]
  rfl

theorem Endian.hasAt_zero {b : Bytes} {off : ℕ} {e : Endian} (hlen : off + 4 ≤ b.length)
    (h : e.getU32 b off = 0) : HasAt b off (e.u32 0) := by
  have hword : ((b.drop off).take 4).length = 4 := by
    rw [List.length_take, List.length_drop]
    omega
  have hslice := hasAt_slice b off 4
  cases e with
  | little =>
    have hzero : Lib.getU32 ((b.drop off).take 4) 0 = 0 := by
      have hat : ∀ i < 4, b.getD (off + i) 0 = ((b.drop off).take 4).getD i 0 :=
        fun i hi => hslice.getD (by rwa [hword]) 0
      have h₀ := hat 0 (by decide)
      have h₁ := hat 1 (by decide)
      have h₂ := hat 2 (by decide)
      have h₃ := hat 3 (by decide)
      rw [Nat.add_zero] at h₀
      rw [Endian.getU32, Lib.getU32, h₀, h₁, h₂, h₃] at h
      exact h
    rw [getU32_eq_zero hword hzero] at hslice
    exact hslice
  | big =>
    have hzero := getU32_eq_zero (by rw [List.length_reverse, hword]) h
    rw [List.reverse_eq_iff] at hzero
    rw [hzero] at hslice
    exact hslice

/-- One bit of `crc32_le`. -/
def crcBit (crc : ℕ) : ℕ :=
  if crc % 2 = 1 then (crc >>> 1) ^^^ 0xedb88320 else crc >>> 1

/-- One byte of `crc32_le`. -/
def crcByte (crc : ℕ) (c : UInt8) : ℕ :=
  crcBit (crcBit (crcBit (crcBit (crcBit (crcBit (crcBit (crcBit (crc ^^^ c.toNat))))))))

/-- `crc32_le`. -/
def crc32le (crc : ℕ) (b : Bytes) : ℕ := b.foldl crcByte crc

theorem crcBit_lt {crc : ℕ} (h : crc < 2 ^ 32) : crcBit crc < 2 ^ 32 := by
  have hshift : crc >>> 1 < 2 ^ 32 := by
    rw [Nat.shiftRight_eq_div_pow]
    omega
  rw [crcBit]
  split_ifs
  · exact Nat.xor_lt_two_pow hshift (by decide)
  · exact hshift

theorem crcByte_lt {crc : ℕ} (h : crc < 2 ^ 32) (c : UInt8) : crcByte crc c < 2 ^ 32 := by
  have hxor : crc ^^^ c.toNat < 2 ^ 32 := Nat.xor_lt_two_pow h (c.toNat_lt.trans (by decide))
  iterate 8 apply crcBit_lt
  exact hxor

theorem crc32le_lt {crc : ℕ} (h : crc < 2 ^ 32) (b : Bytes) : crc32le crc b < 2 ^ 32 := by
  induction b generalizing crc with
  | nil => exact h
  | cons c b ih => exact ih (crcByte_lt h c)

-- The check value of the CRC-32 polynomial.
example : crc32le 0xffffffff (ascii "123456789") ^^^ 0xffffffff = 0xcbf43926 := by decide +kernel

end NeonWrt.Lib
