import NeonWrt.Lib.Binary

/-!
# Checksums by exclusive or

The exclusive or of the 16-bit words of a file. When words are replaced, the
difference is that of the words themselves, so that a checksum word in the file can
take it up.
-/

namespace NeonWrt.Lib

/-- The exclusive or of the words of two bytes, the high one first. A last byte alone is no word. -/
def xorSum : Bytes → ℕ
  | a :: b :: t => (256 * a.toNat + b.toNat) ^^^ xorSum t
  | _ => 0

@[simp] theorem xorSum_nil : xorSum [] = 0 := rfl

theorem xorSum_lt (b : Bytes) : xorSum b < 65536 := by
  fun_induction xorSum b with
  | case1 a b t ih =>
    have ha := a.toNat_lt
    have hb := b.toNat_lt
    exact Nat.xor_lt_two_pow (n := 16) (by omega) ih
  | case2 => decide

theorem xorSum_append {a : Bytes} (h : a.length % 2 = 0) (b : Bytes) :
    xorSum (a ++ b) = xorSum a ^^^ xorSum b := by
  fun_induction xorSum a with
  | case1 x y t ih =>
    rw [List.length_cons, List.length_cons] at h
    rw [List.cons_append, List.cons_append, xorSum, ih (by omega), Nat.xor_assoc]
  | case2 t ht =>
    cases t with
    | nil => rw [List.nil_append, Nat.zero_xor]
    | cons x t =>
      cases t with
      | nil => simp at h
      | cons y t => exact absurd rfl (ht x y t)

theorem xorSum_word {n : ℕ} (h : n < 65536) :
    xorSum [UInt8.ofNat (n / 256), UInt8.ofNat (n % 256)] = n := by
  have hhigh : (UInt8.ofNat (n / 256)).toNat = n / 256 := Nat.mod_eq_of_lt (by omega)
  have hlow : (UInt8.ofNat (n % 256)).toNat = n % 256 := Nat.mod_eq_of_lt (by omega)
  rw [xorSum, xorSum_nil, Nat.xor_zero, hhigh, hlow, Nat.div_add_mod]

/-- Words that are replaced are taken out of the checksum, and the new ones are put in. -/
theorem xorSum_overwrite {b old new : Bytes} {off : ℕ} (h : HasAt b off old)
    (hoff : off % 2 = 0) (hlen : new.length = old.length) (heven : old.length % 2 = 0)
    (hin : off + old.length ≤ b.length) :
    xorSum (overwrite b off new) = xorSum b ^^^ xorSum old ^^^ xorSum new := by
  have htake : (b.take off).length = off := List.length_take_of_le (by omega)
  have hback : ∀ d : Bytes, d.length = old.length → xorSum (overwrite b off d) =
      xorSum (b.take off) ^^^ (xorSum d ^^^ xorSum (b.drop (off + old.length))) := by
    intro d hd
    rw [overwrite, List.append_assoc, xorSum_append (by rw [htake, hoff]),
      xorSum_append (by rw [hd, heven]), hd]
  -- the old words cancel
  have hold := hback old rfl
  rw [h.overwrite_eq] at hold
  rw [hback new hlen, hold]
  generalize xorSum (b.take off) = x, xorSum (b.drop (off + old.length)) = y
  calc x ^^^ (xorSum new ^^^ y)
      = x ^^^ y ^^^ xorSum new ^^^ (xorSum old ^^^ xorSum old) := by
        rw [Nat.xor_self, Nat.xor_zero]
        ac_rfl
    _ = x ^^^ (xorSum old ^^^ y) ^^^ xorSum old ^^^ xorSum new := by ac_rfl

end NeonWrt.Lib
