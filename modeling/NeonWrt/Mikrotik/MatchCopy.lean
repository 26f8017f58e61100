import NeonWrt.Mikrotik.Decoding

/-!
# The copies of a match in memory

`copyMatch` appends to the bytes written so far. Here the same lines of `rb_lz77.c` run on memory,
where a `memcpy` has a destination and a source, may only be called on ranges that do not overlap,
and the loop runs until its test fails, which it never does for the offset zero. The code has
tested that the offset reaches no further back than the output.
-/

namespace NeonWrt.Mikrotik

open Lib

/-- The arguments of a call of `memcpy`. -/
structure MemcpyCall where
  dst : ℕ
  src : ℕ
  n : ℕ
  deriving DecidableEq, Repr

/-- The two ranges of a call have no byte in common. -/
def MemcpyCall.Disjoint (c : MemcpyCall) : Prop := c.src + c.n ≤ c.dst ∨ c.dst + c.n ≤ c.src

/-- Memory behind a call. -/
def memcpy (mem : ℕ → UInt8) (c : MemcpyCall) : ℕ → UInt8 := fun a =>
  if c.dst ≤ a ∧ a < c.dst + c.n then mem (c.src + (a - c.dst)) else mem a

/-- Memory and `output_ptr`. -/
@[ext] structure Cursor where
  mem : ℕ → UInt8
  outputPtr : ℕ

namespace Cursor

/-- The arguments of `memcpy(output_ptr, output_ptr - offset, n)`. -/
def call (s : Cursor) (offset n : ℕ) : MemcpyCall := ⟨s.outputPtr, s.outputPtr - offset, n⟩

/-- The call, and `output_ptr += n`. -/
def copy (s : Cursor) (offset n : ℕ) : Cursor :=
  ⟨memcpy s.mem (s.call offset n), s.outputPtr + n⟩

/-- The byte `offset` before the next one is written there. -/
def copyByte (s : Cursor) (offset : ℕ) : Cursor :=
  ⟨Function.update s.mem s.outputPtr (s.mem (s.outputPtr - offset)), s.outputPtr + 1⟩

/-- The bytes `out` lie in memory from `base` to the place of the next byte. -/
structure Holds (s : Cursor) (base : ℕ) (out : Bytes) : Prop where
  outputPtr : s.outputPtr = base + out.length
  mem : ∀ i (h : i < out.length), s.mem (base + i) = out[i]

end Cursor

/-- The loop `while (opcode->offset < match_length)` and the copy behind it. There is no result if
the loop does not end within the given rounds. -/
def matchLoop (offset : ℕ) : ℕ → ℕ → Cursor → Option (Cursor × List MemcpyCall)
  | 0, _, _ => none
  | rounds + 1, matchLength, s =>
    if offset < matchLength then
      (matchLoop offset rounds (matchLength - offset) (s.copy offset offset)).map fun r =>
        (r.1, s.call offset offset :: r.2)
    else some (s.copy offset matchLength, [s.call offset matchLength])

/-- A match, one byte at a time. -/
def copyBytes (offset : ℕ) : ℕ → Cursor → Cursor
  | 0, s => s
  | n + 1, s => copyBytes offset n (s.copyByte offset)

section MatchCopy

variable {s : Cursor} {offset : ℕ}

theorem copyBytes_add (m n : ℕ) (s : Cursor) :
    copyBytes offset (m + n) s = copyBytes offset n (copyBytes offset m s) := by
  induction m generalizing s with
  | zero => rw [Nat.zero_add, copyBytes]
  | succ m ih => rw [Nat.succ_add, copyBytes, ih, copyBytes]

@[simp] theorem outputPtr_copyBytes (n : ℕ) (s : Cursor) :
    (copyBytes offset n s).outputPtr = s.outputPtr + n := by
  induction n generalizing s with
  | zero => rfl
  | succ n ih =>
    rw [copyBytes, ih, Cursor.copyByte]
    exact Nat.add_right_comm _ _ _

theorem call_disjoint {n : ℕ} (hn : n ≤ offset) (hback : offset ≤ s.outputPtr) :
    (s.call offset n).Disjoint := by
  left
  change s.outputPtr - offset + n ≤ s.outputPtr
  omega

/-- A call copies what single bytes would, if it is no longer than the offset. -/
theorem copyBytes_eq_copy {n : ℕ} (hn : n ≤ offset) (hback : offset ≤ s.outputPtr) :
    copyBytes offset n s = s.copy offset n := by
  induction n with
  | zero =>
    refine Cursor.ext (funext fun a => ?_) rfl
    have hempty : ¬(s.outputPtr ≤ a ∧ a < s.outputPtr + 0) := by omega
    simp only [copyBytes, Cursor.copy, Cursor.call, memcpy, if_neg hempty]
  | succ n ih =>
    rw [copyBytes_add, ih (by omega)]
    -- the byte that is added lies before the call's destination
    have hsrc : ¬(s.outputPtr ≤ s.outputPtr + n - offset) := by omega
    refine Cursor.ext (funext fun a => ?_) rfl
    simp only [copyBytes, Cursor.copyByte, Cursor.copy, Cursor.call, memcpy, Function.update_apply]
    by_cases hlast : a = s.outputPtr + n
    · have hsum : s.outputPtr + n - offset = s.outputPtr - offset + (a - s.outputPtr) := by omega
      rw [if_pos hlast, if_neg (fun h => hsrc h.1), if_pos (by omega), hsum]
    · rw [if_neg hlast]
      exact if_congr (by omega) rfl rfl

theorem exists_calls (s : Cursor) {offset : ℕ} (hpos : 1 ≤ offset) (hback : offset ≤ s.outputPtr)
    (matchLength : ℕ) :
    ∃ calls, (∀ rounds, matchLength < rounds →
        matchLoop offset rounds matchLength s = some (copyBytes offset matchLength s, calls)) ∧
      ∀ c ∈ calls, c.Disjoint := by
  induction matchLength using Nat.strong_induction_on generalizing s with
  | _ matchLength ih =>
    by_cases hlong : offset < matchLength
    · -- one chunk, and the rest of the match from behind it
      have hchunk : copyBytes offset offset s = s.copy offset offset :=
        copyBytes_eq_copy le_rfl hback
      obtain ⟨calls, hloop, hdisjoint⟩ := ih (matchLength - offset) (by omega)
        (s.copy offset offset) (Nat.le_add_right_of_le hback)
      have hsplit : copyBytes offset matchLength s =
          copyBytes offset (matchLength - offset) (s.copy offset offset) := by
        rw [← hchunk, ← copyBytes_add, Nat.add_sub_cancel' hlong.le]
      refine ⟨s.call offset offset :: calls, fun rounds hrounds => ?_, ?_⟩
      · obtain ⟨rounds, rfl⟩ : ∃ n, rounds = n + 1 := ⟨rounds - 1, by omega⟩
        rw [matchLoop, if_pos hlong, hloop rounds (by omega), hsplit]
        rfl
      · rintro c (_ | ⟨_, hc⟩)
        · exact call_disjoint le_rfl hback
        · exact hdisjoint c hc
    · refine ⟨[s.call offset matchLength], fun rounds hrounds => ?_, ?_⟩
      · obtain ⟨rounds, rfl⟩ : ∃ n, rounds = n + 1 := ⟨rounds - 1, by omega⟩
        rw [matchLoop, if_neg hlong, copyBytes_eq_copy (by omega) hback]
      · intro c hc
        rw [List.mem_singleton.mp hc]
        exact call_disjoint (by omega) hback

/-- The copies of a match in chunks of its offset write what single bytes would. No call has
ranges that overlap, and the output grows by the length of the match. -/
theorem matchLoop_eq_copyBytes (s : Cursor) {offset : ℕ} (hpos : 1 ≤ offset)
    (hback : offset ≤ s.outputPtr) (matchLength : ℕ) :
    ∃ calls, (∀ rounds, matchLength < rounds →
        matchLoop offset rounds matchLength s = some (copyBytes offset matchLength s, calls)) ∧
      (∀ c ∈ calls, c.Disjoint) ∧
      (copyBytes offset matchLength s).outputPtr = s.outputPtr + matchLength := by
  obtain ⟨calls, hloop, hdisjoint⟩ := exists_calls s hpos hback matchLength
  exact ⟨calls, hloop, hdisjoint, outputPtr_copyBytes matchLength s⟩

/-- A match of seven bytes with the offset three. -/
theorem matchLoop_three : ∃ calls,
    (∀ rounds, 7 < rounds → matchLoop 3 rounds 7 ⟨fun a => a.toUInt8, 3⟩ =
      some (copyBytes 3 7 ⟨fun a => a.toUInt8, 3⟩, calls)) ∧
    (∀ c ∈ calls, c.Disjoint) ∧
    (copyBytes 3 7 ⟨fun a => a.toUInt8, 3⟩).outputPtr = 3 + 7 :=
  matchLoop_eq_copyBytes ⟨fun a => a.toUInt8, 3⟩ (by decide) le_rfl 7

variable {base : ℕ} {out : Bytes}

theorem Cursor.Holds.copyByte (h : s.Holds base out) (hpos : 1 ≤ offset)
    (hback : offset ≤ out.length) :
    (s.copyByte offset).Holds base (out ++ [out.getD (out.length - offset) 0]) where
  outputPtr := by
    rw [Cursor.copyByte, h.outputPtr, List.length_append, List.length_singleton, Nat.add_assoc]
  mem := by
    intro i hi
    rw [List.length_append, List.length_singleton] at hi
    simp only [Cursor.copyByte, h.outputPtr]
    by_cases hlast : i = out.length
    · subst hlast
      have hlt : out.length - offset < out.length := by omega
      have hsrc : base + out.length - offset = base + (out.length - offset) := by omega
      rw [Function.update_self, hsrc, h.mem _ hlt, List.getElem_append_right le_rfl]
      simp [List.getD_eq_getElem?_getD, List.getElem?_eq_getElem hlt]
    · have hne : base + i ≠ base + out.length := by omega
      rw [Function.update_of_ne hne, h.mem i (by omega), List.getElem_append_left]

theorem Cursor.Holds.copyBytes (h : s.Holds base out) (hpos : 1 ≤ offset)
    (hback : offset ≤ out.length) (n : ℕ) :
    (copyBytes offset n s).Holds base (copyBack offset n out) := by
  induction n generalizing s out with
  | zero => exact h
  | succ n ih => exact ih (h.copyByte hpos hback) (by rw [List.length_append]; omega)

/-- The loop on memory leaves the output that `copyMatch` returns. -/
theorem matchLoop_refines {outLen n : ℕ} (h : s.Holds base out) (hpos : 1 ≤ offset)
    (hback : offset ≤ out.length) (hroom : out.length + n ≤ outLen) :
    ∃ s' calls out', matchLoop offset (n + 1) n s = some (s', calls) ∧
      copyMatch outLen offset n n out = .ok out' ∧ s'.Holds base out' := by
  have hptr : offset ≤ s.outputPtr := by rw [h.outputPtr]; omega
  obtain ⟨calls, hloop, -⟩ := exists_calls s hpos hptr n
  exact ⟨_, calls, _, hloop _ n.lt_succ_self, copyMatch_eq hpos hback hroom le_rfl,
    h.copyBytes hpos hback n⟩

theorem matchLoop_refines_three : ∃ s' calls out',
    matchLoop 3 (7 + 1) 7 ⟨fun a => a.toUInt8, 3⟩ = some (s', calls) ∧
      copyMatch 10 3 7 7 [0, 1, 2] = .ok out' ∧ s'.Holds 0 out' :=
  matchLoop_refines ⟨rfl, by decide⟩ (by decide) (by decide) (by decide)

end MatchCopy

end NeonWrt.Mikrotik
