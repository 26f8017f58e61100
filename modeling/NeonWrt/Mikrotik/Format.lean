import NeonWrt.Mikrotik.Lz77

/-!
# The compressed format

What a stream of instructions means, stated without the decoder: the groups of
the format, their bits, and the output they expand to. Counters are
exponential-Golomb codes; the order of the code is the shift of its first bit.
-/

namespace NeonWrt.Mikrotik

open Lib

/-- An instruction with its counters. -/
inductive Header where
  /-- one literal byte follows -/
  | literal
  /-- `length` literal bytes follow -/
  | literals (length : ℕ)
  /-- a match at an offset back from the end of the output -/
  | matched (offset length : ℕ)
  /-- a match at the offset of the previous match -/
  | previous (length : ℕ)
  deriving DecidableEq, Repr

namespace Header

/-- The bits of a header. -/
def bits : Header → List Bool
  | literal => [false]
  | literals n => [true, true] ++ expGolomb 4 0 ++ expGolomb 4 (n - 12)
  | matched o n => [true, true] ++ expGolomb 4 o ++ expGolomb 0 (n - 2)
  | previous n => [true, false] ++ expGolomb 0 (n - 1)

/-- The built-in counts are met and no counter is longer than the decoder accepts. -/
def WellFormed : Header → Prop
  | literal => True
  | literals n => 12 ≤ n ∧ (expGolomb 4 (n - 12)).length ≤ maxCountBitLen
  | matched o n => 0 < o ∧ 2 ≤ n ∧ (expGolomb 4 o).length ≤ maxCountBitLen ∧
      (expGolomb 0 (n - 2)).length ≤ maxCountBitLen
  | previous n => 1 ≤ n ∧ (expGolomb 0 (n - 1)).length ≤ maxCountBitLen

instance : DecidablePred WellFormed
  | literal => isTrue trivial
  | literals _ => inferInstanceAs (Decidable (_ ∧ _))
  | matched _ _ => inferInstanceAs (Decidable (_ ∧ _))
  | previous _ => inferInstanceAs (Decidable (_ ∧ _))

/-- How many literal bytes follow. -/
def bytes : Header → ℕ
  | literal => 1
  | literals n => n
  | matched _ _ | previous _ => 0

end Header

/-- A header with its literal bytes. -/
inductive Group where
  | literal (b : UInt8)
  | literals (bs : Bytes)
  | matched (offset length : ℕ)
  | previous (length : ℕ)
  deriving DecidableEq, Repr

/-- The bits of literal bytes, which the stream holds most significant bit first. -/
def literalBits (bs : Bytes) : List Bool := bs.flatMap fun b => msb 8 b.toNat

/-- The output after `length` bytes, each copied from `offset` bytes before its own place. -/
def copyBack (offset : ℕ) : ℕ → Bytes → Bytes
  | 0, out => out
  | n + 1, out => copyBack offset n (out ++ [out.getD (out.length - offset) 0])

namespace Group

/-- The header of a group. -/
def header : Group → Header
  | literal _ => .literal
  | literals bs => .literals bs.length
  | matched o n => .matched o n
  | previous n => .previous n

/-- The literal bytes of a group. -/
def payload : Group → Bytes
  | literal b => [b]
  | literals bs => bs
  | matched _ _ | previous _ => []

/-- The bits of a group. -/
def encode (g : Group) : List Bool := g.header.bits ++ literalBits g.payload

/-- The header of the group is well formed. -/
def WellFormed (g : Group) : Prop := g.header.WellFormed

/-- The offset of the latest match and the output after a group. There is no meaning for a match
that starts before the output, nor for a repeated offset where there has been no match. -/
def apply : Group → ℕ × Bytes → Option (ℕ × Bytes)
  | literal b, (o, out) => some (o, out ++ [b])
  | literals bs, (o, out) => some (o, out ++ bs)
  | matched o n, (_, out) => if o ≤ out.length then some (o, copyBack o n out) else none
  | previous n, (o, out) =>
    if 0 < o ∧ o ≤ out.length then some (o, copyBack o n out) else none

end Group

/-- The bits of a sequence of groups. -/
def encode (gs : List Group) : List Bool := gs.flatMap Group.encode

/-- The offset of the latest match and the output of a sequence of groups. -/
def expand (gs : List Group) : Option (ℕ × Bytes) :=
  gs.foldlM (fun st g => g.apply st) (0, [])

/-- The end of the stream: a long group that is no match, with count `0`. -/
def endMarker : List Bool := (Header.literals 12).bits

theorem literalBits_cons (b : UInt8) (bs : Bytes) :
    literalBits (b :: bs) = msb 8 b.toNat ++ literalBits bs := rfl

theorem Group.length_payload (g : Group) : g.payload.length = g.header.bytes := by
  cases g <;> rfl

theorem encode_append (gs hs : List Group) : encode (gs ++ hs) = encode gs ++ encode hs :=
  List.flatMap_append

theorem encode_cons (g : Group) (gs : List Group) : encode (g :: gs) = g.encode ++ encode gs := rfl

theorem encode_concat (gs : List Group) (g : Group) : encode (gs ++ [g]) = encode gs ++ g.encode := by
  rw [encode_append, encode_cons, show encode [] = [] from rfl, List.append_nil]

theorem expand_concat (gs : List Group) (g : Group) :
    expand (gs ++ [g]) = (expand gs).bind g.apply := by
  rw [expand, List.foldlM_append, expand]
  congr 1
  funext st
  exact List.foldlM_cons .. |>.trans (by simp)

theorem expand_append (gs hs : List Group) :
    expand (gs ++ hs) = (expand gs).bind fun st => hs.foldlM (fun st g => g.apply st) st :=
  List.foldlM_append

theorem Header.bits_ne_nil (h : Header) : h.bits ≠ [] := by cases h <;> simp [Header.bits]

/-- A group takes at least one bit, so there are no more groups than bits. -/
theorem length_le_length_encode (gs : List Group) : gs.length ≤ (encode gs).length := by
  induction gs with
  | nil => rfl
  | cons g gs ih =>
    have hpos := List.length_pos_iff.mpr g.header.bits_ne_nil
    rw [encode_cons, Group.encode, List.length_cons, List.length_append, List.length_append]
    omega

theorem length_copyBack (o n : ℕ) (out : Bytes) :
    (copyBack o n out).length = out.length + n := by
  induction n generalizing out with
  | zero => rfl
  | succ n ih => rw [copyBack, ih, List.length_append, List.length_singleton]; omega

theorem Group.apply_length {g : Group} {st st' : ℕ × Bytes} (h : g.apply st = some st') :
    st.2.length + g.header.bytes ≤ st'.2.length := by
  obtain ⟨o, out⟩ := st
  cases g with
  | literal b => simp only [Group.apply, Option.some.injEq] at h; simp [← h, header, Header.bytes]
  | literals bs => simp only [Group.apply, Option.some.injEq] at h; simp [← h, header, Header.bytes]
  | matched o' n =>
    simp only [Group.apply] at h
    split_ifs at h
    simp only [Option.some.injEq] at h
    simp [← h, header, Header.bytes, length_copyBack]
  | previous n =>
    simp only [Group.apply] at h
    split_ifs at h
    simp only [Option.some.injEq] at h
    simp [← h, header, Header.bytes, length_copyBack]

theorem foldlM_apply_length {gs : List Group} {st st' : ℕ × Bytes}
    (h : gs.foldlM (fun st g => g.apply st) st = some st') : st.2.length ≤ st'.2.length := by
  induction gs generalizing st with
  | nil => simp only [List.foldlM_nil, Option.pure_def, Option.some.injEq] at h; rw [h]
  | cons g gs ih =>
    rw [List.foldlM_cons] at h
    obtain ⟨mid, hmid, hrest⟩ := Option.bind_eq_some_iff.mp h
    exact le_trans (by have := Group.apply_length hmid; omega) (ih hrest)

end NeonWrt.Mikrotik
