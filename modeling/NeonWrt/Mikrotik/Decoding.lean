import NeonWrt.Mikrotik.Format

/-!
# The decoder against the format

One lemma for each function of the decoder, in terms of the bits of the input
from the position it reads at: what it returns where the format's bits stand
there, that what it returns stands there, and where it leaves a buffer.
-/

namespace NeonWrt.Mikrotik

open Lib

theorem getBit_eq (inp : Bytes) (p : ℕ) :
    getBit inp p = match (bits inp)[p]? with
      | some b => .ok b
      | none => .error (.fault .inputRead) := by
  rw [getElem?_bits, getBit]
  cases inp[p / 8]? <;> rfl

section Reads

variable {inp : Bytes} {done rest : List Bool}

theorem getBit_of_cons {b : Bool} (h : bits inp = done ++ b :: rest) :
    getBit inp done.length = .ok b := by
  rw [getBit_eq, h, List.getElem?_append_right le_rfl, Nat.sub_self]
  rfl

theorem getBit_of_le {p : ℕ} (h : (bits inp).length ≤ p) :
    getBit inp p = .error (.fault .inputRead) := by
  rw [getBit_eq, List.getElem?_eq_none h]

/-- A bit is read, or the read is outside the input. -/
theorem getBit_cases (inp : Bytes) (p : ℕ) :
    (∃ b, getBit inp p = .ok b) ∨ getBit inp p = .error (.fault .inputRead) := by
  rw [getBit_eq]
  cases (bits inp)[p]? with
  | none => exact .inr rfl
  | some b => exact .inl ⟨b, rfl⟩

private theorem sum_bits : ∀ b₀ b₁ b₂ b₃ b₄ b₅ b₆ b₇ : Bool,
    (0 : UInt8) + UInt8.ofNat (b₀.toNat <<< 7) + UInt8.ofNat (b₁.toNat <<< 6) + UInt8.ofNat (b₂.toNat <<< 5) +
      UInt8.ofNat (b₃.toNat <<< 4) + UInt8.ofNat (b₄.toNat <<< 3) + UInt8.ofNat (b₅.toNat <<< 2) +
      UInt8.ofNat (b₆.toNat <<< 1) + UInt8.ofNat (b₇.toNat <<< 0) =
    UInt8.ofNat (ofMsb [b₀, b₁, b₂, b₃, b₄, b₅, b₆, b₇]) := by
  decide +kernel

theorem getByte_of_append {l : List Bool} (hl : l.length = 8)
    (h : bits inp = done ++ l ++ rest) : getByte inp done.length = .ok (UInt8.ofNat (ofMsb l)) := by
  have hbit : ∀ i b, l[i]? = some b → getBit inp (done.length + i) = .ok b := by
    intro i b hb
    have hi : i < l.length := (List.getElem?_eq_some_iff.mp hb).1
    rw [getBit_eq, h, List.append_assoc, List.getElem?_append_right (by omega),
      Nat.add_sub_cancel_left, List.getElem?_append_left hi, hb]
  match l, hl with
  | [b₀, b₁, b₂, b₃, b₄, b₅, b₆, b₇], _ =>
    rw [getByte, show List.range 8 = [0, 1, 2, 3, 4, 5, 6, 7] from rfl]
    simp only [List.foldlM_cons, List.foldlM_nil, hbit 0 b₀ rfl, hbit 1 b₁ rfl, hbit 2 b₂ rfl,
      hbit 3 b₃ rfl, hbit 4 b₄ rfl, hbit 5 b₅ rfl, hbit 6 b₆ rfl, hbit 7 b₇ rfl]
    exact congrArg Except.ok (sum_bits b₀ b₁ b₂ b₃ b₄ b₅ b₆ b₇)

/-- The loop of `getByte` stops at the first bit outside the input. -/
private theorem getByte_loop_fault {p : ℕ} (l : List ℕ) (buf : UInt8)
    (h : ∃ i ∈ l, getBit inp (p + i) = .error (.fault .inputRead)) :
    l.foldlM (fun (buf : UInt8) i => do
      let bit ← getBit inp (p + i)
      return buf + UInt8.ofNat (bit.toNat <<< (7 - i))) buf = .error (.fault .inputRead) := by
  induction l generalizing buf with
  | nil => simp at h
  | cons i l ih =>
    rw [List.foldlM_cons]
    rcases getBit_cases inp (p + i) with ⟨b, hb⟩ | hb
    · obtain ⟨j, hj, hfault⟩ := h
      have hne : j ≠ i := by
        intro heq
        rw [heq, hb] at hfault
        cases hfault
      rw [hb]
      exact ih _ ⟨j, (List.mem_cons.mp hj).resolve_left hne, hfault⟩
    · rw [hb]
      rfl

theorem getByte_of_lt {p : ℕ} (h : (bits inp).length < p + 8) :
    getByte inp p = .error (.fault .inputRead) := by
  apply getByte_loop_fault
  exact ⟨7, by simp, getBit_of_le (by omega)⟩

private theorem decodeCountLoop_succ {b : Bool} (h : bits inp = done ++ b :: rest)
    (left shift count : ℕ) (up : Bool) :
    decodeCountLoop inp (left + 1) done.length shift count up =
      if up && b then
        decodeCountLoop inp left (done.length + 1) (shift + 1) (count + b.toNat * 2 ^ shift) true
      else if shift = 0 then .ok (count + b.toNat * 2 ^ shift, done.length + 1)
      else
        decodeCountLoop inp left (done.length + 1) (shift - 1) (count + b.toNat * 2 ^ shift) false := by
  have hcount : (if b then count + 1 <<< shift else count) = count + b.toNat * 2 ^ shift := by
    cases b <;> simp [Nat.shiftLeft_eq]
  rw [decodeCountLoop, getBit_of_cons h]
  simp only [bind, Except.bind, hcount]
  rfl

private theorem append_cons_eq {b : Bool} (h : bits inp = done ++ b :: rest) :
    bits inp = (done ++ [b]) ++ rest := by
  rw [h, List.append_assoc, List.singleton_append]

/-- Once the shift shrinks, the bits down to shift `0` are a number. -/
theorem decodeCountLoop_down {l : List Bool} {left shift : ℕ} (count : ℕ) (hl : l.length = shift + 1)
    (h : bits inp = done ++ (l ++ rest)) (hleft : shift + 1 ≤ left) :
    decodeCountLoop inp left done.length shift count false =
      .ok (count + ofMsb l, done.length + (shift + 1)) := by
  induction shift generalizing l left count done with
  | zero =>
    obtain ⟨left, rfl⟩ := Nat.exists_eq_succ_of_ne_zero (show left ≠ 0 by omega)
    obtain ⟨b, rfl⟩ := List.length_eq_one_iff.mp hl
    rw [decodeCountLoop_succ h]
    simp [ofMsb_cons]
  | succ shift ih =>
    obtain ⟨left, rfl⟩ := Nat.exists_eq_succ_of_ne_zero (show left ≠ 0 by omega)
    obtain ⟨b, l, rfl⟩ := List.exists_cons_of_length_eq_add_one hl
    have hl' : l.length = shift + 1 := by simpa using hl
    have hrec := ih (count + b.toNat * 2 ^ (shift + 1)) hl' (append_cons_eq h)
      (by omega : shift + 1 ≤ left)
    rw [List.length_append, List.length_singleton] at hrec
    rw [decodeCountLoop_succ h, Bool.false_and, if_neg (by simp), if_neg (by omega),
      Nat.add_sub_cancel, hrec, ofMsb_cons, hl']
    congr 2 <;> ring

theorem decodeCountLoop_expGolomb {left s v : ℕ} (count : ℕ)
    (h : bits inp = done ++ (expGolomb s v ++ rest)) (hleft : (expGolomb s v).length ≤ left) :
    decodeCountLoop inp left done.length s count true =
      .ok (count + v, done.length + (expGolomb s v).length) := by
  induction left generalizing s v count done with
  | zero => exact absurd (List.eq_nil_of_length_eq_zero (by omega)) (expGolomb_ne_nil s v)
  | succ left ih =>
    by_cases hv : v < 2 ^ s
    · -- the first clear bit
      rw [expGolomb_of_lt hv] at h hleft ⊢
      rw [List.cons_append] at h
      rw [decodeCountLoop_succ h, Bool.and_false, if_neg (by simp)]
      split_ifs with hs
      · have hv0 : v = 0 := by subst hs; simpa using hv
        subst hs hv0
        simp [msb]
      · obtain ⟨s, rfl⟩ := Nat.exists_eq_succ_of_ne_zero hs
        have hdown := decodeCountLoop_down (count + false.toNat * 2 ^ (s + 1))
          (length_msb (s + 1) v) (append_cons_eq h) (by simpa using hleft)
        rw [List.length_append, List.length_singleton] at hdown
        rw [Nat.succ_sub_one, hdown, ofMsb_msb, Nat.mod_eq_of_lt hv]
        simp
        ring
    · have hv' : 2 ^ s ≤ v := not_lt.mp hv
      rw [expGolomb_of_le hv'] at h hleft ⊢
      rw [List.cons_append] at h
      have hrec := ih (count + true.toNat * 2 ^ s) (append_cons_eq h) (by simpa using hleft)
      rw [List.length_append, List.length_singleton] at hrec
      rw [decodeCountLoop_succ h, Bool.and_self, if_pos rfl, hrec, List.length_cons, Bool.toNat_true]
      congr 2 <;> omega

/-- Within the input the loop returns a count or finds it too long. -/
theorem decodeCountLoop_cases {left : ℕ} (shift count : ℕ) (up : Bool) (h : bits inp = done ++ rest)
    (hleft : left ≤ rest.length) :
    (∃ r, decodeCountLoop inp left done.length shift count up = .ok r) ∨
      decodeCountLoop inp left done.length shift count up = .error (.error .efbig) := by
  induction left generalizing shift count up done rest with
  | zero => exact .inr rfl
  | succ left ih =>
    obtain ⟨b, rest, rfl⟩ := List.exists_cons_of_ne_nil
      (show rest ≠ [] from List.ne_nil_of_length_pos (by omega))
    have hnext : left ≤ rest.length := by simpa using hleft
    have hrec := fun shift count up => ih shift count up (append_cons_eq h) hnext
    rw [List.length_append, List.length_singleton] at hrec
    rw [decodeCountLoop_succ h]
    split_ifs
    · exact hrec _ _ _
    · exact .inl ⟨_, rfl⟩
    · exact hrec _ _ _

private theorem decodeCountLoop_short {left : ℕ} (shift count : ℕ) (h : bits inp = done ++ rest)
    (hleft : left ≤ rest.length) (hshort : left ≤ shift) :
    decodeCountLoop inp left done.length shift count false = .error (.error .efbig) := by
  induction left generalizing shift count done rest with
  | zero => rfl
  | succ left ih =>
    obtain ⟨b, rest, rfl⟩ := List.exists_cons_of_ne_nil
      (show rest ≠ [] from List.ne_nil_of_length_pos (by omega))
    have hrec := ih (shift - 1) (count + b.toNat * 2 ^ shift) (append_cons_eq h)
      (by simpa using hleft) (by omega)
    rw [List.length_append, List.length_singleton] at hrec
    rw [decodeCountLoop_succ h, Bool.false_and, if_neg (by simp), if_neg (by omega), hrec]

/-- What the loop returns is a counter of the format. -/
theorem decodeCountLoop_sound {left : ℕ} (s count : ℕ) {r : ℕ × ℕ} (h : bits inp = done ++ rest)
    (hleft : left ≤ rest.length)
    (hr : decodeCountLoop inp left done.length s count true = .ok r) :
    ∃ v rest', rest = expGolomb s v ++ rest' ∧ (expGolomb s v).length ≤ left := by
  induction left generalizing s count done rest with
  | zero => cases hr
  | succ left ih =>
    obtain ⟨b, rest, rfl⟩ := List.exists_cons_of_ne_nil
      (show rest ≠ [] from List.ne_nil_of_length_pos (by omega))
    have hnext : left ≤ rest.length := by simpa using hleft
    rw [decodeCountLoop_succ h] at hr
    cases b with
    | true =>
      rw [Bool.and_self, if_pos rfl] at hr
      have hrec := ih (s + 1) (count + true.toNat * 2 ^ s) (append_cons_eq h) hnext
      rw [List.length_append, List.length_singleton] at hrec
      obtain ⟨v, rest', hrest, hlen⟩ := hrec hr
      refine ⟨v + 2 ^ s, rest', ?_, ?_⟩
      · rw [expGolomb_of_le (by omega), Nat.add_sub_cancel, hrest, List.cons_append]
      · rw [expGolomb_of_le (by omega), Nat.add_sub_cancel, List.length_cons]
        omega
    | false =>
      have hs : s ≤ left := by
        by_contra hs
        obtain ⟨t, rfl⟩ := Nat.exists_eq_succ_of_ne_zero (show s ≠ 0 by omega)
        have hshort := decodeCountLoop_short t (count + false.toNat * 2 ^ (t + 1))
          (append_cons_eq h) hnext (by omega)
        rw [List.length_append, List.length_singleton] at hshort
        rw [Bool.and_false, if_neg (by simp), if_neg (by omega), Nat.succ_sub_one, hshort] at hr
        cases hr
      -- the digits behind the clear bit
      have htake : (rest.take s).length = s := List.length_take_of_le (by omega)
      have hlt : ofMsb (rest.take s) < 2 ^ s := by
        have hlt := ofMsb_lt (rest.take s)
        rwa [htake] at hlt
      have hmsb : msb s (ofMsb (rest.take s)) = rest.take s := by
        have hmsb := msb_ofMsb (rest.take s)
        rwa [htake] at hmsb
      refine ⟨ofMsb (rest.take s), rest.drop s, ?_, ?_⟩
      · rw [expGolomb_of_lt hlt, hmsb, List.cons_append, List.take_append_drop]
      · rw [expGolomb_of_lt hlt, hmsb, List.length_cons, htake]
        omega

theorem decodeCount_eq (h : bits inp = done ++ rest) (s count maxBits : ℕ) :
    decodeCount inp done.length s count maxBits =
      (decodeCountLoop inp (min maxBits rest.length) done.length s count true).map
        fun r => (r.1, r.2 - done.length) := by
  have hlen : inp.length * 8 = done.length + rest.length := by
    rw [← List.length_append, ← h, length_bits, mul_comm]
  have hleft : min (done.length + maxBits) (inp.length * 8) - done.length =
      min maxBits rest.length := by omega
  rw [decodeCount]
  simp only [hleft]
  cases decodeCountLoop inp (min maxBits rest.length) done.length s count true <;> rfl

theorem decodeCount_expGolomb {s v maxBits : ℕ} (count : ℕ)
    (h : bits inp = done ++ (expGolomb s v ++ rest)) (hlen : (expGolomb s v).length ≤ maxBits) :
    decodeCount inp done.length s count maxBits = .ok (count + v, (expGolomb s v).length) := by
  rw [decodeCount_eq h, decodeCountLoop_expGolomb count h (by simp [hlen]), Except.map,
    Nat.add_sub_cancel_left]

theorem decodeCount_sound {s count maxBits : ℕ} {r : ℕ × ℕ} (h : bits inp = done ++ rest)
    (hr : decodeCount inp done.length s count maxBits = .ok r) :
    ∃ v rest', rest = expGolomb s v ++ rest' ∧ (expGolomb s v).length ≤ maxBits ∧
      r = (count + v, (expGolomb s v).length) := by
  have hloop := hr
  rw [decodeCount_eq h] at hloop
  obtain ⟨r', hr'⟩ : ∃ r', decodeCountLoop inp (min maxBits rest.length) done.length s count true =
      .ok r' := by
    cases hc : decodeCountLoop inp (min maxBits rest.length) done.length s count true with
    | error e => rw [hc] at hloop; cases hloop
    | ok r' => exact ⟨r', rfl⟩
  obtain ⟨v, rest', hrest, hlen⟩ := decodeCountLoop_sound s count h (by omega) hr'
  have hlen' : (expGolomb s v).length ≤ maxBits := by omega
  refine ⟨v, rest', hrest, hlen', ?_⟩
  rw [hrest] at h
  rw [decodeCount_expGolomb count h hlen'] at hr
  exact (Except.ok.inj hr).symm

theorem decodeCount_cases (h : bits inp = done ++ rest) (s count maxBits : ℕ) :
    (∃ r, decodeCount inp done.length s count maxBits = .ok r) ∨
      decodeCount inp done.length s count maxBits = .error (.error .efbig) := by
  rw [decodeCount_eq h]
  rcases decodeCountLoop_cases s count true h (min_le_right maxBits _) with ⟨r, hr⟩ | hr
  · exact .inl ⟨_, by rw [hr]; rfl⟩
  · exact .inr (by rw [hr]; rfl)

/-- The opcode of a header. -/
def Header.opcode (previousOffset : ℕ) : Header → Opcode
  | h@literal => ⟨.literalByte, 0, 1, h.bits.length⟩
  | h@(literals n) => ⟨.long, 0, n, h.bits.length⟩
  | h@(matched o n) => ⟨.long, o, n, h.bits.length⟩
  | h@(previous n) => ⟨.previousOffset, previousOffset, n, h.bits.length⟩

theorem decodeInstruction_literal (h : bits inp = done ++ false :: rest) :
    decodeInstruction inp done.length = .ok (.literalByte, 1) := by
  rw [decodeInstruction, getBit_of_cons h]
  rfl

theorem decodeInstruction_pair {b : Bool} (h : bits inp = done ++ true :: b :: rest) :
    decodeInstruction inp done.length = .ok (if b then .long else .previousOffset, 2) := by
  have hb := getBit_of_cons (append_cons_eq h)
  rw [List.length_append, List.length_singleton] at hb
  rw [decodeInstruction, getBit_of_cons h]
  cases b <;> simp [bind, Except.bind, pure, Except.pure, hb]

theorem decodeInstruction_short (h : bits inp = done ++ rest) (hrest : rest = [] ∨ rest = [true]) :
    decodeInstruction inp done.length = .error (.fault .inputRead) := by
  rcases hrest with rfl | rfl
  · rw [decodeInstruction, getBit_of_le (by rw [h]; simp)]
    rfl
  · have hend : getBit inp (done.length + 1) = .error (.fault .inputRead) :=
      getBit_of_le (by rw [h]; simp)
    rw [decodeInstruction, getBit_of_cons h]
    simp [bind, Except.bind, hend]

theorem operators_previous (h : bits inp = (done ++ [true, false]) ++ rest) (prev : ℕ) :
    decodeInstructionOperators inp done.length prev =
      (decodeCount inp (done ++ [true, false]).length 0 1 maxCountBitLen).map
        fun n => ⟨.previousOffset, prev, n.1, 2 + n.2⟩ := by
  rw [List.append_assoc] at h
  rw [decodeInstructionOperators, decodeInstruction_pair h, List.length_append,
    show [true, false].length = 2 from rfl]
  simp only [bind, Except.bind, Bool.false_eq_true, if_false]
  cases decodeCount inp (done.length + 2) 0 1 maxCountBitLen <;> rfl

theorem operators_long (h : bits inp = (done ++ [true, true]) ++ rest) (prev : ℕ) :
    decodeInstructionOperators inp done.length prev =
      (decodeCount inp (done ++ [true, true]).length 4 0 maxCountBitLen).bind fun o =>
        if o.1 = 0 then
          (decodeCount inp ((done ++ [true, true]).length + o.2) 4 12 maxCountBitLen).map
            fun n => ⟨.long, 0, n.1, 2 + o.2 + n.2⟩
        else
          (decodeCount inp ((done ++ [true, true]).length + o.2) 0 2 maxCountBitLen).map
            fun n => ⟨.long, o.1, n.1, 2 + o.2 + n.2⟩ := by
  rw [List.append_assoc] at h
  rw [decodeInstructionOperators, decodeInstruction_pair h, List.length_append,
    show [true, true].length = 2 from rfl]
  simp only [bind, Except.bind, if_true, add_assoc]
  cases decodeCount inp (done.length + 2) 4 0 maxCountBitLen with
  | error e => rfl
  | ok o =>
    dsimp only
    split_ifs
    · cases decodeCount inp (done.length + (2 + o.2)) 4 12 maxCountBitLen <;> rfl
    · cases decodeCount inp (done.length + (2 + o.2)) 0 2 maxCountBitLen <;> rfl

theorem decodeInstructionOperators_header {hd : Header} (hwf : hd.WellFormed)
    (h : bits inp = done ++ (hd.bits ++ rest)) (prev : ℕ) :
    decodeInstructionOperators inp done.length prev = .ok (hd.opcode prev) := by
  cases hd with
  | literal =>
    rw [decodeInstructionOperators, decodeInstruction_literal h]
    rfl
  | previous n =>
    obtain ⟨hn, hlen⟩ := hwf
    have hsplit : bits inp = (done ++ [true, false]) ++ (expGolomb 0 (n - 1) ++ rest) := by
      rw [h, Header.bits, List.append_assoc, List.append_assoc]
    have hsum : 1 + (n - 1) = n := by omega
    rw [operators_previous hsplit, decodeCount_expGolomb 1 hsplit hlen, Except.map, hsum,
      Header.opcode, Header.bits, List.length_append]
    rfl
  | literals n =>
    obtain ⟨hn, hlen⟩ := hwf
    have hsplit : bits inp =
        (done ++ [true, true]) ++ (expGolomb 4 0 ++ (expGolomb 4 (n - 12) ++ rest)) := by
      rw [h, Header.bits]
      simp only [List.append_assoc]
    have hzero : (expGolomb 4 0).length ≤ maxCountBitLen := by decide
    have hsecond := hsplit
    rw [← List.append_assoc] at hsecond
    have hcount := decodeCount_expGolomb 12 hsecond hlen
    rw [@List.length_append _ (_ ++ _)] at hcount
    have hsum : 12 + (n - 12) = n := by omega
    rw [operators_long hsplit, decodeCount_expGolomb 0 hsplit hzero, Except.bind, if_pos rfl, hcount,
      Except.map, hsum, Header.opcode, Header.bits, List.length_append, List.length_append]
    rfl
  | matched o n =>
    obtain ⟨ho, hn, hlenO, hlenN⟩ := hwf
    have hsplit : bits inp =
        (done ++ [true, true]) ++ (expGolomb 4 o ++ (expGolomb 0 (n - 2) ++ rest)) := by
      rw [h, Header.bits]
      simp only [List.append_assoc]
    have hsecond := hsplit
    rw [← List.append_assoc] at hsecond
    have hcount := decodeCount_expGolomb 2 hsecond hlenN
    rw [@List.length_append _ (_ ++ _)] at hcount
    have hsum : 2 + (n - 2) = n := by omega
    have hne : 0 + o ≠ 0 := by omega
    rw [operators_long hsplit, decodeCount_expGolomb 0 hsplit hlenO, Except.bind]
    dsimp only
    rw [if_neg hne, hcount, Except.map, hsum, Header.opcode, Header.bits, List.length_append,
      List.length_append, zero_add]
    rfl

/-- What is decoded without an error is a well-formed header. -/
theorem decodeInstructionOperators_sound {op : Opcode} {prev : ℕ} (h : bits inp = done ++ rest)
    (hop : decodeInstructionOperators inp done.length prev = .ok op) :
    ∃ hd rest', Header.WellFormed hd ∧ rest = hd.bits ++ rest' := by
  match rest, h with
  | [], h =>
    rw [decodeInstructionOperators, decodeInstruction_short h (.inl rfl)] at hop
    cases hop
  | [true], h =>
    rw [decodeInstructionOperators, decodeInstruction_short h (.inr rfl)] at hop
    cases hop
  | false :: rest, _ => exact ⟨.literal, rest, trivial, rfl⟩
  | true :: false :: rest, h =>
    have hsplit : bits inp = (done ++ [true, false]) ++ rest := by rw [h]; simp
    rw [operators_previous hsplit] at hop
    rcases hc : decodeCount inp (done ++ [true, false]).length 0 1 maxCountBitLen with e | r
    · rw [hc] at hop
      cases hop
    · obtain ⟨v, rest', rfl, hlen, -⟩ := decodeCount_sound hsplit hc
      exact ⟨.previous (v + 1), rest', ⟨by omega, hlen⟩, rfl⟩
  | true :: true :: rest, h =>
    have hsplit : bits inp = (done ++ [true, true]) ++ rest := by rw [h]; simp
    rw [operators_long hsplit] at hop
    rcases hc : decodeCount inp (done ++ [true, true]).length 4 0 maxCountBitLen with e | r
    · rw [hc] at hop
      cases hop
    · obtain ⟨o, rest, rfl, hlenO, rfl⟩ := decodeCount_sound hsplit hc
      have hsecond := hsplit
      rw [← List.append_assoc] at hsecond
      rw [hc, Except.bind] at hop
      dsimp only at hop
      rw [← @List.length_append _ (_ ++ _), zero_add] at hop
      split_ifs at hop with ho
      · subst ho
        rcases hc' : decodeCount inp (done ++ [true, true] ++ expGolomb 4 0).length 4 12 maxCountBitLen with e | r
        · rw [hc'] at hop
          cases hop
        · obtain ⟨v, rest', rfl, hlen, -⟩ := decodeCount_sound hsecond hc'
          exact ⟨.literals (v + 12), rest', ⟨by omega, hlen⟩, by simp [Header.bits]⟩
      · rcases hc' : decodeCount inp (done ++ [true, true] ++ expGolomb 4 o).length 0 2 maxCountBitLen with e | r
        · rw [hc'] at hop
          cases hop
        · obtain ⟨v, rest', rfl, hlen, -⟩ := decodeCount_sound hsecond hc'
          exact ⟨.matched o (v + 2), rest', ⟨by omega, by omega, hlenO, hlen⟩, by simp [Header.bits]⟩

/-- Decoding an instruction leaves the input only where its two first bits do. -/
theorem decodeInstructionOperators_cases (h : bits inp = done ++ rest) (prev : ℕ) :
    (∃ op, decodeInstructionOperators inp done.length prev = .ok op) ∨
      decodeInstructionOperators inp done.length prev = .error (.error .efbig) ∨
      rest = [] ∨ rest = [true] := by
  match rest, h with
  | [], _ => exact .inr (.inr (.inl rfl))
  | [true], _ => exact .inr (.inr (.inr rfl))
  | false :: rest, h =>
    exact .inl ⟨_, @decodeInstructionOperators_header _ _ _ .literal trivial h prev⟩
  | true :: false :: rest, h =>
    have hsplit : bits inp = (done ++ [true, false]) ++ rest := by rw [h]; simp
    rw [operators_previous hsplit]
    rcases decodeCount_cases hsplit 0 1 maxCountBitLen with ⟨r, hr⟩ | hr
    · exact .inl ⟨_, by rw [hr]; rfl⟩
    · exact .inr (.inl (by rw [hr]; rfl))
  | true :: true :: rest, h =>
    have hsplit : bits inp = (done ++ [true, true]) ++ rest := by rw [h]; simp
    rw [operators_long hsplit]
    rcases decodeCount_cases hsplit 4 0 maxCountBitLen with ⟨r, hr⟩ | hr
    · obtain ⟨o, rest, rfl, -, rfl⟩ := decodeCount_sound hsplit hr
      have hsecond := hsplit
      rw [← List.append_assoc] at hsecond
      rw [hr, Except.bind]
      dsimp only
      rw [← @List.length_append _ (_ ++ _)]
      split_ifs
      · rcases decodeCount_cases hsecond 4 12 maxCountBitLen with ⟨r, hr⟩ | hr
        · exact .inl ⟨_, by rw [hr]; rfl⟩
        · exact .inr (.inl (by rw [hr]; rfl))
      · rcases decodeCount_cases hsecond 0 2 maxCountBitLen with ⟨r, hr⟩ | hr
        · exact .inl ⟨_, by rw [hr]; rfl⟩
        · exact .inr (.inl (by rw [hr]; rfl))
    · exact .inr (.inl (by rw [hr]; rfl))

theorem decodeInstructionOperators_short (h : bits inp = done ++ rest)
    (hrest : rest = [] ∨ rest = [true]) (prev : ℕ) :
    decodeInstructionOperators inp done.length prev = .error (.fault .inputRead) := by
  rw [decodeInstructionOperators, decodeInstruction_short h hrest]
  rfl

/-- Any bits are the bits of literal bytes, as far as there are enough of them. -/
theorem exists_literalBits {n : ℕ} {l : List Bool} (h : 8 * n ≤ l.length) :
    ∃ bs rest, bs.length = n ∧ l = literalBits bs ++ rest := by
  induction n generalizing l with
  | zero => exact ⟨[], l, rfl, rfl⟩
  | succ n ih =>
    obtain ⟨bs, rest, hbs, hdrop⟩ := @ih (l.drop 8) (by rw [List.length_drop]; omega)
    have hlen : (l.take 8).length = 8 := List.length_take_of_le (by omega)
    have hlt : ofMsb (l.take 8) < 256 := by
      have hlt := ofMsb_lt (l.take 8)
      rwa [hlen] at hlt
    have hmsb : msb 8 (ofMsb (l.take 8)) = l.take 8 := by
      have hmsb := msb_ofMsb (l.take 8)
      rwa [hlen] at hmsb
    refine ⟨UInt8.ofNat (ofMsb (l.take 8)) :: bs, rest, by rw [List.length_cons, hbs], ?_⟩
    rw [literalBits_cons, UInt8.toNat_ofNat_of_lt' hlt, hmsb, List.append_assoc, ← hdrop,
      List.take_append_drop]

theorem copyLiterals_literalBits {outLen : ℕ} {bs out : Bytes}
    (h : bits inp = done ++ (literalBits bs ++ rest)) (hroom : out.length + bs.length ≤ outLen) :
    copyLiterals inp outLen bs.length done.length out =
      .ok ((done ++ literalBits bs).length, out ++ bs) := by
  induction bs generalizing done out with
  | nil => simp [copyLiterals, literalBits]
  | cons b bs ih =>
    rw [literalBits_cons, List.append_assoc, ← List.append_assoc] at h
    rw [List.length_cons] at hroom ⊢
    have hbyte := getByte_of_append (length_msb 8 b.toNat) h
    rw [ofMsb_msb, Nat.mod_eq_of_lt b.toNat_lt, UInt8.ofNat_toNat] at hbyte
    have hrec := @ih (done ++ msb 8 b.toNat) (out ++ [b]) h
      (by rw [List.length_append, List.length_singleton]; omega)
    rw [List.length_append, length_msb] at hrec
    rw [copyLiterals, hbyte]
    simp only [bind, Except.bind]
    rw [if_pos (by omega), hrec, literalBits_cons, List.append_assoc, List.append_assoc,
      List.singleton_append]

/-- Literal bytes are copied without a look at the ends of the buffers. -/
theorem copyLiterals_fault {outLen n : ℕ} {out : Bytes} (h : bits inp = done ++ rest)
    (hfit : ¬ (8 * n ≤ rest.length ∧ out.length + n ≤ outLen)) (hroom : out.length ≤ outLen) :
    ∃ f, copyLiterals inp outLen n done.length out = .error (.fault f) := by
  induction n generalizing done rest out with
  | zero => exact absurd ⟨Nat.zero_le _, hroom⟩ hfit
  | succ n ih =>
    rw [copyLiterals]
    by_cases hread : 8 ≤ rest.length
    · -- the byte is read: the write or a later byte goes wrong
      have hlen : (rest.take 8).length = 8 := List.length_take_of_le hread
      have hsplit : bits inp = done ++ rest.take 8 ++ rest.drop 8 := by
        rw [List.append_assoc, List.take_append_drop, h]
      rw [getByte_of_append hlen hsplit]
      simp only [bind, Except.bind]
      split_ifs with hwrite
      · have hrec := @ih (done ++ rest.take 8) (rest.drop 8)
          (out ++ [UInt8.ofNat (ofMsb (rest.take 8))]) hsplit
        rw [List.length_append, List.length_singleton, List.length_append, hlen,
          List.length_drop] at hrec
        exact hrec (by omega) (by omega)
      · exact ⟨_, rfl⟩
    · have hshort : (bits inp).length < done.length + 8 := by
        rw [h, List.length_append]
        omega
      rw [getByte_of_lt hshort]
      exact ⟨_, rfl⟩

end Reads

theorem copyBack_add (o m n : ℕ) (out : Bytes) :
    copyBack o (m + n) out = copyBack o n (copyBack o m out) := by
  induction m generalizing out with
  | zero => rw [Nat.zero_add, copyBack]
  | succ m ih => rw [Nat.succ_add, copyBack, ih, copyBack]

/-- A match no longer than its offset copies bytes that were there before it. -/
theorem copyBack_of_le {o n : ℕ} {out : Bytes} (hn : n ≤ o) (ho : o ≤ out.length) :
    copyBack o n out = out ++ (out.drop (out.length - o)).take n := by
  induction n generalizing out with
  | zero => rw [copyBack, List.take_zero, List.append_nil]
  | succ n ih =>
    have hlt : out.length - o < out.length := by omega
    have hdrop : (out ++ [out.getD (out.length - o) 0]).drop (out.length + 1 - o) =
        out.drop (out.length - o + 1) ++ [out.getD (out.length - o) 0] := by
      rw [show out.length + 1 - o = out.length - o + 1 by omega,
        List.drop_append_of_le_length (by omega)]
    rw [copyBack, ih (by omega) (by rw [List.length_append]; omega), List.length_append,
      List.length_singleton, hdrop, List.take_append_of_le_length (by rw [List.length_drop]; omega),
      List.drop_eq_getElem_cons hlt, List.take_succ_cons, List.append_assoc,
      List.singleton_append, List.getD_eq_getElem?_getD, List.getElem?_eq_getElem hlt,
      Option.getD_some]

theorem copyMatch_eq {outLen o n rounds : ℕ} {out : Bytes} (ho : 0 < o) (hback : o ≤ out.length)
    (hroom : out.length + n ≤ outLen) (hrounds : n ≤ rounds) :
    copyMatch outLen o rounds n out = .ok (copyBack o n out) := by
  have hlast : ∀ {m : ℕ} {out : Bytes}, m ≤ o → o ≤ out.length → out.length + m ≤ outLen →
      memcpyBack outLen o m out = .ok (copyBack o m out) := by
    intro m out hm ho hroom
    rw [memcpyBack, if_neg (by omega), if_neg (by omega), copyBack_of_le hm ho]
  induction rounds generalizing n out with
  | zero => exact hlast (by omega) hback hroom
  | succ rounds ih =>
    rw [copyMatch]
    split_ifs with hlong
    · rw [hlast le_rfl hback (by omega)]
      have hlen := length_copyBack o o out
      have hsum : n = o + (n - o) := by omega
      simp only [bind, Except.bind]
      rw [ih (by omega) (by omega) (by omega)]
      conv_rhs => rw [hsum, copyBack_add]
    · exact hlast (by omega) hback hroom

end NeonWrt.Mikrotik
