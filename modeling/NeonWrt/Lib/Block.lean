import NeonWrt.Lib.Binary

/-!
# Blocks of memory

A pointer from `malloc` is null or the start of a block of bytes. An access
outside the block is a fault: it has no result. Copies within a block may
overlap, as those of `memmove`.
-/

namespace NeonWrt.Lib

/-- A pointer: null, or the start of a block. -/
abbrev Ptr := Option Bytes

/-- `p[i]`. -/
def load (p : Ptr) (i : ℕ) : Option UInt8 := p.bind (·[i]?)

/-- The `n` bytes from `off` on. -/
def fetch (p : Ptr) (off n : ℕ) : Option Bytes :=
  p.bind fun b => if off + n ≤ b.length then some ((b.drop off).take n) else none

/-- `memcpy(p + off, data, length)`; without data, nothing is accessed. -/
def store (p : Ptr) (off : ℕ) (data : Bytes) : Option Ptr :=
  if data.isEmpty then some p
  else p.bind fun b =>
    if off + data.length ≤ b.length then some (some (overwrite b off data)) else none

/-- `memmove(p + dst, p + src, n)`. -/
def memmove (p : Ptr) (dst src n : ℕ) : Option Ptr := (fetch p src n).bind (store p dst)

/-- `realloc(p, size)`, when there is memory: new bytes hold anything. -/
def realloc (fresh : ℕ → UInt8) (p : Ptr) (size : ℕ) : Bytes :=
  let b := (p.getD []).take size
  b ++ (List.range (size - b.length)).map fun i => fresh (b.length + i)

theorem load_eq_of_lt {a b : Bytes} {i : ℕ} (hi : i < a.length) :
    load (some (a ++ b)) i = some a[i] := by
  simp [load, List.getElem?_append_left hi]

theorem fetch_append {a x b : Bytes} {o n : ℕ} (ha : o = a.length) (hx : n = x.length) :
    fetch (some (a ++ (x ++ b))) o n = some x := by
  subst ha hx
  simp [fetch]

theorem store_append {a x d b : Bytes} {o : ℕ} (ha : o = a.length) (hx : x.length = d.length) :
    store (some (a ++ (x ++ b))) o d = some (some (a ++ (d ++ b))) := by
  subst ha
  rw [store]
  cases hd : d.isEmpty with
  | true =>
    rw [List.isEmpty_iff.mp hd] at hx ⊢
    rw [List.length_eq_zero_iff.mp hx]
    rfl
  | false =>
    have hfit : a.length + d.length ≤ (a ++ (x ++ b)).length := by
      simp only [List.length_append]
      omega
    have hover : overwrite (a ++ (x ++ b)) a.length d = a ++ (d ++ b) := by
      rw [overwrite, List.take_left, ← hx, ← List.append_assoc a x b, List.drop_left' (by simp),
        List.append_assoc]
    simp only [Bool.false_eq_true, if_false, Option.bind_some, if_pos hfit, hover]

@[simp] theorem length_realloc (fresh : ℕ → UInt8) (p : Ptr) (size : ℕ) :
    (realloc fresh p size).length = size := by
  simp only [realloc, List.length_append, List.length_map, List.length_range, List.length_take]
  omega

theorem realloc_eq_append (fresh : ℕ → UInt8) {b : Bytes} {size : ℕ} (h : b.length ≤ size) :
    realloc fresh (some b) size =
      b ++ (List.range (size - b.length)).map fun i => fresh (b.length + i) := by
  simp [realloc, List.take_of_length_le h]

theorem realloc_getElem? (fresh : ℕ → UInt8) {p : Ptr} {size i : ℕ} (h : (p.getD []).length ≤ i)
    (hi : i < size) : (realloc fresh p size)[i]? = some (fresh i) := by
  have hlen : ((p.getD []).take size).length = (p.getD []).length := by
    rw [List.length_take]
    omega
  rw [realloc, List.getElem?_append_right (by omega), hlen]
  simp only [List.getElem?_map, List.getElem?_range (show i - (p.getD []).length <
    size - (p.getD []).length by omega), Option.map_some]
  rw [Nat.add_sub_cancel' h]

section Skip

variable (p : Ptr) (f : UInt8 → Bool)

/-- `while (i > 0 && f(p[i])) i--`. -/
def skipLeft : ℕ → Option ℕ
  | 0 => some 0
  | i + 1 => (load p (i + 1)).bind fun c => if f c then skipLeft i else some (i + 1)

/-- `while (f(p[i]) && i < i + n) i++`: the byte is read before the end is checked. -/
def skipRight : ℕ → ℕ → Option ℕ
  | i, 0 => (load p i).map fun _ => i
  | i, n + 1 => (load p i).bind fun c => if f c then skipRight (i + 1) n else some i

/-- `while (i < i + n && f(p[i])) i++`. -/
def skipWithin : ℕ → ℕ → Option ℕ
  | i, 0 => some i
  | i, n + 1 => (load p i).bind fun c => if f c then skipWithin (i + 1) n else some i

end Skip

section SkipSpec

/-- The byte at `i` ends a loop over a text, or the text ends there. -/
def StopsAt (text : Bytes) (f : UInt8 → Bool) (i : ℕ) : Prop := ∀ c, text[i]? = some c → f c = false

variable (text rest : Bytes) (f : UInt8 → Bool)

theorem skipLeft_spec {i : ℕ} (hi : i < text.length) :
    ∃ j ≤ i, skipLeft (some (text ++ rest)) f i = some j ∧ (j = 0 ∨ StopsAt text f j) := by
  induction i with
  | zero => exact ⟨0, le_rfl, rfl, .inl rfl⟩
  | succ i ih =>
    cases hc : f text[i + 1] with
    | true =>
      obtain ⟨j, hj, heq, hstop⟩ := ih (by omega)
      exact ⟨j, by omega, by simp [skipLeft, load_eq_of_lt hi, hc, heq], hstop⟩
    | false =>
      refine ⟨i + 1, le_rfl, by simp [skipLeft, load_eq_of_lt hi, hc], .inr fun c hget => ?_⟩
      rw [List.getElem?_eq_getElem hi] at hget
      cases hget
      exact hc

/-- The loop that reads first needs a byte behind the text. What it moved over
passed the test. -/
theorem skipRight_spec {c : UInt8} {i n : ℕ} (hn : i + n = text.length) :
    ∃ j, i ≤ j ∧ j ≤ text.length ∧ skipRight (some (text ++ c :: rest)) f i n = some j ∧
      StopsAt text f j ∧ (i < j → ∃ d, text[j - 1]? = some d ∧ f d = true) := by
  induction n generalizing i with
  | zero =>
    obtain rfl : i = text.length := by omega
    refine ⟨_, le_rfl, le_rfl, by simp [skipRight, load], fun d hd => ?_, fun h => by omega⟩
    simp at hd
  | succ n ih =>
    have hi : i < text.length := by omega
    cases hc : f text[i] with
    | true =>
      obtain ⟨j, hj, hlen, heq, hstop, hprev⟩ := ih (i := i + 1) (by omega)
      refine ⟨j, by omega, hlen, by simp [skipRight, load_eq_of_lt hi, hc, heq], hstop, fun _ => ?_⟩
      rcases Nat.lt_or_ge (i + 1) j with hlt | hge
      · exact hprev hlt
      · obtain rfl : j = i + 1 := by omega
        exact ⟨_, List.getElem?_eq_getElem hi, hc⟩
    | false =>
      refine ⟨i, le_rfl, hi.le, by simp [skipRight, load_eq_of_lt hi, hc], fun d hd => ?_,
        fun h => by omega⟩
      rw [List.getElem?_eq_getElem hi] at hd
      cases hd
      exact hc

theorem skipWithin_spec {i n : ℕ} (hn : i + n = text.length) :
    ∃ j, i ≤ j ∧ j ≤ text.length ∧ skipWithin (some (text ++ rest)) f i n = some j ∧
      StopsAt text f j := by
  induction n generalizing i with
  | zero => exact ⟨i, le_rfl, by omega, rfl, fun d hd => by simp [show i = text.length by omega] at hd⟩
  | succ n ih =>
    have hi : i < text.length := by omega
    cases hc : f text[i] with
    | true =>
      obtain ⟨j, hj, hlen, heq, hstop⟩ := ih (i := i + 1) (by omega)
      exact ⟨j, by omega, hlen, by simp [skipWithin, load_eq_of_lt hi, hc, heq], hstop⟩
    | false =>
      refine ⟨i, le_rfl, hi.le, by simp [skipWithin, load_eq_of_lt hi, hc], fun d hd => ?_⟩
      rw [List.getElem?_eq_getElem hi] at hd
      cases hd
      exact hc

end SkipSpec

end NeonWrt.Lib
