import Mathlib.Algebra.GroupWithZero.Nat
import Mathlib.Data.List.DropRight
import Mathlib.Data.List.Forall2

/-!
# C strings as byte lists

A buffer is a list of bytes, and a C string is a buffer without NUL. This file
provides the character classes of `ctype.h` in the C locale, the truncation of
`snprintf`, the tokens of `strtok_r` and the trimming idiom that C programs
build from `isspace`, with the facts about them that callers need.
-/

namespace NeonWrt.Lib

/-- The contents of a buffer. -/
abbrev Bytes := List UInt8

instance bytes_lawfulBEq : LawfulBEq Bytes := List.instLawfulBEq

/-- The bytes of an ASCII literal. -/
def ascii (s : String) : Bytes := s.toList.map fun c => UInt8.ofNat c.toNat

/-- What a C function sees of a buffer: everything before the first NUL. -/
def cstr (b : Bytes) : Bytes := b.takeWhile (· != 0)

theorem cstr_eq_self {b : Bytes} (h : 0 ∉ b) : cstr b = b :=
  List.takeWhile_eq_self_iff.mpr fun c hc => by
    simpa using fun hz : c = 0 => h (hz ▸ hc)

/-- A C string: bytes without NUL. -/
structure CStr where
  bytes : Bytes
  noNul : 0 ∉ bytes
  deriving DecidableEq

namespace CStr

theorem ext_iff {s t : CStr} : s = t ↔ s.bytes = t.bytes := by
  cases s
  cases t
  simp

/-- The C string that a buffer holds. -/
def ofBytes (b : Bytes) : CStr where
  bytes := cstr b
  noNul := by
    intro h
    have := List.mem_takeWhile_imp h
    simp at this

theorem ofBytes_bytes (s : CStr) : ofBytes s.bytes = s := by
  rw [ext_iff]
  exact cstr_eq_self s.noNul

/-- A string literal of the source. -/
def lit (s : String) : CStr := ofBytes (ascii s)

end CStr

/-- `isdigit` in the C locale. -/
def isdigit (c : UInt8) : Bool := 48 ≤ c && c ≤ 57

/-- `isalnum` in the C locale. -/
def isalnum (c : UInt8) : Bool :=
  isdigit c || (65 ≤ c && c ≤ 90) || (97 ≤ c && c ≤ 122)

/-- `isspace` in the C locale. -/
def isspace (c : UInt8) : Bool := c == 32 || (9 ≤ c && c ≤ 13)

/-- `tolower` in the C locale. -/
def tolower (c : UInt8) : UInt8 := if 65 ≤ c && c ≤ 90 then c + 32 else c

/-- `!strcasecmp(a, b)`. -/
def caseEq (a b : Bytes) : Bool := a.map tolower == b.map tolower

theorem isspace_eq_false_of_isalnum {c : UInt8} (h : isalnum c = true) : isspace c = false := by
  simp only [isalnum, isdigit, isspace, Bool.or_eq_true, Bool.and_eq_true, decide_eq_true_eq,
    Bool.or_eq_false_iff, Bool.and_eq_false_iff, beq_eq_false_iff_ne, decide_eq_false_iff_not,
    UInt8.le_iff_toNat_le, ne_eq, ← UInt8.toNat_inj, UInt8.reduceToNat] at h ⊢
  omega

/-- The string that `snprintf` leaves in a buffer of `size` bytes. -/
def snprintf (size : ℕ) (text : Bytes) : Bytes := text.take (size - 1)

theorem snprintf_of_length_lt {size : ℕ} {text : Bytes} (h : text.length < size) :
    snprintf size text = text :=
  List.take_of_length_le (by omega)

/-- A string in a buffer of `size` bytes, its terminating NUL not counted. -/
structure Buf (size : ℕ) where
  bytes : Bytes
  fits : bytes.length < size
  deriving DecidableEq

/-- `snprintf(buf, sizeof(buf), "%s", text)`. -/
def Buf.print (size : ℕ) [NeZero size] (text : Bytes) : Buf size where
  bytes := snprintf size text
  fits := by
    have hsize := Nat.pos_of_neZero size
    rw [snprintf, List.length_take]
    omega

/-! The sizes that buffers have. -/

instance neZero_64 : NeZero 64 := ⟨by decide⟩

instance neZero_128 : NeZero 128 := ⟨by decide⟩

instance neZero_256 : NeZero 256 := ⟨by decide⟩

instance neZero_1024 : NeZero 1024 := ⟨by decide⟩

instance neZero_4096 : NeZero 4096 := ⟨by decide⟩

/-- The tokens `strtok_r` yields for one delimiter: the non-empty stretches
between delimiters, in order. -/
def strtok (delim : UInt8) (b : Bytes) : List Bytes := (b.splitOn delim).filter (· ≠ [])

theorem strtok_append (delim : UInt8) (a b : Bytes) :
    strtok delim (a ++ delim :: b) = strtok delim a ++ strtok delim b := by
  rw [strtok, List.splitOn_append_cons_self, List.filter_append]
  rfl

theorem strtok_singleton {delim : UInt8} {a : Bytes} (ha : a ≠ []) (hd : delim ∉ a) :
    strtok delim a = [a] := by
  rw [strtok, List.splitOn_eq_singleton hd]
  simp [ha]

@[simp] theorem strtok_nil (delim : UInt8) : strtok delim [] = [] := by
  simp [strtok, List.splitOn_eq_splitOnP]

/-- The words of a list with a delimiter between them. -/
def join (delim : UInt8) (words : List Bytes) : Bytes := [delim].intercalate words

@[simp] theorem join_nil (delim : UInt8) : join delim [] = [] := rfl

/-- A word added at the end, as `strcat` does it. -/
theorem join_concat (delim : UInt8) (words : List Bytes) (w : Bytes) :
    join delim (words ++ [w]) = (if words = [] then [] else join delim words ++ [delim]) ++ w := by
  induction words with
  | nil => simp [join]
  | cons v words ih =>
    unfold join at ih ⊢
    rw [List.cons_append, List.intercalate_cons_of_ne_nil (by simp), ih]
    by_cases hwords : words = []
    · simp [hwords]
    · simp [hwords, List.intercalate_cons_of_ne_nil]

theorem length_join_concat (delim : UInt8) (words : List Bytes) (w : Bytes) :
    (join delim words).length ≤ (join delim (words ++ [w])).length := by
  rw [join_concat]
  by_cases hwords : words = []
  · simp [hwords]
  · simp only [hwords, if_false, List.length_append]
    omega

theorem join_eq_nil_iff {delim : UInt8} {words : List Bytes} (hne : ∀ w ∈ words, w ≠ []) :
    join delim words = [] ↔ words = [] := by
  cases words with
  | nil => simp
  | cons w words =>
    have hw : w ≠ [] := hne w (by simp)
    cases words with
    | nil => simp [join, hw]
    | cons v words => simp [join, hw, List.intercalate_cons_of_ne_nil]

theorem mem_join {delim c : UInt8} {words : List Bytes} (h : c ∈ join delim words) :
    c = delim ∨ ∃ w ∈ words, c ∈ w := by
  induction words with
  | nil => simp at h
  | cons w words ih =>
    by_cases hwords : words = []
    · refine Or.inr ⟨w, by simp, ?_⟩
      simpa [join, hwords] using h
    · rw [join, List.intercalate_cons_of_ne_nil hwords, List.mem_append, List.mem_append] at h
      rcases h with (h | h) | h
      · exact Or.inr ⟨w, by simp, h⟩
      · exact Or.inl (List.mem_singleton.mp h)
      · rcases ih h with h | ⟨v, hv, hc⟩
        · exact Or.inl h
        · exact Or.inr ⟨v, by simp [hv], hc⟩

/-- Splitting a joined list gives the list back. -/
theorem splitOn_join {delim : UInt8} {words : List Bytes} (hne : words ≠ [])
    (hwords : ∀ w ∈ words, delim ∉ w) : (join delim words).splitOn delim = words :=
  List.splitOn_intercalate delim hwords hne

theorem length_join_le {delim : UInt8} {k : ℕ} {words : List Bytes}
    (hwords : ∀ w ∈ words, w.length ≤ k) :
    (join delim words).length ≤ (k + 1) * words.length - 1 := by
  induction words with
  | nil => simp
  | cons w words ih =>
    have hw := hwords w (by simp)
    have hrest := ih fun v hv => hwords v (by simp [hv])
    rw [List.length_cons, Nat.mul_add, Nat.mul_one]
    by_cases hnil : words = []
    · simp only [join, hnil, List.intercalate_singleton, List.length_nil]
      omega
    · have hpos : 0 < (k + 1) * words.length :=
        Nat.mul_pos (by omega) (List.length_pos_iff.mpr hnil)
      rw [join, List.intercalate_cons_of_ne_nil hnil]
      unfold join at hrest
      simp only [List.length_append, List.length_cons, List.length_nil]
      omega

/-- Tokenizing a joined list gives the list back. -/
theorem strtok_join {delim : UInt8} {words : List Bytes}
    (hwords : ∀ w ∈ words, w ≠ [] ∧ delim ∉ w) : strtok delim (join delim words) = words := by
  induction words with
  | nil => simp
  | cons w words ih =>
    obtain ⟨hw, hd⟩ := hwords w (by simp)
    by_cases hnil : words = []
    · simp [hnil, join, strtok_singleton hw hd]
    · have hsplit : join delim (w :: words) = w ++ delim :: join delim words := by
        simp [join, List.intercalate_cons_of_ne_nil hnil]
      rw [hsplit, strtok_append, strtok_singleton hw hd, ih fun v hv => hwords v (by simp [hv])]
      rfl

/-- The string without its leading and trailing blanks. -/
def trim (b : Bytes) : Bytes := (b.dropWhile isspace).rdropWhile isspace

theorem trim_eq_self {b : Bytes} (h : ∀ c ∈ b, isspace c = false) : trim b = b := by
  have hdrop : b.dropWhile isspace = b := by
    cases b with
    | nil => rfl
    | cons c cs => simp [h c (by simp)]
  rw [trim, hdrop, List.rdropWhile_eq_self_iff]
  intro hb hlast
  have := h _ (List.getLast_mem hb)
  simp [this] at hlast

/-- Two words written after each other with a separator coincide with two others
exactly when the words are the same, or one separator falls inside a word of the
other pair. -/
theorem append_cons_eq_append_cons_iff {α : Type*} (d : α) (s i t j : List α) :
    s ++ d :: i = t ++ d :: j ↔
      (s = t ∧ i = j) ∨ (∃ x, t = s ++ d :: x ∧ i = x ++ d :: j) ∨
        ∃ x, s = t ++ d :: x ∧ j = x ++ d :: i := by
  constructor
  · intro h
    rcases List.append_eq_append_iff.mp h with ⟨x, ht, hi⟩ | ⟨x, hs, hj⟩
    · cases x with
      | nil => simp_all
      | cons e x =>
        simp only [List.cons_append, List.cons.injEq] at hi
        obtain ⟨rfl, rfl⟩ := hi
        exact Or.inr (Or.inl ⟨x, ht, rfl⟩)
    · cases x with
      | nil => simp_all
      | cons e x =>
        simp only [List.cons_append, List.cons.injEq] at hj
        obtain ⟨rfl, rfl⟩ := hj
        exact Or.inr (Or.inr ⟨x, hs, rfl⟩)
  · rintro (⟨rfl, rfl⟩ | ⟨x, rfl, rfl⟩ | ⟨x, rfl, rfl⟩) <;> simp

end NeonWrt.Lib
