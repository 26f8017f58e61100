import NeonWrt.Lib.Block

/-!
# Symbols of UTF-8 texts

A continuation byte belongs to the symbol of the byte before it, which is not
ASCII. An index into a text is at the start of a symbol when no continuation
byte stands there. Inserting a byte there and deleting up to such an index keep
it so.
-/

namespace NeonWrt.Lib

/-- A continuation byte, `10xxxxxx`. -/
def isUtf8Cont (c : UInt8) : Bool := c &&& 0xc0 == 0x80

/-- No continuation byte stands at the start of a text or behind ASCII. -/
def Attached (text : Bytes) : Prop :=
  ∀ i c, text[i]? = some c → isUtf8Cont c = true → ∃ j d, i = j + 1 ∧ text[j]? = some d ∧ 128 ≤ d

/-- The index is at the start of a symbol, or at the end of the text. -/
structure AtSymbol (text : Bytes) (pos : ℕ) : Prop where
  attached : Attached text
  start : StopsAt text isUtf8Cont pos

section Symbols

variable {text : Bytes} {pos : ℕ}

theorem attached_nil : Attached [] := fun _ _ h => by simp at h

theorem Attached.atSymbol_zero (h : Attached text) : AtSymbol text 0 where
  attached := h
  start c hc := by
    by_contra hcont
    obtain ⟨j, _, hj, -⟩ := h 0 c hc (by simpa using hcont)
    omega

theorem Attached.atSymbol_length (h : Attached text) : AtSymbol text text.length :=
  ⟨h, fun c hc => by simp at hc⟩

theorem Attached.atSymbol_succ (h : Attached text) {d : UInt8} (hd : text[pos]? = some d)
    (hascii : d < 128) : AtSymbol text (pos + 1) where
  attached := h
  start c hc := by
    by_contra hcont
    obtain ⟨j, e, hj, he, hhigh⟩ := h (pos + 1) c hc (by simpa using hcont)
    obtain rfl : j = pos := by omega
    rw [hd] at he
    cases he
    exact absurd hhigh (by simpa using hascii)

namespace AtSymbol

/-- A byte that is inserted is followed by the start of a symbol. -/
theorem insert (h : AtSymbol text pos) (hpos : pos ≤ text.length) {c : UInt8}
    (hc : isUtf8Cont c = true → ∃ j d, pos = j + 1 ∧ text[j]? = some d ∧ 128 ≤ d) :
    AtSymbol (text.take pos ++ c :: text.drop pos) (pos + 1) := by
  have htake : (text.take pos).length = pos := List.length_take_of_le hpos
  have hlow : ∀ j < pos, (text.take pos ++ c :: text.drop pos)[j]? = text[j]? := fun j hj => by
    rw [List.getElem?_append_left (by omega), List.getElem?_take_of_lt hj]
  have hat : (text.take pos ++ c :: text.drop pos)[pos]? = some c := by
    rw [List.getElem?_append_right (by omega), htake, Nat.sub_self]
    rfl
  have hhigh : ∀ j, (text.take pos ++ c :: text.drop pos)[pos + 1 + j]? = text[pos + j]? := by
    intro j
    rw [List.getElem?_append_right (by omega), htake,
      show pos + 1 + j - pos = j + 1 by omega, List.getElem?_cons_succ, List.getElem?_drop]
  refine ⟨fun i e he hcont => ?_, fun e he => ?_⟩
  · rcases Nat.lt_trichotomy i pos with hlt | rfl | hgt
    · rw [hlow i hlt] at he
      obtain ⟨j, d, rfl, hd, hge⟩ := h.attached i e he hcont
      exact ⟨j, d, rfl, by rwa [hlow j (by omega)], hge⟩
    · rw [hat] at he
      cases he
      obtain ⟨j, d, rfl, hd, hge⟩ := hc hcont
      exact ⟨j, d, rfl, by rwa [hlow j (by omega)], hge⟩
    · obtain ⟨k, rfl⟩ : ∃ k, i = pos + 1 + k := ⟨i - (pos + 1), by omega⟩
      rw [hhigh] at he
      rcases k with _ | k
      · rw [h.start e he] at hcont
        cases hcont
      · obtain ⟨j, d, hj, hd, hge⟩ := h.attached _ e he hcont
        exact ⟨pos + 1 + k, d, rfl, by rw [hhigh, ← hd]; congr 1; omega, hge⟩
  · have := hhigh 0
    rw [Nat.add_zero, Nat.add_zero] at this
    rw [this] at he
    exact h.start e he

/-- Bytes up to the start of a symbol are deleted. -/
theorem delete {n : ℕ} (h : AtSymbol text (pos + n)) (hpos : pos ≤ text.length) :
    AtSymbol (text.take pos ++ text.drop (pos + n)) pos := by
  have htake : (text.take pos).length = pos := List.length_take_of_le hpos
  have hlow : ∀ j < pos, (text.take pos ++ text.drop (pos + n))[j]? = text[j]? := fun j hj => by
    rw [List.getElem?_append_left (by omega), List.getElem?_take_of_lt hj]
  have hhigh : ∀ j, (text.take pos ++ text.drop (pos + n))[pos + j]? = text[pos + n + j]? := by
    intro j
    rw [List.getElem?_append_right (by omega), htake, Nat.add_sub_cancel_left, List.getElem?_drop]
  refine ⟨fun i e he hcont => ?_, fun e he => h.start e ?_⟩
  · rcases Nat.lt_or_ge i pos with hlt | hge
    · rw [hlow i hlt] at he
      obtain ⟨j, d, rfl, hd, hge⟩ := h.attached i e he hcont
      exact ⟨j, d, rfl, by rwa [hlow j (by omega)], hge⟩
    · obtain ⟨k, rfl⟩ : ∃ k, i = pos + k := ⟨i - pos, by omega⟩
      rw [hhigh] at he
      rcases k with _ | k
      · rw [h.start e he] at hcont
        cases hcont
      · obtain ⟨j, d, hj, hd, hge⟩ := h.attached _ e he hcont
        exact ⟨pos + k, d, rfl, by rw [hhigh, ← hd]; congr 1; omega, hge⟩
  · have := hhigh 0
    rwa [Nat.add_zero, Nat.add_zero, he, eq_comm] at this

end AtSymbol

end Symbols

end NeonWrt.Lib
