import NeonWrt.Lib.CString

/-!
# Lines of a file

`fgets` reads a file line by line, each line with its newline, as long as the
lines fit its buffer; a longer line is read in pieces.
-/

namespace NeonWrt.Lib

/-- What `fgets` reads, one buffer of `size` bytes after the other. -/
def fgetsLines (size : ℕ) : (line : Bytes) → Bytes → List Bytes
  | line, [] => if line = [] then [] else [line]
  | line, c :: input =>
    if c = 10 ∨ line.length + 2 = size then (line ++ [c]) :: fgetsLines size [] input
    else fgetsLines size (line ++ [c]) input

/-- Lines end with a newline each, the last one perhaps without. -/
def IsLines : List Bytes → Prop
  | [] => True
  | [l] => l ≠ [] ∧ 10 ∉ l.dropLast
  | l :: ls => (l.getLast? = some 10 ∧ 10 ∉ l.dropLast) ∧ IsLines ls

instance IsLines.decide : (ls : List Bytes) → Decidable (IsLines ls)
  | [] => isTrue trivial
  | [l] => inferInstanceAs (Decidable (l ≠ [] ∧ 10 ∉ l.dropLast))
  | l :: l' :: ls =>
    have := IsLines.decide (l' :: ls)
    inferInstanceAs (Decidable ((l.getLast? = some 10 ∧ 10 ∉ l.dropLast) ∧ IsLines (l' :: ls)))

/-- A line with its newline is read when it fits the buffer. -/
theorem fgetsLines_line {size : ℕ} (line t input : Bytes) (ht : 10 ∉ t)
    (hlen : line.length + t.length + 1 < size) :
    fgetsLines size line (t ++ 10 :: input) = (line ++ (t ++ [10])) :: fgetsLines size [] input := by
  induction t generalizing line with
  | nil => simp [fgetsLines]
  | cons c t ih =>
    rw [List.length_cons] at hlen
    have hc : ¬ (c = 10 ∨ line.length + 2 = size) := by
      rintro (rfl | h)
      · exact ht (by simp)
      · omega
    rw [List.cons_append, fgetsLines, if_neg hc, ih]
    · simp
    · exact fun h => ht (by simp [h])
    · simp only [List.length_append, List.length_singleton]
      omega

theorem fgetsLines_last {size : ℕ} (line t : Bytes) (hne : t ≠ []) (ht : 10 ∉ t)
    (hlen : line.length + t.length < size) : fgetsLines size line t = [line ++ t] := by
  induction t generalizing line with
  | nil => exact absurd rfl hne
  | cons c t ih =>
    have hc : c ≠ 10 := fun h => ht (by simp [h])
    rw [List.length_cons] at hlen
    cases t with
    | nil =>
      rw [fgetsLines]
      split_ifs <;> simp [fgetsLines]
    | cons d t =>
      rw [List.length_cons] at hlen
      have hgo : ¬ (c = 10 ∨ line.length + 2 = size) := by
        rintro (h | h)
        · exact hc h
        · omega
      rw [fgetsLines, if_neg hgo, ih]
      · simp
      · simp
      · exact fun h => ht (by simp [h])
      · simp only [List.length_append, List.length_cons, List.length_nil]
        omega

/-- The lines of a file are read one by one. -/
theorem fgetsLines_flatten {size : ℕ} {ls : List Bytes} (h : IsLines ls)
    (hlen : ∀ l ∈ ls, l.length < size) : fgetsLines size [] ls.flatten = ls := by
  induction ls with
  | nil => rfl
  | cons l ls ih =>
    have hl := hlen l (by simp)
    cases ls with
    | nil =>
      obtain ⟨hne, hinner⟩ := h
      rw [List.flatten_cons, List.flatten_nil, List.append_nil]
      have hsplit := List.dropLast_append_getLast hne
      by_cases hlast : l.getLast hne = 10
      · rw [hlast] at hsplit
        rw [← hsplit, List.length_append, List.length_singleton] at hl
        have hline := fgetsLines_line [] l.dropLast [] hinner (by simpa using hl)
        rw [hsplit] at hline
        exact hline
      · refine fgetsLines_last [] l hne (fun hmem => ?_) (by simpa using hl)
        rw [← hsplit] at hmem
        rcases List.mem_append.mp hmem with hmem | hmem
        · exact hinner hmem
        · exact hlast (List.mem_singleton.mp hmem).symm
    | cons l' ls =>
      obtain ⟨⟨hend, ht⟩, hrest⟩ := h
      have hsplit := List.dropLast_append_getLast? 10 hend
      generalize l.dropLast = t at hsplit ht
      rw [← hsplit] at hl ⊢
      rw [List.length_append, List.length_singleton] at hl
      rw [List.flatten_cons, List.append_assoc, List.singleton_append,
        fgetsLines_line [] t _ ht (by simpa using hl), ih hrest fun l hl => hlen l (by simp [hl])]
      rfl

/-- The lines of a text, each with its newline. -/
def textLines : Bytes → List Bytes
  | [] => []
  | c :: text =>
    if c = 10 then [c] :: textLines text
    else match textLines text with
      | [] => [[c]]
      | l :: ls => (c :: l) :: ls

@[simp] theorem flatten_textLines (text : Bytes) : (textLines text).flatten = text := by
  induction text with
  | nil => rfl
  | cons c text ih =>
    rw [textLines]
    split
    · rw [List.flatten_cons, ih]
      rfl
    · cases hls : textLines text with
      | nil =>
        rw [hls] at ih
        simpa using ih
      | cons l ls =>
        rw [hls] at ih
        simpa using ih

theorem isLines_textLines (text : Bytes) : IsLines (textLines text) := by
  induction text with
  | nil => trivial
  | cons c text ih =>
    rw [textLines]
    split
    next hc =>
      subst hc
      cases hls : textLines text with
      | nil => exact ⟨by simp, by simp⟩
      | cons l ls => exact ⟨by simp, hls ▸ ih⟩
    next hc =>
      have hne : ∀ l ls, textLines text = l :: ls → l ≠ [] := by
        rintro l ls hls rfl
        rw [hls] at ih
        cases ls with
        | nil => exact ih.1 rfl
        | cons l' ls => simpa using ih.1.1
      -- The character in front belongs to the first of the lines that follow.
      cases hls : textLines text with
      | nil => exact ⟨by simp, by simp⟩
      | cons l ls =>
        obtain ⟨d, l, rfl⟩ := List.exists_cons_of_ne_nil (hne l ls hls)
        rw [hls] at ih
        have hin (h : 10 ∉ (d :: l).dropLast) : 10 ∉ (c :: d :: l).dropLast := by
          rw [List.dropLast_cons₂, List.mem_cons, not_or]
          exact ⟨Ne.symm hc, h⟩
        cases ls with
        | nil => exact ⟨by simp, hin ih.2⟩
        | cons l' ls => exact ⟨⟨by rw [List.getLast?_cons_cons]; exact ih.1.1, hin ih.1.2⟩, ih.2⟩

/-- A text whose lines fit is read line by line. -/
theorem fgetsLines_textLines {size : ℕ} {text : Bytes}
    (h : ∀ l ∈ textLines text, l.length < size) : fgetsLines size [] text = textLines text := by
  conv_lhs => rw [← flatten_textLines text]
  exact fgetsLines_flatten (isLines_textLines text) h

end NeonWrt.Lib
