import NeonWrt.Lib.CString

/-!
# Replacing a text

Every occurrence of a text replaced by another one, from the left. A line stays as it
is if the text does not occur in it, and gets longer when something longer is put in.
-/

namespace NeonWrt.Lib

/-- The rest of a line, behind `skip` bytes that were replaced already. -/
def replaceFrom (p r : Bytes) : ℕ → Bytes → Bytes
  | _, [] => []
  | skip + 1, _ :: t => replaceFrom p r skip t
  | 0, c :: t =>
    if p <+: c :: t then r ++ replaceFrom p r (p.length - 1) t else c :: replaceFrom p r 0 t

/-- Each `p`, from the left, replaced by `r`. -/
def replaceAll (p r t : Bytes) : Bytes := replaceFrom p r 0 t

section Replace

variable {p r t : Bytes}

theorem replaceFrom_of_le : ∀ {skip : ℕ} {t : Bytes}, t.length ≤ skip → replaceFrom p r skip t = []
  | 0, [], _ => rfl
  | skip + 1, [], _ => rfl
  | skip + 1, c :: t, h => by
    rw [replaceFrom]
    exact replaceFrom_of_le (Nat.le_of_succ_le_succ h)

theorem replaceAll_self (h : p ≠ []) : replaceAll p r p = r := by
  cases p with
  | nil => exact absurd rfl h
  | cons c t =>
    rw [replaceAll, replaceFrom, if_pos (List.prefix_refl _), replaceFrom_of_le (by simp),
      List.append_nil]

theorem replaceAll_of_not_infix (h : ¬ p <:+: t) : replaceAll p r t = t := by
  induction t with
  | nil => rfl
  | cons c t ih =>
    rw [List.infix_cons_iff, not_or] at h
    rw [replaceAll, replaceFrom, if_neg h.1, ← replaceAll, ih h.2]

/-- What is put in is not shorter than what it replaces. -/
theorem le_length_replaceFrom (hne : p ≠ []) (h : p.length ≤ r.length) (skip : ℕ) (t : Bytes) :
    t.length ≤ skip + (replaceFrom p r skip t).length := by
  have hpos := List.length_pos_iff.mpr hne
  induction t generalizing skip with
  | nil => exact Nat.zero_le _
  | cons c t ih =>
    cases skip with
    | zero =>
      rw [replaceFrom]
      split_ifs with hp
      · -- what is skipped was paid for by what was put in
        have hrest := ih (p.length - 1)
        rw [List.length_cons, List.length_append]
        omega
      · have hrest := ih 0
        rw [List.length_cons, List.length_cons]
        omega
    | succ skip =>
      have hrest := ih skip
      rw [replaceFrom, List.length_cons]
      omega

/-- Where the text occurs, the line gets longer. -/
theorem length_lt_replaceAll (hne : p ≠ []) (h : p.length < r.length) (hin : p <:+: t) :
    t.length < (replaceAll p r t).length := by
  have hpos := List.length_pos_iff.mpr hne
  induction t with
  | nil => exact absurd (List.infix_nil.mp hin) hne
  | cons c t ih =>
    rw [replaceAll, replaceFrom]
    split_ifs with hp
    · have hrest := le_length_replaceFrom hne h.le (p.length - 1) t
      rw [List.length_cons, List.length_append]
      omega
    · rcases List.infix_cons_iff.mp hin with hprefix | hrest
      · exact absurd hprefix hp
      · have hlt := ih hrest
        rw [List.length_cons, List.length_cons, ← replaceAll]
        omega

theorem replaceAll_eq_self_iff (hne : p ≠ []) (h : p.length < r.length) :
    replaceAll p r t = t ↔ ¬ p <:+: t := by
  refine ⟨fun heq hin => ?_, replaceAll_of_not_infix⟩
  have hlt := length_lt_replaceAll hne h hin
  rw [heq] at hlt
  exact absurd hlt (lt_irrefl _)

end Replace

section Infix

variable {c : UInt8} {u a b : Bytes} {words : List Bytes}

/-- A text without the separator lies before it or after it. -/
theorem infix_append_cons_iff (h : c ∉ u) : u <:+: a ++ c :: b ↔ u <:+: a ∨ u <:+: b := by
  constructor
  · rintro ⟨front, back, heq⟩
    rw [List.append_assoc] at heq
    rcases List.append_eq_append_iff.mp heq with ⟨mid, rfl, hmid⟩ | ⟨mid, rfl, hmid⟩
    · -- the text begins before the separator, and cannot go on behind it
      rcases List.append_eq_append_iff.mp hmid with ⟨rest, rfl, -⟩ | ⟨rest, hu, hback⟩
      · exact .inl ⟨front, rest, by rw [List.append_assoc]⟩
      · cases rest with
        | nil => exact .inl ⟨front, [], by rw [hu, List.append_nil, List.append_nil]⟩
        | cons d rest =>
          rw [List.cons_append, List.cons.injEq] at hback
          rw [hu, ← hback.1] at h
          exact absurd (by simp) h
    · -- it begins at the separator or behind it
      cases mid with
      | nil =>
        rw [List.nil_append] at hmid
        cases u with
        | nil => exact .inl (List.nil_infix)
        | cons d u =>
          rw [List.cons_append, List.cons.injEq] at hmid
          exact absurd (hmid.1 ▸ List.mem_cons_self) h
      | cons d mid =>
        rw [List.cons_append, List.cons.injEq] at hmid
        exact .inr ⟨mid, back, by rw [List.append_assoc, hmid.2]⟩
  · rintro (⟨front, back, rfl⟩ | ⟨front, back, rfl⟩)
    · exact ⟨front, back ++ c :: b, by simp⟩
    · exact ⟨a ++ c :: front, back, by simp⟩

/-- A text without the separator lies in one of the words. -/
theorem infix_join_iff (h : c ∉ u) (hne : u ≠ []) : u <:+: join c words ↔ ∃ w ∈ words, u <:+: w := by
  induction words with
  | nil => simp [hne]
  | cons w words ih =>
    cases words with
    | nil => simp [join]
    | cons v words =>
      have hjoin : join c (w :: v :: words) = w ++ c :: join c (v :: words) := by
        simp [join, List.intercalate]
      rw [hjoin, infix_append_cons_iff h, ih]
      simp

/-- Words without the separator are known from the text that joins them. -/
theorem join_inj {words' : List Bytes} (h : ∀ w ∈ words, w ≠ [] ∧ c ∉ w)
    (h' : ∀ w ∈ words', w ≠ [] ∧ c ∉ w) (heq : join c words = join c words') : words = words' := by
  rcases eq_or_ne words [] with rfl | hne
  · exact ((join_eq_nil_iff fun w hw => (h' w hw).1).mp heq.symm).symm
  rcases eq_or_ne words' [] with rfl | hne'
  · exact (join_eq_nil_iff fun w hw => (h w hw).1).mp heq
  rw [← splitOn_join hne fun w hw => (h w hw).2, heq, splitOn_join hne' fun w hw => (h' w hw).2]

end Infix

end NeonWrt.Lib
