import Mathlib.Data.List.DropRight

/-!
# Blanks in texts

Programs that compare texts bring them to a canonical form first: no blanks at the
ends, and single spaces inside. Which characters count as blanks is a parameter, and
so is the encoding of the text.
-/

namespace NeonWrt.Lib

variable {α β : Type*}

/-- The text without leading and trailing blanks. -/
def trimBy (p : α → Bool) (s : List α) : List α := (s.dropWhile p).rdropWhile p

/-- Every run of blanks becomes one `sp`. A blank that stands before the text, as `prev`
says, absorbs the blanks that the text starts with. -/
def squeeze (p : α → Bool) (sp : α) : Bool → List α → List α
  | _, [] => []
  | prev, c :: s =>
    if p c then (if prev then squeeze p sp true s else sp :: squeeze p sp true s)
    else c :: squeeze p sp false s

section Squeeze

variable {p : α → Bool} {sp : α}

@[simp] theorem squeeze_nil (prev : Bool) : squeeze p sp prev [] = [] := rfl

theorem head_dropWhile (s : List α) : ∀ c ∈ (s.dropWhile p).head?, p c = false := by
  intro c hc
  have := List.head?_dropWhile_not p s
  rw [Option.mem_def.mp hc] at this
  simpa using this

/-- After a blank, the blanks a text starts with are dropped. -/
theorem squeeze_true (s : List α) :
    squeeze p sp true s = squeeze p sp false (s.dropWhile p) := by
  induction s with
  | nil => rfl
  | cons c s ih =>
    by_cases hc : p c = true
    · rw [List.dropWhile_cons_of_pos hc, ← ih]
      simp [squeeze, hc]
    · rw [List.dropWhile_cons_of_neg hc]
      simp [squeeze, hc]

/-- Whether a blank stands right after `s`. -/
def afterBlank (p : α → Bool) (prev : Bool) (s : List α) : Bool := (s.getLast?.map p).getD prev

theorem afterBlank_cons (prev : Bool) (c : α) (s : List α) :
    afterBlank p prev (c :: s) = afterBlank p (p c) s := by
  cases s with
  | nil => rfl
  | cons d s =>
    obtain ⟨e, he⟩ := Option.isSome_iff_exists.mp (List.getLast?_isSome.mpr (List.cons_ne_nil d s))
    simp only [afterBlank, List.getLast?_cons_cons, he, Option.map_some, Option.getD_some]

theorem squeeze_append (prev : Bool) (s t : List α) :
    squeeze p sp prev (s ++ t) = squeeze p sp prev s ++ squeeze p sp (afterBlank p prev s) t := by
  induction s generalizing prev with
  | nil => rfl
  | cons c s ih =>
    rw [afterBlank_cons]
    by_cases hc : p c = true
    · cases prev <;> simp [squeeze, hc, ih]
    · simp [squeeze, hc, ih]

theorem squeeze_of_all {b : List α} (h : ∀ c ∈ b, p c = true) (hb : b ≠ []) (prev : Bool) :
    squeeze p sp prev b = if prev then [] else [sp] := by
  have htrue : ∀ t : List α, (∀ c ∈ t, p c = true) → squeeze p sp true t = [] := by
    intro t ht
    rw [squeeze_true, List.dropWhile_eq_nil_iff.mpr ht]
    rfl
  cases b with
  | nil => exact absurd rfl hb
  | cons c b =>
    have hrest := htrue b fun d hd => h d (by simp [hd])
    cases prev <;> simp [squeeze, h c (by simp), hrest]

theorem mem_squeeze {prev : Bool} {s : List α} {c : α} (h : c ∈ squeeze p sp prev s) :
    c = sp ∨ (p c = false ∧ c ∈ s) := by
  induction s generalizing prev with
  | nil => simp at h
  | cons d s ih =>
    by_cases hd : p d = true
    · have hrest : c = sp ∨ c ∈ squeeze p sp true s := by
        cases prev
        · simpa [squeeze, hd] using h
        · exact Or.inr (by simpa [squeeze, hd] using h)
      rcases hrest with rfl | hrest
      · exact Or.inl rfl
      · exact (ih hrest).imp_right fun ⟨hc, hmem⟩ => ⟨hc, by simp [hmem]⟩
    · rw [squeeze, if_neg hd] at h
      rcases List.mem_cons.mp h with rfl | h
      · exact Or.inr ⟨by simpa using hd, by simp⟩
      · exact (ih h).imp_right fun ⟨hc, hmem⟩ => ⟨hc, by simp [hmem]⟩

theorem mem_squeeze_of_not {prev : Bool} {s : List α} {c : α} (hc : p c = false) (h : c ∈ s) :
    c ∈ squeeze p sp prev s := by
  induction s generalizing prev with
  | nil => simp at h
  | cons d s ih =>
    rcases List.mem_cons.mp h with rfl | h
    · simp [squeeze, hc]
    · by_cases hd : p d = true
      · cases prev <;> simp [squeeze, hd, ih h]
      · simp [squeeze, hd, ih h]

/-- Two notions of blank that agree on a text squeeze it to the same text. -/
theorem squeeze_congr {q : α → Bool} {s : List α} (h : ∀ c ∈ s, p c = q c) (prev : Bool) :
    squeeze p sp prev s = squeeze q sp prev s := by
  induction s generalizing prev with
  | nil => rfl
  | cons c s ih =>
    have hrest := ih fun d hd => h d (by simp [hd])
    simp [squeeze, h c (by simp), hrest]

theorem head?_squeeze {s : List α} (h : ∀ c ∈ s.head?, p c = false) :
    (squeeze p sp false s).head? = s.head? := by
  cases s with
  | nil => rfl
  | cons c s => simp [squeeze, h c rfl]

theorem getLast?_squeeze {s : List α} (h : ∀ c ∈ s.getLast?, p c = false) (prev : Bool) :
    (squeeze p sp prev s).getLast? = s.getLast? := by
  rcases List.eq_nil_or_concat s with rfl | ⟨s, c, rfl⟩
  · rfl
  · have hc : p c = false := h c (by simp)
    simp [List.concat_eq_append, squeeze_append, squeeze, hc]

end Squeeze

section Trim

variable {p : α → Bool}

/-- A text is blanks, its trimmed form, and blanks. -/
theorem exists_trimBy (p : α → Bool) (s : List α) :
    ∃ b b', s.dropWhile p = trimBy p s ++ b' ∧ s = b ++ trimBy p s ++ b' ∧
      (∀ c ∈ b, p c = true) ∧ ∀ c ∈ b', p c = true := by
  refine ⟨s.takeWhile p, (s.dropWhile p).rtakeWhile p, ?_, ?_, ?_, ?_⟩
  · exact (List.rdropWhile_append_rtakeWhile ..).symm
  · rw [List.append_assoc, trimBy, List.rdropWhile_append_rtakeWhile,
      List.takeWhile_append_dropWhile]
  · exact fun c hc => List.mem_takeWhile_imp hc
  · exact fun c hc => List.mem_rtakeWhile_imp hc

theorem getLast_trimBy (s : List α) : ∀ c ∈ (trimBy p s).getLast?, p c = false := by
  intro c hc
  have hne : trimBy p s ≠ [] := by
    intro hnil
    simp [hnil] at hc
  have hlast : ¬ p ((trimBy p s).getLast hne) = true :=
    List.rdropWhile_last_not p (s.dropWhile p) hne
  rw [Option.mem_def, List.getLast?_eq_some_getLast hne, Option.some.injEq] at hc
  simpa [← hc] using hlast

theorem head_trimBy (s : List α) : ∀ c ∈ (trimBy p s).head?, p c = false := by
  intro c hc
  obtain ⟨b, b', hdrop, -, -, -⟩ := exists_trimBy p s
  refine head_dropWhile s c ?_
  rw [hdrop]
  cases ht : trimBy p s with
  | nil => simp [ht] at hc
  | cons d t => simpa [ht] using hc

/-- The trimmed text is the only way to take the blanks off both ends. -/
theorem trimBy_eq_of_append {b t b' : List α} (hb : ∀ c ∈ b, p c = true)
    (hb' : ∀ c ∈ b', p c = true) (hhead : ∀ c ∈ t.head?, p c = false)
    (hlast : ∀ c ∈ t.getLast?, p c = false) : trimBy p (b ++ t ++ b') = t := by
  rw [trimBy, List.append_assoc, List.dropWhile_append_of_pos hb]
  cases t with
  | nil =>
    rw [List.nil_append, List.rdropWhile_eq_nil_iff]
    exact fun c hc => hb' c (List.dropWhile_subset p hc)
  | cons c t =>
    have hdrop : (c :: t ++ b').dropWhile p = c :: t ++ b' :=
      List.dropWhile_cons_of_neg (by simp [hhead c rfl])
    rw [hdrop, List.rdropWhile, List.reverse_append,
      List.dropWhile_append_of_pos (by simpa using hb')]
    refine List.rdropWhile_eq_self_iff.mpr fun hne => ?_
    simp [hlast ((c :: t).getLast hne) (by simp [List.getLast?_eq_some_getLast])]

theorem squeeze_trimBy_eq_nil_iff {sp : α} {s : List α} :
    squeeze p sp false (trimBy p s) = [] ↔ ∀ c ∈ s, p c = true := by
  have hhead := @head?_squeeze _ p sp _ (head_trimBy s)
  obtain ⟨b, b', -, hs, hb, hb'⟩ := exists_trimBy p s
  constructor
  · intro h
    rw [h, List.head?_nil, eq_comm, List.head?_eq_none_iff] at hhead
    rw [hhead, List.append_nil] at hs
    rw [hs]
    exact fun c hc => (List.mem_append.mp hc).elim (hb c) (hb' c)
  · intro h
    have hdrop : s.dropWhile p = [] := List.dropWhile_eq_nil_iff.mpr h
    rw [trimBy, hdrop]
    rfl

/-- Squeezing after a blank leaves at most one blank behind the squeezed trimmed text, and
none if there is no such text. -/
theorem squeeze_true_cases (sp : α) (s : List α) :
    squeeze p sp true s = squeeze p sp false (trimBy p s) ∨
      trimBy p s ≠ [] ∧ squeeze p sp true s = squeeze p sp false (trimBy p s) ++ [sp] := by
  obtain ⟨b, b', hdrop, -, -, hb'⟩ := exists_trimBy p s
  rw [squeeze_true, hdrop]
  by_cases hnil : b' = []
  · exact Or.inl (by rw [hnil, List.append_nil])
  · by_cases ht : trimBy p s = []
    · -- `dropWhile` would have dropped these blanks
      obtain ⟨c, b'', rfl⟩ := List.exists_cons_of_ne_nil hnil
      have hhead := head_dropWhile s c (by rw [hdrop, ht]; rfl)
      rw [hb' c (by simp)] at hhead
      exact absurd hhead (by decide)
    · refine Or.inr ⟨ht, ?_⟩
      have hafter : afterBlank p false (trimBy p s) = false := by
        obtain ⟨e, he⟩ := Option.isSome_iff_exists.mp (List.getLast?_isSome.mpr ht)
        rw [afterBlank, he, Option.map_some, Option.getD_some, getLast_trimBy s e he]
      rw [squeeze_append, hafter, squeeze_of_all hb' hnil]
      rfl

end Trim

section Words

variable {p : α → Bool} {sp : α}

/-- The words of a text, between blanks. -/
def wordsBy (p : α → Bool) (s : List α) : List (List α) := (s.splitOnP p).filter (!·.isEmpty)

theorem squeeze_of_not {s : List α} (h : ∀ c ∈ s, p c = false) (prev : Bool) :
    squeeze p sp prev s = s := by
  induction s generalizing prev with
  | nil => rfl
  | cons c s ih =>
    rw [List.forall_mem_cons] at h
    rw [squeeze, if_neg (by simp [h.1]), ih h.2]

theorem wordsBy_append_cons {c : α} (hc : p c = true) (s t : List α) :
    wordsBy p (s ++ c :: t) = wordsBy p s ++ wordsBy p t := by
  rw [wordsBy, List.splitOnP_append_cons s t hc, List.filter_append, wordsBy, wordsBy]

theorem ne_nil_of_mem_wordsBy {s w : List α} (h : w ∈ wordsBy p s) : w ≠ [] := by
  simpa using (List.mem_filter.mp h).2

/-- Squeezing after a blank leaves the words with a blank between any two, and at most one blank
behind the last, which does not end in one. -/
theorem squeeze_true_words (sp : α) (s : List α) :
    (squeeze p sp true s = [sp].intercalate (wordsBy p s) ∨
      wordsBy p s ≠ [] ∧ squeeze p sp true s = [sp].intercalate (wordsBy p s) ++ [sp]) ∧
      ∀ c ∈ ([sp].intercalate (wordsBy p s)).getLast?, p c = false := by
  induction hn : s.length using Nat.strong_induction_on generalizing s with
  | _ n ih =>
    have hfirst : ∀ c ∈ s.takeWhile (!p ·), p c = false := by
      intro c hc
      simpa using List.mem_takeWhile_imp hc
    have hone : wordsBy p (s.takeWhile (!p ·)) =
        if s.takeWhile (!p ·) = [] then [] else [s.takeWhile (!p ·)] := by
      rw [wordsBy, List.splitOnP_eq_singleton hfirst]
      cases s.takeWhile (!p ·) <;> rfl
    cases hrest : s.dropWhile (!p ·) with
    | nil =>
      -- the text is one word
      have hs : s.takeWhile (!p ·) = s := by
        have hall := List.takeWhile_append_dropWhile (p := (!p ·)) (l := s)
        rwa [hrest, List.append_nil] at hall
      rw [hs] at hfirst hone
      rw [squeeze_of_not hfirst, hone]
      split_ifs with hnil
      · exact ⟨Or.inl hnil, by simp⟩
      · rw [List.intercalate_singleton]
        exact ⟨Or.inl rfl, fun c hc => hfirst c (List.mem_of_getLast? hc)⟩
    | cons b r =>
      have hb : p b = true := by
        have := List.head?_dropWhile_not (!p ·) s
        rw [hrest] at this
        simpa using this
      obtain ⟨w, hw⟩ : ∃ w, w = s.takeWhile (!p ·) := ⟨_, rfl⟩
      have hs : s = w ++ b :: r := by
        rw [hw, ← hrest, List.takeWhile_append_dropWhile]
      rw [← hw] at hfirst hone
      have hlen : r.length < n := by
        rw [← hn, hs, List.length_append, List.length_cons]
        omega
      rw [hs, wordsBy_append_cons hb, hone, squeeze_append, squeeze_of_not hfirst]
      by_cases hnil : w = []
      · rw [hnil, if_pos rfl, List.nil_append, List.nil_append]
        simp only [afterBlank, List.getLast?_nil, Option.map_none, Option.getD_none, squeeze, hb,
          if_true]
        exact ih _ hlen r rfl
      · have hafter : afterBlank p true w = false := by
          obtain ⟨c, hc⟩ := Option.isSome_iff_exists.mp (List.getLast?_isSome.mpr hnil)
          rw [afterBlank, hc, Option.map_some, Option.getD_some,
            hfirst c (List.mem_of_getLast? hc)]
        have hstep : squeeze p sp false (b :: r) = sp :: squeeze p sp true r := by
          simp [squeeze, hb]
        rw [hafter, hstep, if_neg hnil, List.singleton_append]
        cases hwords : wordsBy p r with
        | nil =>
          have hr := ih _ hlen r rfl
          rw [hwords] at hr
          rcases hr.1 with hr | ⟨hne, -⟩
          · rw [List.intercalate_singleton]
            exact ⟨Or.inr ⟨by simp, by simp [hr]⟩, fun c hc => hfirst c (List.mem_of_getLast? hc)⟩
          · exact absurd rfl hne
        | cons v vs =>
          have hjoin : [sp].intercalate (w :: v :: vs) = w ++ sp :: [sp].intercalate (v :: vs) := by
            rw [List.intercalate_cons_cons, List.append_assoc, List.singleton_append]
          have hr := ih _ hlen r rfl
          rw [hwords] at hr
          rw [hjoin]
          refine ⟨?_, fun c hc => hr.2 c ?_⟩
          · rcases hr.1 with hr | ⟨-, hr⟩
            · exact Or.inl (by rw [hr])
            · exact Or.inr ⟨by simp, by rw [hr, List.append_assoc, List.cons_append]⟩
          · have hne : [sp].intercalate (v :: vs) ≠ [] := by
              have hv := ne_nil_of_mem_wordsBy (hwords ▸ List.mem_cons_self (a := v) (l := vs))
              cases vs <;> simp [List.intercalate_cons_cons, hv]
            obtain ⟨d, t, ht⟩ := List.exists_cons_of_ne_nil hne
            rw [ht] at hc ⊢
            rwa [List.getLast?_append_cons, List.getLast?_cons_cons] at hc

/-- A squeezed trimmed text is its words with one blank between any two. -/
theorem squeeze_trimBy_eq_words (hsp : p sp = true) (s : List α) :
    squeeze p sp false (trimBy p s) = [sp].intercalate (wordsBy p s) := by
  obtain ⟨hwords, hlast⟩ := squeeze_true_words (p := p) sp s
  have htrim : ∀ c ∈ (squeeze p sp false (trimBy p s)).getLast?, p c = false := by
    rw [getLast?_squeeze (getLast_trimBy s)]
    exact getLast_trimBy s
  rcases squeeze_true_cases (p := p) sp s with h | ⟨-, h⟩
  · rcases hwords with hw | ⟨-, hw⟩
    · exact h.symm.trans hw
    · rw [← h, hw] at htrim
      exact absurd (htrim sp (by simp)) (by simp [hsp])
  · rcases hwords with hw | ⟨-, hw⟩
    · rw [← hw, h] at hlast
      exact absurd (hlast sp (by simp)) (by simp [hsp])
    · exact List.append_cancel_right (h.symm.trans hw)

end Words

section Encodings

variable {e : α → List β} {p : α → Bool} {q : β → Bool}

/-- An encoding that keeps blanks and other characters apart: a blank is one unit, a blank
one, and no other character has a blank unit. -/
structure Encodes (e : α → List β) (p : α → Bool) (q : β → Bool) : Prop where
  blank : ∀ c, p c = true → ∃ u, e c = [u] ∧ q u = true
  other : ∀ c, p c = false → e c ≠ [] ∧ ∀ u ∈ e c, q u = false

theorem Encodes.reverse (h : Encodes e p q) : Encodes (fun c => (e c).reverse) p q where
  blank c hc := by
    obtain ⟨u, hu, hq⟩ := h.blank c hc
    exact ⟨u, by rw [hu, List.reverse_singleton], hq⟩
  other c hc := by
    obtain ⟨hne, hq⟩ := h.other c hc
    exact ⟨by simpa using hne, fun u hu => hq u (by simpa using hu)⟩

theorem Encodes.dropWhile (h : Encodes e p q) (s : List α) :
    (s.flatMap e).dropWhile q = (s.dropWhile p).flatMap e := by
  induction s with
  | nil => rfl
  | cons c s ih =>
    rw [List.flatMap_cons]
    cases hc : p c with
    | true =>
      obtain ⟨u, hu, hq⟩ := h.blank c hc
      rw [hu, List.dropWhile_cons_of_pos hc, List.singleton_append, List.dropWhile_cons_of_pos hq,
        ih]
    | false =>
      obtain ⟨hne, hq⟩ := h.other c hc
      obtain ⟨u, r, hu⟩ := List.exists_cons_of_ne_nil hne
      rw [List.dropWhile_cons_of_neg (by simp [hc]), hu, List.cons_append,
        List.dropWhile_cons_of_neg (by simp [hq u (by simp [hu])]), List.flatMap_cons, hu,
        List.cons_append]

theorem Encodes.rdropWhile (h : Encodes e p q) (s : List α) :
    (s.flatMap e).rdropWhile q = (s.rdropWhile p).flatMap e := by
  have hrev : ∀ t : List α, (t.flatMap e).reverse = t.reverse.flatMap fun c => (e c).reverse :=
    fun t => List.reverse_flatMap ..
  rw [List.rdropWhile, hrev, h.reverse.dropWhile, List.rdropWhile, List.reverse_flatMap]
  simp [Function.comp_def]

theorem Encodes.trimBy (h : Encodes e p q) (s : List α) :
    Lib.trimBy q (s.flatMap e) = (Lib.trimBy p s).flatMap e := by
  rw [Lib.trimBy, Lib.trimBy, h.dropWhile, h.rdropWhile]

theorem Encodes.squeeze (h : Encodes e p q) {sp : α} {u : β} (hsp : e sp = [u]) (prev : Bool)
    (s : List α) :
    Lib.squeeze q u prev (s.flatMap e) = (Lib.squeeze p sp prev s).flatMap e := by
  induction s generalizing prev with
  | nil => rfl
  | cons c s ih =>
    rw [List.flatMap_cons]
    cases hc : p c with
    | true =>
      obtain ⟨v, hv, hq⟩ := h.blank c hc
      cases prev <;> simp [Lib.squeeze, hv, hq, hc, hsp, ih]
    | false =>
      obtain ⟨hne, hq⟩ := h.other c hc
      have hkeep : ∀ (r t : List β) (prev : Bool), (∀ v ∈ r, q v = false) → r ≠ [] →
          Lib.squeeze q u prev (r ++ t) = r ++ Lib.squeeze q u false t := by
        intro r
        induction r with
        | nil => exact fun t prev _ hr => absurd rfl hr
        | cons v r ihr =>
          intro t prev hall _
          have hv := hall v (by simp)
          cases r with
          | nil => simp [Lib.squeeze, hv]
          | cons w r =>
            have hrest := ihr t false (fun x hx => hall x (List.mem_cons_of_mem v hx))
              (List.cons_ne_nil w r)
            rw [List.cons_append, Lib.squeeze, if_neg (by simp [hv]), hrest]
            rfl
      rw [hkeep _ _ prev hq hne, ih false, Lib.squeeze, if_neg (by simp [hc]), List.flatMap_cons]

end Encodings

section Compare

variable {B I J : α → Bool} {sp : α}

/-- Trimming by `J` and squeezing by `B` does what trimming and squeezing by `I` does,
for `B ≤ I ≤ J`, exactly on the texts that, trimmed by `I`, have no other inner blanks than
those of `B` and no character of `J` at either end. -/
theorem squeeze_trimBy_eq_iff (hBI : ∀ c, B c = true → I c = true)
    (hIJ : ∀ c, I c = true → J c = true) (hsp : B sp = true) (s : List α) :
    squeeze B sp false (trimBy J s) = squeeze I sp false (trimBy I s) ↔
      (∀ c ∈ trimBy I s, I c = true → B c = true) ∧
        (∀ c ∈ (trimBy I s).head?, J c = false) ∧ ∀ c ∈ (trimBy I s).getLast?, J c = false := by
  obtain ⟨b, b', -, hs, hb, hb'⟩ := exists_trimBy I s
  -- once the ends are right, both trims give the same text
  have htrim : (∀ c ∈ (trimBy I s).head?, J c = false) →
      (∀ c ∈ (trimBy I s).getLast?, J c = false) → trimBy J s = trimBy I s := by
    intro hhead hlast
    calc trimBy J s = trimBy J (b ++ trimBy I s ++ b') := by rw [← hs]
      _ = trimBy I s :=
        trimBy_eq_of_append (fun c hc => hIJ c (hb c hc)) (fun c hc => hIJ c (hb' c hc)) hhead hlast
  have hJB : ∀ c, J c = false → B c = false := by
    intro c hc
    by_contra hne
    rw [hIJ c (hBI c (by simpa using hne))] at hc
    exact absurd hc (by decide)
  constructor
  · intro h
    have hhead : ∀ c ∈ (trimBy I s).head?, J c = false := by
      intro c hc
      rw [← @head?_squeeze _ I sp _ (head_trimBy s), ← h,
        head?_squeeze fun d hd => hJB d (head_trimBy s d hd)] at hc
      exact head_trimBy s c hc
    have hlast : ∀ c ∈ (trimBy I s).getLast?, J c = false := by
      intro c hc
      rw [← @getLast?_squeeze _ I sp _ (getLast_trimBy s) false, ← h,
        getLast?_squeeze (fun d hd => hJB d (getLast_trimBy s d hd)) false] at hc
      exact getLast_trimBy s c hc
    refine ⟨fun c hc hI => ?_, hhead, hlast⟩
    rw [htrim hhead hlast] at h
    by_contra hB
    -- the one squeeze keeps the character, the other has no such character
    have hkept : c ∈ squeeze I sp false (trimBy I s) :=
      h ▸ mem_squeeze_of_not (by simpa using hB) hc
    rcases mem_squeeze hkept with rfl | ⟨hno, -⟩
    · exact hB hsp
    · rw [hI] at hno
      exact absurd hno (by decide)
  · rintro ⟨hinner, hhead, hlast⟩
    rw [htrim hhead hlast]
    refine squeeze_congr (fun c hc => ?_) false
    cases hI : I c with
    | true => exact hinner c hc hI
    | false =>
      by_contra hB
      rw [hBI c (by simpa using hB)] at hI
      exact absurd hI (by decide)

end Compare

end NeonWrt.Lib
