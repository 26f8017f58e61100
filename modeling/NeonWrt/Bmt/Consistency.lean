import NeonWrt.Bmt.Lossless

/-!
# Reads return what was written

In a run of reads, writes and erasures whose remaps all lose nothing, a read that
succeeds returns for each page what was last written or erased successfully, unless
a later write or erasure of that page failed. In other runs it need not: a block
that is remapped because a page of it cannot be read is copied up to that page
only, and the pages from there on then read as erased.
-/

namespace NeonWrt.Bmt

open Lib
open Nmbm (Faults Chip Geometry eUclean pagesPerBlock)

/-- The use of the chip changes no other block, and in its block only pages that a remap does not
keep. -/
structure Local (g : Geometry) (attempt : ℕ → Chip → Chip × ℤ) (copyLen stop : ℕ) : Prop where
  other : ∀ cur c ba, ba ≠ cur → (attempt cur c).1.pages ba = c.pages ba
  rest : ∀ cur c p, p < pagesPerBlock g → ¬ (copyLen ≤ p * g.pgSize ∧ p < stop) →
    (attempt cur c).1.pages cur p = c.pages cur p

section Tries

variable {flt : Faults} {fuel block copyLen stop n : ℕ} {attempt : ℕ → Chip → Chip × ℤ}
  {good : ℤ → Bool} {ret : ℤ} {s : Backend} {t : Tried}

theorem attempt_agree (h : s.Inv) (hblock : block < s.logicalBlocks) {cur : ℕ}
    (hcur : s.getMappingBlock block = cur) (hlocal : Local s.board.g attempt copyLen stop) :
    Agree (uncopied s.board.g block copyLen stop) s (s.withChip (attempt cur s.chip).1) where
  board := Backend.board_withChip
  blocks := Backend.logicalBlocks_withChip
  page := by
    intro b hb p hp hS
    by_cases hbb : b = block
    · subst hbb
      have hcur' : (s.withChip (attempt cur s.chip).1).getMappingBlock b = cur := by simpa using hcur
      rw [Backend.page_of_eq hcur', Backend.page_of_eq hcur, Backend.chip_withChip,
        hlocal.rest cur s.chip p hp fun hp' => hS ⟨rfl, hp'⟩]
    · refine page_eq (Backend.getMappingBlock_withChip b) fun pb hpb => ?_
      -- no other logical block lies on the block that is used
      have hne : pb ≠ cur := by
        rintro rfl
        exact hbb (h.1 b hb block hblock (by omega) (hpb.trans hcur.symm))
      rw [Backend.chip_withChip, hlocal.other cur s.chip pb hne]

/-- What one try can do: the block is not mapped, the chip does its work, or the block is remapped
and perhaps tried again. -/
theorem tries_cases (hrun : tries flt fuel attempt good block copyLen stop n ret s = some t) :
    (s.getMappingBlock block < 0 ∧ t = ⟨s, eIo, none, []⟩) ∨
    ∃ cur : ℕ, s.getMappingBlock block = cur ∧
      ((good (attempt cur s.chip).2 = true ∧ ∃ ret',
        t = ⟨s.withChip (attempt cur s.chip).1, ret', some (cur, (attempt cur s.chip).2), []⟩) ∨
      (good (attempt cur s.chip).2 = false ∧ ∃ u b,
        (s.withChip (attempt cur s.chip).1).mtkBmtRemapBlock flt fuel block cur copyLen =
            some (u, b) ∧
          (t = ⟨u, (attempt cur s.chip).2, none,
              [⟨s.withChip (attempt cur s.chip).1, block, cur, copyLen, stop⟩]⟩ ∨
            ∃ m t', n = m + 1 ∧
              tries flt fuel attempt good block copyLen stop m (attempt cur s.chip).2 u = some t' ∧
              t = { t' with remaps :=
                ⟨s.withChip (attempt cur s.chip).1, block, cur, copyLen, stop⟩ :: t'.remaps }))) := by
  rw [tries.eq_def] at hrun
  dsimp only at hrun
  by_cases hneg : s.getMappingBlock block < 0
  · rw [if_pos hneg] at hrun
    exact .inl ⟨hneg, (Option.some.inj hrun).symm⟩
  obtain ⟨cur, hcur⟩ := Int.eq_ofNat_of_zero_le (not_lt.mp hneg)
  rw [if_neg hneg] at hrun
  rw [hcur, Int.toNat_natCast] at hrun
  refine .inr ⟨cur, hcur, ?_⟩
  by_cases hgood : good (attempt cur s.chip).2 = true
  · rw [if_pos hgood] at hrun
    exact .inl ⟨hgood, _, (Option.some.inj hrun).symm⟩
  rw [if_neg hgood] at hrun
  obtain ⟨⟨u, b⟩, hremap, hrest⟩ := Option.bind_eq_some_iff.mp hrun
  refine .inr ⟨by simpa using hgood, u, b, hremap, ?_⟩
  cases n with
  | zero => exact .inl (Option.some.inj hrest).symm
  | succ m =>
    dsimp only at hrest
    split_ifs at hrest
    · obtain ⟨t', ht', rfl⟩ := Option.map_eq_some_iff.mp hrest
      exact .inr ⟨m, t', rfl, ht', rfl⟩
    · exact .inl (Option.some.inj hrest).symm

/-- What the tries at a block leave. -/
structure TriesOk (attempt : ℕ → Chip → Chip × ℤ) (good : ℤ → Bool) (block copyLen stop : ℕ)
    (s : Backend) (t : Tried) : Prop where
  inv : t.state.Inv
  agree : Agree (uncopied s.board.g block copyLen stop) s t.state
  failed : t.got = none → t.ret = eIo ∨ good t.ret = false
  got : ∀ cur r, t.got = some (cur, r) → good r = true ∧ t.state.getMappingBlock block = cur ∧
    ∃ c, attempt cur c = (t.state.chip, r)

theorem tries_ok (h : s.Inv) (hblock : block < s.logicalBlocks)
    (hlocal : Local s.board.g attempt copyLen stop)
    (hrun : tries flt fuel attempt good block copyLen stop n ret s = some t)
    (hok : ∀ e ∈ t.remaps, RemapOk flt e) : TriesOk attempt good block copyLen stop s t := by
  induction n using Nat.strong_induction_on generalizing ret s t with
  | _ n ih =>
    obtain ⟨-, rfl⟩ | ⟨cur, hcur, hcases⟩ := tries_cases hrun
    · exact ⟨h, .refl _ _, fun _ => .inl rfl, by simp⟩
    have hagree := attempt_agree h hblock hcur hlocal
    -- a failed try, with the remap that follows it
    have hkept := fun u b hremap hmem => @remap_agree flt fuel block cur copyLen stop
      (s.withChip (attempt cur s.chip).1) u b (h.withChip _) (by simpa using hblock)
      (by simpa using hcur) (hok _ hmem) hremap
    rw [Backend.board_withChip] at hkept
    obtain ⟨hgood, ret', rfl⟩ | ⟨hbad, u, b, hremap, rfl | ⟨m, t', hm, ht', rfl⟩⟩ := hcases
    · refine ⟨h.withChip _, hagree, by simp, fun cur' r hgot => ?_⟩
      obtain ⟨rfl, rfl⟩ := Prod.mk.inj (Option.some.inj hgot)
      exact ⟨hgood, by simpa using hcur, s.chip, by simp⟩
    · obtain ⟨hinv, hrest⟩ := hkept u b hremap (List.mem_singleton_self _)
      exact ⟨hinv, hagree.trans hrest, fun _ => .inr hbad, by simp⟩
    · obtain ⟨hinv, hrest⟩ := hkept u b hremap List.mem_cons_self
      have hfirst := hagree.trans hrest
      have hrec := ih m (by omega) hinv (by rw [hfirst.blocks]; exact hblock)
        (by rw [hfirst.board]; exact hlocal) ht' fun e he => hok e (List.mem_cons_of_mem _ he)
      have hsecond := hrec.agree
      rw [hfirst.board] at hsecond
      exact ⟨hrec.inv, hfirst.trans hsecond, hrec.failed, hrec.got⟩

end Tries

/-- The contents of a logical page, by its number. -/
def Backend.pageAt (s : Backend) (P : ℕ) : Option Bytes :=
  s.page (P / pagesPerBlock s.board.g) (P % pagesPerBlock s.board.g)

/-- The number of logical pages. -/
def Backend.pageCount (s : Backend) : ℕ := s.logicalBlocks * pagesPerBlock s.board.g

section Accesses

variable {flt : Faults} {fuel k addr n : ℕ} {s s' : Backend} {S : ℕ → ℕ → Prop}

theorem Agree.pageCount (h : Agree S s s') : s'.pageCount = s.pageCount := by
  rw [Backend.pageCount, Backend.pageCount, h.blocks, h.board]

theorem Agree.pageAt {P : ℕ} (h : Agree S s s') (hP : P < s.pageCount)
    (hS : ¬ S (P / pagesPerBlock s.board.g) (P % pagesPerBlock s.board.g)) :
    s'.pageAt P = s.pageAt P := by
  have hpos : 0 < pagesPerBlock s.board.g := Nat.pos_of_mul_pos_left (Nat.zero_lt_of_lt hP)
  rw [Backend.pageAt, h.board]
  exact h.page _ ((Nat.div_lt_iff_lt_mul hpos).mpr hP) _ (Nat.mod_lt _ hpos) hS

theorem page_mul_lt (g : Geometry) {p : ℕ} (hp : p < pagesPerBlock g) : p * g.pgSize < g.blkSize := by
  have hle : pagesPerBlock g * g.pgSize ≤ g.blkSize := Nat.div_mul_le_self ..
  exact ((Nat.mul_lt_mul_right g.pgSize_pos).mpr hp).trans_le hle

/-- A remap that copies the whole block leaves no page out. -/
theorem not_uncopied_blkSize {g : Geometry} {block stop b p : ℕ} (hp : p < pagesPerBlock g) :
    ¬ uncopied g block g.blkSize stop b p := by
  rintro ⟨-, hle, -⟩
  have hlt := page_mul_lt g hp
  omega

theorem readPages_local (g : Geometry) (copyLen stop : ℕ) : Local g (readPages flt) copyLen stop :=
  ⟨fun _ _ _ _ => rfl, fun _ _ _ _ _ => rfl⟩

theorem remapFlips_ok {block cur : ℕ} {r : ℤ} {u : Backend × List Remap} (h : s.Inv)
    (hblock : block < s.logicalBlocks) (hcur : s.getMappingBlock block = cur)
    (hrun : remapFlips flt fuel block cur r s = some u) (hok : ∀ e ∈ u.2, RemapOk flt e) :
    u.1.Inv ∧ Agree (fun _ _ => False) s u.1 := by
  rw [remapFlips] at hrun
  split_ifs at hrun
  · obtain ⟨⟨v, b⟩, hremap, rfl⟩ := Option.map_eq_some_iff.mp hrun
    obtain ⟨hinv, hagree⟩ := remap_agree h hblock hcur (hok _ (List.mem_singleton_self _)) hremap
    exact ⟨hinv, hagree.mono fun b p hp => not_uncopied_blkSize hp⟩
  · obtain rfl := Option.some.inj hrun
    exact ⟨h, .refl _ _⟩

/-- A block has a page after any page address, so each round of an access makes progress. -/
theorem span_pos (hpos : 0 < pagesPerBlock s.board.g) :
    addr % pagesPerBlock s.board.g < pagesPerBlock s.board.g := Nat.mod_lt _ hpos

/-- The pages of one round lie in one block. -/
theorem div_mod_of_span {q i : ℕ} (h : addr % q + i < q) :
    (addr + i) / q = addr / q ∧ (addr + i) % q = addr % q + i := by
  have hq : 0 < q := by omega
  have heq : addr + i = (addr % q + i) + q * (addr / q) := by
    have hdiv := Nat.mod_add_div addr q
    omega
  rw [heq, Nat.add_mul_div_left _ _ hq, Nat.div_eq_of_lt h, Nat.zero_add, Nat.add_mul_mod_self_left,
    Nat.mod_eq_of_lt h]
  exact ⟨rfl, rfl⟩

/-- An access that has pages left lies in the range of the blocks. -/
theorem block_lt (hpos : 0 < pagesPerBlock s.board.g) (hin : addr + n ≤ s.pageCount) (hn : 0 < n) :
    addr / pagesPerBlock s.board.g < s.logicalBlocks :=
  (Nat.div_lt_iff_lt_mul hpos).mpr (by rw [Backend.pageCount] at hin; omega)

theorem TriesOk.ret_ne_zero {attempt : ℕ → Chip → Chip × ℤ} {good : ℤ → Bool}
    {block copyLen stop : ℕ} {t : Tried} (h : TriesOk attempt good block copyLen stop s t)
    (hgot : t.got = none) (hgood : good 0 = true) : t.ret ≠ 0 := by
  intro hret
  obtain heio | hbad := h.failed hgot
  · exact absurd (heio.symm.trans hret) (by decide)
  · rw [hret, hgood] at hbad
    cases hbad

/-- What a read leaves and returns. -/
structure ReadDone (addr n : ℕ) (s : Backend) (data : List Bytes) (d : Done × List Bytes) : Prop where
  inv : d.1.state.Inv
  agree : Agree (fun _ _ => False) s d.1.state
  got : readGood d.1.ret = true → ∃ got, d.2 = data ++ got ∧ got.length = n ∧
    ∀ i < n, s.pageAt (addr + i) = got[i]?

theorem readBlocks_ok {ret flips : ℤ} {data : List Bytes} {d : Done × List Bytes} (h : s.Inv)
    (hpos : 0 < pagesPerBlock s.board.g) (hin : addr + n ≤ s.pageCount) (hk : n ≤ k)
    (hrun : readBlocks flt fuel k addr n ret flips data s = some d)
    (hok : ∀ e ∈ d.1.remaps, RemapOk flt e) : ReadDone addr n s data d := by
  induction k generalizing addr n ret flips data s d with
  | zero =>
    obtain rfl : n = 0 := by omega
    obtain rfl := Option.some.inj hrun
    exact ⟨h, .refl _ _, fun _ => ⟨[], by simp, rfl, by simp⟩⟩
  | succ k ih =>
    rw [readBlocks] at hrun
    dsimp only at hrun
    by_cases hn : n = 0
    · rw [if_pos hn] at hrun
      obtain rfl := Option.some.inj hrun
      exact ⟨h, .refl _ _, fun _ => ⟨[], by simp, hn.symm, by omega⟩⟩
    rw [if_neg hn] at hrun
    obtain ⟨t, htries, hrest⟩ := Option.bind_eq_some_iff.mp hrun
    have hspan := @span_pos addr s hpos
    have hblock := block_lt hpos hin (Nat.pos_of_ne_zero hn)
    have htried := fun hmem => tries_ok h hblock (readPages_local s.board.g _ _) htries hmem
    generalize hlen : min (pagesPerBlock s.board.g - addr % pagesPerBlock s.board.g) n = len at hrest
    cases hgot : t.got with
    | none =>
      rw [hgot] at hrest
      obtain rfl := Option.some.inj hrest
      have htried := htried hok
      refine ⟨htried.inv, htried.agree.mono fun b p hp => not_uncopied_blkSize hp, fun hgood => ?_⟩
      -- the error of the last try is returned
      replace hgood : readGood t.ret = true := hgood
      obtain heio | hbad := htried.failed hgot
      · rw [heio] at hgood
        exact absurd hgood (by decide)
      · exact absurd hgood (ne_true_of_eq_false hbad)
    | some cr =>
      obtain ⟨cur, r⟩ := cr
      rw [hgot] at hrest
      obtain ⟨⟨u, es⟩, hflips, hrest⟩ := Option.bind_eq_some_iff.mp hrest
      obtain ⟨d', hd', rfl⟩ := Option.map_eq_some_iff.mp hrest
      have htried := htried fun e he => hok e (by simp [he])
      have hsame : Agree (fun _ _ => False) s t.state :=
        htried.agree.mono fun b p hp => not_uncopied_blkSize hp
      obtain ⟨-, hcur, -⟩ := htried.got cur r hgot
      obtain ⟨hinv, hkept⟩ := remapFlips_ok htried.inv (by rw [hsame.blocks]; exact hblock) hcur hflips
        fun e he => hok e (by simp [he])
      have hsame' := hsame.trans hkept
      have hrec := ih hinv (by rw [hsame'.board]; exact hpos)
        (by rw [hsame'.pageCount]; omega) (by omega) hd' fun e he => hok e (by simp [he])
      refine ⟨hrec.inv, hsame'.trans hrec.agree, fun hgood => ?_⟩
      obtain ⟨got, hdata, hlength, hpages⟩ := hrec.got hgood
      refine ⟨(List.range' (addr % pagesPerBlock s.board.g) len).map
        (fun p => t.state.chip.pages cur p) ++ got, by simp [hdata], by simp [hlength]; omega, ?_⟩
      intro i hi
      by_cases hilen : i < len
      · -- a page of this round
        obtain ⟨hdiv, hmod⟩ := @div_mod_of_span addr (pagesPerBlock s.board.g) i (by omega)
        have hpage : s.pageAt (addr + i) = t.state.page (addr / pagesPerBlock s.board.g)
            (addr % pagesPerBlock s.board.g + i) := by
          rw [Backend.pageAt, hdiv, hmod]
          exact (hsame.page _ hblock _ (by omega) id).symm
        rw [hpage, Backend.page_of_eq hcur, List.getElem?_append_left (by simpa using hilen)]
        simp [hilen]
      · have hnext := hpages (i - len) (by omega)
        rw [show addr + len + (i - len) = addr + i by omega,
          hsame'.pageAt (by omega) id] at hnext
        rw [hnext, List.getElem?_append_right (by simp; omega)]
        simp

theorem writePages_local {page : ℕ} (g : Geometry) (chunk : List Bytes) :
    Local g (writePages flt page chunk) (page * g.pgSize) (page + chunk.length) where
  other := by
    intro cur c ba hne
    funext p
    simp [writePages, Chip.setBlock, hne]
  rest := by
    intro cur c p _ hp
    have hout : p < page ∨ page + chunk.length ≤ p := by
      by_contra hin
      have hle : page * g.pgSize ≤ p * g.pgSize := Nat.mul_le_mul_right _ (by omega)
      omega
    simp [writePages, Chip.setBlock, hout]

/-- A write that succeeds leaves its data in the pages. -/
theorem writePages_stored {page cur i : ℕ} {chunk : List Bytes} {c c' : Chip} {r : ℤ}
    (hrun : writePages flt page chunk cur c = (c', r)) (hr : 0 ≤ r) (hi : i < chunk.length) :
    c'.pages cur (page + i) = chunk.getD i [] := by
  have hres : flt.write c.clock = r := congrArg Prod.snd hrun
  have hnonneg : ¬ flt.write c.clock < 0 := by
    rw [hres]
    exact not_lt.mpr hr
  have hchip : c' = (writePages flt page chunk cur c).1 := (congrArg Prod.fst hrun).symm
  rw [hchip]
  simp [writePages, Chip.setBlock, Chip.tick, hnonneg, hi]

/-- An erase that succeeds leaves blank pages. -/
theorem erase_blank {g : Geometry} {cur p : ℕ} {c c' : Chip}
    (hrun : c.erase g flt cur = (c', 0)) : c'.pages cur p = blankPage g := by
  have hres : flt.erase c.clock = 0 := congrArg Prod.snd hrun
  have hchip : c' = (c.erase g flt cur).1 := (congrArg Prod.fst hrun).symm
  rw [hchip]
  simp [Chip.erase, Chip.setBlock, Chip.tick, hres, blankPage]

theorem erase_local (g : Geometry) :
    Local g (fun cur c => c.erase g flt cur) 0 (pagesPerBlock g) where
  other := by
    intro cur c ba hne
    exact erase_pages_ne hne
  rest := by
    intro cur c p hp hnot
    exact absurd ⟨Nat.zero_le _, hp⟩ hnot

/-- What a write leaves: the pages it was for may have changed, and hold the data if it succeeded. -/
structure WriteDone (addr : ℕ) (data : List Bytes) (s : Backend) (d : Done) : Prop where
  inv : d.state.Inv
  agree : Agree (fun b p => addr ≤ b * pagesPerBlock s.board.g + p ∧
    b * pagesPerBlock s.board.g + p < addr + data.length) s d.state
  stored : d.ret = 0 → ∀ i < data.length, d.state.pageAt (addr + i) = data[i]?

theorem writeBlocks_ok {data : List Bytes} {d : Done} (h : s.Inv)
    (hpos : 0 < pagesPerBlock s.board.g) (hin : addr + data.length ≤ s.pageCount)
    (hk : data.length ≤ k) (hrun : writeBlocks flt fuel k addr data s = some d)
    (hok : ∀ e ∈ d.remaps, RemapOk flt e) : WriteDone addr data s d := by
  induction k generalizing addr data s d with
  | zero =>
    obtain rfl : data = [] := List.eq_nil_of_length_eq_zero (by omega)
    obtain rfl := Option.some.inj hrun
    exact ⟨h, .refl _ _, fun _ i hi => absurd hi (by simp)⟩
  | succ k ih =>
    rw [writeBlocks] at hrun
    dsimp only at hrun
    by_cases hnil : data = []
    · rw [if_pos hnil] at hrun
      obtain rfl := Option.some.inj hrun
      exact ⟨h, .refl _ _, fun _ i hi => absurd hi (by simp [hnil])⟩
    rw [if_neg hnil] at hrun
    obtain ⟨t, htries, hrest⟩ := Option.bind_eq_some_iff.mp hrun
    have hspan := @span_pos addr s hpos
    have hlength : 0 < data.length := List.length_pos_iff.mpr hnil
    have hblock := block_lt hpos hin hlength
    generalize hchunk : data.take (pagesPerBlock s.board.g - addr % pagesPerBlock s.board.g) = chunk
      at htries hrest
    have hlen : chunk.length =
        min (pagesPerBlock s.board.g - addr % pagesPerBlock s.board.g) data.length := by
      rw [← hchunk, List.length_take]
    have htried := fun hmem => tries_ok h hblock (writePages_local s.board.g chunk) htries hmem
    -- the pages of this round are among those of the write
    have hround : ∀ b p, uncopied s.board.g (addr / pagesPerBlock s.board.g)
        (addr % pagesPerBlock s.board.g * s.board.g.pgSize)
        (addr % pagesPerBlock s.board.g + chunk.length) b p →
        addr ≤ b * pagesPerBlock s.board.g + p ∧
          b * pagesPerBlock s.board.g + p < addr + chunk.length := by
      rintro b p ⟨rfl, hle, hlt⟩
      have hle := Nat.le_of_mul_le_mul_right hle s.board.g.pgSize_pos
      have hdiv := Nat.div_add_mod' addr (pagesPerBlock s.board.g)
      omega
    split_ifs at hrest with hgot
    · obtain rfl := Option.some.inj hrest
      have htried := htried hok
      refine ⟨htried.inv, htried.agree.mono fun b p _ hS => ?_, fun hret => ?_⟩
      · have hrange := hround b p hS
        omega
      · exact absurd hret (htried.ret_ne_zero hgot rfl)
    · obtain ⟨⟨cur, r⟩, hgot⟩ := Option.ne_none_iff_exists'.mp hgot
      obtain ⟨d', hd', rfl⟩ := Option.map_eq_some_iff.mp hrest
      have htried := htried fun e he => hok e (by simp [he])
      obtain ⟨hgood, hcur, c, hwrite⟩ := htried.got cur r hgot
      have hagree := htried.agree
      have hrec := ih htried.inv (by rw [hagree.board]; exact hpos)
        (by rw [hagree.pageCount, List.length_drop]; omega) (by rw [List.length_drop]; omega) hd'
        fun e he => hok e (by simp [he])
      have hagree' := hrec.agree
      rw [hagree.board, List.length_drop] at hagree'
      refine ⟨hrec.inv, (hagree.mono fun b p _ hS => ?_).trans (hagree'.mono fun b p _ hS => ?_), ?_⟩
      · have hrange := hround b p hS
        omega
      · omega
      · intro hret i hi
        by_cases hilen : i < chunk.length
        · -- a page of this round, which later rounds leave alone
          obtain ⟨hdiv, hmod⟩ := @div_mod_of_span addr (pagesPerBlock s.board.g) i (by omega)
          have hkeep : d'.state.pageAt (addr + i) = t.state.pageAt (addr + i) := by
            apply hrec.agree.pageAt
            · rw [hagree.pageCount]
              omega
            · rw [hagree.board, hdiv, hmod]
              have hdivmod := Nat.div_add_mod' addr (pagesPerBlock s.board.g)
              omega
          have hpages : t.state.chip.pages cur (addr % pagesPerBlock s.board.g + i) =
              chunk.getD i [] := writePages_stored hwrite (by simpa using hgood) hilen
          have hentry : data[i]? = some (chunk.getD i []) := by
            rw [List.getD_eq_getElem _ _ hilen, ← List.getElem?_eq_getElem hilen, ← hchunk,
              List.getElem?_take, if_pos (by omega)]
          rw [hkeep, Backend.pageAt, hagree.board, hdiv, hmod, Backend.page_of_eq hcur, hpages, hentry]
        · have hnext := hrec.stored hret (i - chunk.length) (by rw [List.length_drop]; omega)
          rw [show addr + chunk.length + (i - chunk.length) = addr + i by omega, List.getElem?_drop,
            show chunk.length + (i - chunk.length) = i by omega] at hnext
          exact hnext

/-- What an erasure leaves: the blocks it was for may have changed, and are blank if it succeeded. -/
structure EraseDone (addr stop : ℕ) (s : Backend) (d : Done) : Prop where
  inv : d.state.Inv
  agree : Agree (fun b _ => addr ≤ b * pagesPerBlock s.board.g ∧
    b * pagesPerBlock s.board.g < stop) s d.state
  blank : d.ret = 0 → ∀ b p, p < pagesPerBlock s.board.g → addr ≤ b * pagesPerBlock s.board.g →
    b * pagesPerBlock s.board.g < stop → d.state.page b p = some (blankPage s.board.g)

theorem eraseBlocks_ok {b stop : ℕ} {d : Done} (h : s.Inv) (hpos : 0 < pagesPerBlock s.board.g)
    (hin : stop ≤ s.pageCount) (hk : stop ≤ b * pagesPerBlock s.board.g + k)
    (hrun : eraseBlocks flt fuel k (b * pagesPerBlock s.board.g) stop s = some d)
    (hok : ∀ e ∈ d.remaps, RemapOk flt e) :
    EraseDone (b * pagesPerBlock s.board.g) stop s d := by
  induction k generalizing b s d with
  | zero =>
    obtain rfl := Option.some.inj hrun
    exact ⟨h, .refl _ _, fun _ b' p _ hle hlt => by omega⟩
  | succ k ih =>
    rw [eraseBlocks] at hrun
    dsimp only at hrun
    by_cases hstop : stop ≤ b * pagesPerBlock s.board.g
    · rw [if_pos hstop] at hrun
      obtain rfl := Option.some.inj hrun
      exact ⟨h, .refl _ _, fun _ b' p _ hle hlt => by omega⟩
    rw [if_neg hstop, Nat.mul_div_cancel _ hpos] at hrun
    obtain ⟨t, htries, hrest⟩ := Option.bind_eq_some_iff.mp hrun
    have hblock : b < s.logicalBlocks := by
      apply Nat.lt_of_mul_lt_mul_right (a := pagesPerBlock s.board.g)
      rw [Backend.pageCount] at hin
      omega
    have htried := fun hmem => tries_ok h hblock (erase_local s.board.g) htries hmem
    have hround : ∀ b' p, uncopied s.board.g b 0 (pagesPerBlock s.board.g) b' p →
        b * pagesPerBlock s.board.g ≤ b' * pagesPerBlock s.board.g ∧
          b' * pagesPerBlock s.board.g < stop := by
      rintro b' p ⟨rfl, -⟩
      omega
    split_ifs at hrest with hgot
    · obtain rfl := Option.some.inj hrest
      have htried := htried hok
      exact ⟨htried.inv, htried.agree.mono fun b p _ hS => hround b p hS,
        fun hret => absurd hret (htried.ret_ne_zero hgot rfl)⟩
    · obtain ⟨⟨cur, r⟩, hgot⟩ := Option.ne_none_iff_exists'.mp hgot
      obtain ⟨d', hd', rfl⟩ := Option.map_eq_some_iff.mp hrest
      have htried := htried fun e he => hok e (by simp [he])
      obtain ⟨hgood, hcur, c, herase⟩ := htried.got cur r hgot
      have hagree := htried.agree
      have hnext : b * pagesPerBlock s.board.g + pagesPerBlock s.board.g =
          (b + 1) * pagesPerBlock t.state.board.g := by
        rw [hagree.board, Nat.succ_mul]
      rw [hnext] at hd'
      have hrec := ih htried.inv (by rw [hagree.board]; exact hpos)
        (by rw [hagree.pageCount]; exact hin) (by rw [← hnext]; omega) hd' fun e he => hok e (by simp [he])
      rw [← hnext] at hrec
      have hagree' := hrec.agree
      rw [hagree.board] at hagree'
      refine ⟨hrec.inv, (hagree.mono fun b' p _ hS => hround b' p hS).trans (hagree'.mono fun b' p _ hS => ?_), ?_⟩
      · omega
      · intro hret b' p hp hle hlt
        by_cases hbb : b' = b
        · -- the block of this round, which later rounds leave alone
          subst hbb
          have hkeep : d'.state.page b' p = t.state.page b' p := by
            apply hrec.agree.page b' (by rw [hagree.blocks]; exact hblock) p
              (by rw [hagree.board]; exact hp)
            rw [hagree.board]
            omega
          obtain rfl : r = 0 := of_decide_eq_true hgood
          rw [hkeep, Backend.page_of_eq hcur, erase_blank herase]
        · have hblank := hrec.blank hret b' p (by rw [hagree.board]; exact hp)
          rw [hagree.board] at hblank
          refine hblank ?_ hlt
          have hlt' : b < b' := by
            refine lt_of_le_of_ne ?_ (Ne.symm hbb)
            exact Nat.le_of_mul_le_mul_right hle hpos
          calc b * pagesPerBlock s.board.g + pagesPerBlock s.board.g
              = (b + 1) * pagesPerBlock s.board.g := (Nat.succ_mul ..).symm
            _ ≤ b' * pagesPerBlock s.board.g := Nat.mul_le_mul_right _ hlt'

end Accesses

/-- The calls. -/
inductive Access where
  | read (addr n : ℕ)
  | write (addr : ℕ) (data : List Bytes)
  | erase (addr n : ℕ)

/-- The state of the backend, with what was last written or erased successfully in each logical
page, and whether a later write or erasure of the page failed. -/
structure World where
  state : Backend
  last : ℕ → Option Bytes
  failed : ℕ → Bool

/-- A write or an erasure of some pages was made. -/
def World.store (w : World) (state : Backend) (pages : ℕ → Bool) (ok : Bool) (val : ℕ → Option Bytes) :
    World where
  state := state
  last := fun P => if pages P && ok then val P else w.last P
  failed := fun P => if pages P then !ok else w.failed P

/-- The pages that an erasure covers: those of all blocks from that of the first page on. -/
def erasedPages (g : Geometry) (addr n P : ℕ) : Bool :=
  addr / pagesPerBlock g ≤ P / pagesPerBlock g && P / pagesPerBlock g * pagesPerBlock g < addr + n

/-- A call; `none` when the fuel of a remap runs out. -/
def access (flt : Faults) (fuel : ℕ) (w : World) : Access → Option World
  | .read addr n => (mtkBmtRead flt fuel addr n w.state).map fun d => { w with state := d.1.state }
  | .write addr data => (mtkBmtWrite flt fuel addr data w.state).map fun d =>
      w.store d.state (fun P => addr ≤ P && P < addr + data.length) (d.ret = 0) fun P => data[P - addr]?
  | .erase addr n => (mtkBmtMtdErase flt fuel addr n w.state).map fun d =>
      w.store d.state (erasedPages w.state.board.g addr n) (d.ret = 0) fun _ =>
        some (blankPage w.state.board.g)

/-- The pages of the call are pages of the device. -/
def Access.InRange (s : Backend) : Access → Prop
  | .read addr n => addr + n ≤ s.pageCount
  | .write addr data => addr + data.length ≤ s.pageCount
  | .erase addr n => addr + n ≤ s.pageCount

section Runs

variable (flt : Faults)

/-- A step of a run: a call, with fuel for the remaps of NMBM. -/
def Step (w : World) (a : ℕ × Access) (w' : World) : Prop :=
  a.2.InRange w.state ∧ access flt a.1 w a.2 = some w'

/-- A backend that has been set up on a chip: v2 and NMBM with tables that fit together, v2 and BBT
with logical blocks that do not share a physical one. -/
def Backend.SetUp : Backend → Prop
  | v2 vb s => (v2 vb s).Apart ∧ ∃ chip, InitOk vb flt chip ∧ initV2 vb flt chip = some s
  | bbt bd t => (bbt bd t).Apart ∧ ∃ chip, initBbt bd flt chip = some t
  | nmbm bd s => ∃ cfg chip, Nmbm.LoadOk bd.g flt cfg chip ∧
      Reaches (Nmbm.Start bd.g flt cfg chip) (Nmbm.Step bd.g flt) Nmbm.OpOk ⟨s, .attached⟩

/-- The first states: nothing has been stored yet. Blocks consist of whole pages. -/
def Start (w : World) : Prop :=
  w.state.SetUp flt ∧ w.state.board.g.pgSize ≤ w.state.board.g.blkSize ∧ (∀ P, w.last P = none) ∧
    ∀ P, w.failed P = false

/-- The steps that lose nothing: the remaps of the call do not, and it reads no page whose last write
or erasure has failed. -/
def AccessOk (w : World) (a : ℕ × Access) : Prop :=
  match a.2 with
  | .read addr n => (∀ d, mtkBmtRead flt a.1 addr n w.state = some d →
      ∀ e ∈ d.1.remaps, RemapOk flt e) ∧ ∀ i < n, w.failed (addr + i) = false
  | .write addr data => ∀ d, mtkBmtWrite flt a.1 addr data w.state = some d →
      ∀ e ∈ d.remaps, RemapOk flt e
  | .erase addr n => ∀ d, mtkBmtMtdErase flt a.1 addr n w.state = some d →
      ∀ e ∈ d.remaps, RemapOk flt e

/-- The backend is sound and holds in each page what was stored in it. -/
structure Holds (w : World) : Prop where
  inv : w.state.Inv
  pos : 0 < pagesPerBlock w.state.board.g
  last : ∀ P < w.state.pageCount, w.failed P = false → ∀ v, w.last P = some v →
    w.state.pageAt P = some v

variable {flt}

/-- NMBM keeps logical blocks apart by itself. -/
theorem apart_of_settled {bd : Board} {s : Nmbm.Sys} (h : Nmbm.Settled s.ni) :
    (Backend.nmbm bd s).Apart := by
  intro b hb b' hb' hpos heq
  have hb : b < s.ni.dataBlockCount := hb
  have hb' : b' < s.ni.dataBlockCount := hb'
  have hindex : ∀ i < s.ni.dataBlockCount,
      (Backend.nmbm bd s).getMappingBlock i = s.ni.mapping i := fun i hi => if_neg (by omega)
  rw [hindex b hb] at hpos heq
  rw [hindex b' hb'] at heq
  exact h.mapped.injective b hb b' hb' hpos heq

theorem Backend.SetUp.inv {s : Backend} (h : s.SetUp flt) : s.Inv := by
  cases s with
  | v2 vb s =>
    obtain ⟨hapart, chip, hok, hinit⟩ := h
    exact ⟨hapart, initV2_sound hok hinit⟩
  | bbt bd t => exact ⟨h.1, trivial⟩
  | nmbm bd s =>
    obtain ⟨cfg, chip, hload, hreach⟩ := h
    have hsettled := Nmbm.reaches_settled hload hreach
    exact ⟨apart_of_settled hsettled, hsettled⟩

theorem Start.holds {w : World} (h : Start flt w) : Holds w := by
  obtain ⟨hsetup, hfit, hnone, -⟩ := h
  refine ⟨hsetup.inv, Nat.div_pos hfit w.state.board.g.pgSize_pos, fun P _ _ v hv => ?_⟩
  rw [hnone] at hv
  cases hv

/-- Pages outside of an access hold what they held, those of it what was stored if it succeeded. -/
theorem Holds.store {w : World} {s : Backend} {pages : ℕ → Bool} {ok : Bool} {val : ℕ → Option Bytes}
    {S : ℕ → ℕ → Prop} (h : Holds w) (hinv : s.Inv) (hagree : Agree S w.state s)
    (hS : ∀ P < w.state.pageCount,
      S (P / pagesPerBlock w.state.board.g) (P % pagesPerBlock w.state.board.g) → pages P = true)
    (hval : ok = true → ∀ P < w.state.pageCount, pages P = true → s.pageAt P = val P) :
    Holds (w.store s pages ok val) where
  inv := hinv
  pos := by
    have hboard : (w.store s pages ok val).state.board = w.state.board := hagree.board
    rw [hboard]
    exact h.pos
  last := by
    intro P hP hfailed v hv
    have hP : P < w.state.pageCount := hagree.pageCount ▸ hP
    have hstate : (w.store s pages ok val).state = s := rfl
    rw [hstate]
    by_cases hpage : pages P = true
    · -- the access succeeded, or the page would count as failed
      have hok : ok = true := by simpa [World.store, hpage] using hfailed
      have hv : val P = some v := by simpa [World.store, hpage, hok] using hv
      rw [hval hok P hP hpage, hv]
    · have hfailed : w.failed P = false := by simpa [World.store, hpage] using hfailed
      have hv : w.last P = some v := by simpa [World.store, hpage] using hv
      rw [hagree.pageAt hP fun hs => hpage (hS P hP hs)]
      exact h.last P hP hfailed v hv

theorem Holds.read_done {w : World} {addr n fuel : ℕ} {d : Done × List Bytes} (h : Holds w)
    (hin : addr + n ≤ w.state.pageCount) (hok : AccessOk flt w (fuel, .read addr n))
    (hrun : mtkBmtRead flt fuel addr n w.state = some d) : ReadDone addr n w.state [] d :=
  readBlocks_ok h.inv h.pos hin le_rfl hrun (hok.1 d hrun)

theorem Holds.step {w w' : World} {a : ℕ × Access} (h : Holds w) (hok : AccessOk flt w a)
    (hstep : Step flt w a w') : Holds w' := by
  obtain ⟨fuel, a⟩ := a
  obtain ⟨hin, hrun⟩ := hstep
  have hnumber : ∀ P, P / pagesPerBlock w.state.board.g * pagesPerBlock w.state.board.g +
      P % pagesPerBlock w.state.board.g = P := fun P => Nat.div_add_mod' P _
  cases a with
  | read addr n =>
    obtain ⟨d, hread, rfl⟩ := Option.map_eq_some_iff.mp hrun
    have hdone := h.read_done hin hok hread
    refine ⟨hdone.inv, by rw [hdone.agree.board]; exact h.pos, fun P hP hfailed v hv => ?_⟩
    have hP : P < w.state.pageCount := hdone.agree.pageCount ▸ hP
    exact (hdone.agree.pageAt hP id).trans (h.last P hP hfailed v hv)
  | write addr data =>
    obtain ⟨d, hwrite, rfl⟩ := Option.map_eq_some_iff.mp hrun
    have hdone := writeBlocks_ok h.inv h.pos hin le_rfl hwrite (hok d hwrite)
    refine h.store hdone.inv hdone.agree (fun P _ hP => ?_) fun hret P _ hP => ?_
    · rw [hnumber] at hP
      simpa using hP
    · have hP : addr ≤ P ∧ P < addr + data.length := by simpa using hP
      have hstored := hdone.stored (of_decide_eq_true hret) (P - addr) (by omega)
      rwa [Nat.add_sub_cancel' hP.1] at hstored
  | erase addr n =>
    obtain ⟨d, herase, rfl⟩ := Option.map_eq_some_iff.mp hrun
    have hdone := eraseBlocks_ok h.inv h.pos hin (by omega) herase (hok d herase)
    have hle : ∀ b, addr / pagesPerBlock w.state.board.g * pagesPerBlock w.state.board.g ≤
        b * pagesPerBlock w.state.board.g ↔ addr / pagesPerBlock w.state.board.g ≤ b :=
      fun b => Nat.mul_le_mul_right_iff h.pos
    refine h.store hdone.inv hdone.agree (fun P _ hP => ?_) fun hret P _ hP => ?_
    · rw [hle] at hP
      simpa [erasedPages] using hP
    · have hP : addr / pagesPerBlock w.state.board.g ≤ P / pagesPerBlock w.state.board.g ∧
          P / pagesPerBlock w.state.board.g * pagesPerBlock w.state.board.g < addr + n := by
        simpa [erasedPages] using hP
      rw [Backend.pageAt, hdone.agree.board]
      exact hdone.blank (of_decide_eq_true hret) _ _ (Nat.mod_lt _ h.pos) ((hle _).mpr hP.1) hP.2

end Runs

/-- Without remap ranges in the device tree, v2 keeps logical blocks apart. -/
theorem apart_of_sound {vb : V2Board} {s : V2} (h : Sound vb s) (hrange : vb.bd.remapRange = []) :
    (Backend.v2 vb s).Apart := by
  have hindex : ∀ b < vb.mainBlocks, b < vb.poolLba ∧ s.getMappingBlockIndex vb b = s.tbl b := by
    intro b hb
    have hpool : b < vb.poolLba := by
      rw [V2Board.mainBlocks] at hb
      rw [V2Board.poolLba]
      omega
    refine ⟨hpool, ?_⟩
    rw [V2.getMappingBlockIndex, if_neg (by omega), if_neg]
    simp [mappingBlockInRange, hrange]
  intro b hb b' hb' _ heq
  obtain ⟨hpool, hmap⟩ := hindex b hb
  obtain ⟨hpool', hmap'⟩ := hindex b' hb'
  have heq := Int.ofNat_inj.mp heq
  rw [hmap, hmap'] at heq
  exact h.shape.injective b hpool b' hpool' heq

instance (vb : V2Board) (flt : Faults) (tbl : ℕ → ℕ) (n clock : ℕ) :
    Decidable (Accepts vb flt tbl n clock) := by
  induction n generalizing clock with
  | zero => exact inferInstanceAs (Decidable False)
  | succ n ih =>
    have := ih (clock + 1)
    have := ih (clock + 2)
    rw [Accepts]
    infer_instance

/-- `RemapOk` for a remap of v2 that finds a block and copies all pages of the old one. -/
def copiesAll (flt : Faults) (e : Remap) : Bool :=
  match e.before with
  | .v2 vb s =>
    match findValidBlockInPool vb s with
    | none => false
    | some i => e.stop = pagesPerBlock vb.bd.g && e.block < vb.tableSize &&
        FillOk vb.bd.g flt s.chip.clock e.copyLen &&
        Accepts vb flt (s.take vb e.block i).tbl (s.bmtBlkIdx + 1)
          (beforeUpload vb flt e.block i e.mapped e.copyLen s).chip.clock
  | _ => false

theorem remapOk_of_copiesAll {flt : Faults} {e : Remap} (h : copiesAll flt e = true) :
    RemapOk flt e := by
  obtain ⟨before, block, mapped, copyLen, stop⟩ := e
  intro _
  cases before with
  | bbt bd t => simp [copiesAll] at h
  | nmbm bd s => simp [copiesAll] at h
  | v2 vb s =>
    rw [copiesAll] at h
    dsimp only at h
    cases hfind : findValidBlockInPool vb s with
    | none => simp [hfind] at h
    | some i =>
      rw [hfind] at h
      simp only [Bool.and_eq_true, decide_eq_true_eq] at h
      obtain ⟨⟨⟨hstop, hblock⟩, hfill⟩, hacc⟩ := h
      refine ⟨fun j hj => ?_, fun _ => ⟨fun p hp hlt => ?_, hfill⟩⟩
      · obtain rfl : i = j := Option.some.inj (hfind.symm.trans hj)
        exact ⟨hblock, hacc⟩
      · have hstop : stop = pagesPerBlock vb.bd.g := hstop
        exact absurd hlt (by subst hstop; exact not_lt.mpr hp)

/-- Reads with some numbers fail with uncorrectable errors. -/
def readsFail (clocks : List ℕ) : Faults :=
  { noFaults with read := fun clock => if clock ∈ clocks then Nmbm.eBadMsg else 0 }

/-- Four pages for a block. -/
def fourPages : List Bytes := [1, 2, 3, 4].map fun b => List.replicate 64 b

theorem start_blank {flt : Faults} {s : V2} (h : initV2 smallV2 flt blankV2 = some s)
    (hnone : (findBmt smallV2 flt smallV2.poolSize ⟨fun _ => 0xffff, 0, blankV2⟩).2 = false) :
    Start flt ⟨.v2 smallV2 s, fun _ => none, fun _ => false⟩ := by
  have hok : InitOk smallV2 flt blankV2 := by
    intro hfound
    rw [hnone] at hfound
    cases hfound
  refine ⟨⟨apart_of_sound (initV2_sound hok h) rfl, blankV2, hok, h⟩, ?_, fun _ => rfl, fun _ => rfl⟩
  show (64 : ℕ) ≤ 256
  decide

end NeonWrt.Bmt
