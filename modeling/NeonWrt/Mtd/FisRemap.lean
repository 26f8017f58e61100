import NeonWrt.Mtd.Fis

/-!
# When a partition table is rewritten as it should be

The new entries are right exactly if the call starts from the right flash address
and, for a partition of open size, knows where the available space ends. Both are
taken from the outer entries of the old ones in the directory.
-/

namespace NeonWrt.Mtd.Fis

open Lib

theorem u32Sub_lt {a b : ℕ} (ha : a < 4294967296) (hb : b < 4294967296) :
    u32Sub a b < 4294967296 := by
  rw [u32Sub]
  split_ifs <;> omega

theorem u32Sub_u32Sub {a b c : ℕ} (ha : a < 4294967296) (h : b + c < 4294967296) :
    u32Sub (u32Sub a b) c = u32Sub a (b + c) := by
  rw [u32Sub, u32Sub, u32Sub]
  split_ifs <;> omega

theorem Open.tail {p : Part} {ps : List Part} (hp : 0 < p.size) : Open (p :: ps) ↔ Open ps := by
  rw [Open, List.exists_mem_cons_iff]
  exact or_iff_right (by omega)

/-- The new entries are right if the size that is left for one of open size is. -/
theorem newEntries_eq_place_iff {ps : List Part} {offset size limit : ℕ} (hsize : size < 4294967296)
    (hsized : ∀ p ∈ ps.dropLast, 0 < p.size) (hsum : offset + (ps.map Part.size).sum ≤ 4294967296)
    (hopen : Open ps → offset + (ps.map Part.size).sum < 4294967296) :
    newEntries ps offset size = place ps offset limit ↔
      (Open ps → u32Sub size (ps.map Part.size).sum = limit - (offset + (ps.map Part.size).sum)) := by
  -- each entry of given size takes that much off the space that is left
  induction ps generalizing offset size with
  | nil => simp [newEntries, place, Open]
  | cons p ps ih =>
    rw [List.map_cons, List.sum_cons] at hsum hopen ⊢
    rw [newEntries, place]
    by_cases hp : p.size = 0
    · -- a partition of open size is the last one
      obtain rfl : ps = [] := by
        by_contra hne
        rw [List.dropLast_cons_of_ne_nil hne] at hsized
        have hpos := hsized p List.mem_cons_self
        omega
      have hisOpen : Open [p] := ⟨p, List.mem_singleton_self p, hp⟩
      simp only [newEntries, place, hp, List.map_nil, List.sum_nil, Nat.add_zero, hisOpen, true_implies,
        List.cons.injEq, and_true]
      rw [u32Sub_of_le (Nat.zero_le _), Nat.sub_zero]
      constructor
      · intro h
        have hsizes := congrArg Desc.size h
        simpa [Part.desc, hp] using hsizes
      · rintro rfl
        rfl
    · have hpos : 0 < p.size := Nat.pos_of_ne_zero hp
      have hdesc : p.desc offset size = p.desc offset (limit - offset) := by
        simp [Part.desc, hpos]
      have hdsize : (p.desc offset (limit - offset)).size = p.size := if_pos hpos
      rw [Open.tail hpos] at hopen ⊢
      rw [hdesc, hdsize, List.cons.injEq, and_iff_right rfl]
      cases ps with
      | nil => simp [newEntries, place, Open]
      | cons q qs =>
        have hrest : ∀ p ∈ (q :: qs).dropLast, 0 < p.size := fun r hr =>
          hsized r (by rw [List.dropLast_cons_of_ne_nil (List.cons_ne_nil q qs)]; exact .tail _ hr)
        have hlt : offset + p.size < 4294967296 := by
          by_cases hq : q.size = 0
          · have hbound := hopen ⟨q, List.mem_cons_self, hq⟩
            omega
          · rw [List.map_cons, List.sum_cons] at hsum
            omega
        have hsub : u32Sub size p.size < 4294967296 := u32Sub_lt hsize (by omega)
        rw [Nat.mod_eq_of_lt hlt, ih hsub hrest (by omega) (fun h => by have := hopen h; omega),
          Nat.add_assoc]
        refine imp_congr_right fun h => ?_
        have hbound := hopen h
        rw [u32Sub_u32Sub hsize (by omega)]

section Ranges

variable {dir es : List Desc} {d e : Desc} {base stop : ℕ}

/-- Entries of a valid directory do not overlap. -/
theorem ValidDir.apart (h : ValidDir dir) (hd : d ∈ entries dir) (he : e ∈ entries dir) :
    d = e ∨ d.flashBase + d.size ≤ e.flashBase ∨ e.flashBase + e.size ≤ d.flashBase := by
  by_cases heq : d = e
  · exact .inl heq
  · have : Std.Symm fun d e : Desc =>
        d.flashBase + d.size ≤ e.flashBase ∨ e.flashBase + e.size ≤ d.flashBase :=
      ⟨fun _ _ => Or.symm⟩
    exact .inr (h.disjoint.forall hd he heq)

/-- A chain of ranges: they lie between its ends, and only the first and the last of them are
there. -/
theorem chain_bounds {ds : List Desc} (hpos : ∀ e ∈ d :: ds, 0 < e.size)
    (hchain : List.IsChain (fun d e => d.flashBase + d.size = e.flashBase) (d :: ds))
    {z : Desc} (hz : z ∈ (d :: ds).getLast?) (he : e ∈ d :: ds) :
    (d.flashBase ≤ e.flashBase ∧ e.flashBase + e.size ≤ z.flashBase + z.size) ∧
      (e = z ∨ e.flashBase + e.size ≤ z.flashBase) := by
  induction ds generalizing d e with
  | nil =>
    obtain rfl := List.mem_singleton.mp he
    obtain rfl : e = z := Option.some.inj hz
    exact ⟨⟨le_rfl, le_rfl⟩, .inl rfl⟩
  | cons f fs ih =>
    rw [List.isChain_cons_cons] at hchain
    obtain ⟨hnext, hchain⟩ := hchain
    rw [Option.mem_def, List.getLast?_cons_cons] at hz
    have hrest : ∀ e ∈ f :: fs, 0 < e.size := fun e he => hpos e (.tail _ he)
    rcases List.mem_cons.mp he with rfl | he
    · have hf := ih hrest hchain hz List.mem_cons_self
      have hzpos := hrest z (List.mem_of_getLast? hz)
      exact ⟨⟨le_rfl, by omega⟩, .inr (by
        rcases hf.2 with rfl | hle
        · omega
        · have := hrest f List.mem_cons_self
          omega)⟩
    · have hmem := ih hrest hchain hz he
      exact ⟨⟨by omega, hmem.1.2⟩, hmem.2⟩

/-- What overlaps no range of a chain lies before or behind the chain. -/
theorem chain_outside {ds : List Desc}
    (hchain : List.IsChain (fun d e => d.flashBase + d.size = e.flashBase) (d :: ds))
    {z : Desc} (hz : z ∈ (d :: ds).getLast?) (he : 0 < e.size)
    (hapart : ∀ f ∈ d :: ds, f.flashBase + f.size ≤ e.flashBase ∨ e.flashBase + e.size ≤ f.flashBase) :
    e.flashBase < d.flashBase ∨ z.flashBase + z.size ≤ e.flashBase := by
  induction ds generalizing d with
  | nil =>
    obtain rfl : d = z := Option.some.inj hz
    have := hapart d List.mem_cons_self
    omega
  | cons f fs ih =>
    rw [List.isChain_cons_cons] at hchain
    rw [Option.mem_def, List.getLast?_cons_cons] at hz
    have hrest := ih hchain.2 hz fun g hg => hapart g (.tail _ hg)
    have hd := hapart d List.mem_cons_self
    omega

theorem JointRange.bounds {olds : List Desc} (h : JointRange olds base stop)
    (hpos : ∀ e ∈ olds, 0 < e.size) :
    ∃ z ∈ olds, z.flashBase + z.size = stop ∧ ∀ e ∈ olds, base ≤ e.flashBase ∧
      e.flashBase + e.size ≤ stop ∧ (e = z ∨ e.flashBase + e.size ≤ z.flashBase) := by
  obtain ⟨d, ds, hperm, rfl, hchain, z, hz, rfl⟩ := h
  have hsizes : ∀ e ∈ d :: ds, 0 < e.size := fun e he => hpos e (hperm.mem_iff.mp he)
  refine ⟨z, hperm.mem_iff.mp (List.mem_of_getLast? hz), rfl, fun e he => ?_⟩
  obtain ⟨⟨hlow, hhigh⟩, hlast⟩ := chain_bounds hsizes hchain hz (hperm.mem_iff.mpr he)
  exact ⟨hlow, hhigh, hlast⟩

theorem JointRange.outside {olds : List Desc} (h : JointRange olds base stop) (he : 0 < e.size)
    (hapart : ∀ f ∈ olds, f.flashBase + f.size ≤ e.flashBase ∨ e.flashBase + e.size ≤ f.flashBase) :
    e.flashBase < base ∨ stop ≤ e.flashBase := by
  obtain ⟨d, ds, hperm, rfl, hchain, z, hz, rfl⟩ := h
  exact chain_outside hchain hz he fun f hf => hapart f (hperm.mem_iff.mp hf)

/-- The space ends at the lowest entry above the range, or with the range. -/
theorem spaceLimit_spec (es : List Desc) (stop : ℕ) :
    (∃ d ∈ es, stop ≤ d.flashBase ∧ spaceLimit es stop = d.flashBase ∧
        ∀ e ∈ es, stop ≤ e.flashBase → d.flashBase ≤ e.flashBase) ∨
      (∀ e ∈ es, e.flashBase < stop) ∧ spaceLimit es stop = stop := by
  have hmem (a : ℕ) : a ∈ (es.map Desc.flashBase).filter (fun a => stop ≤ a) ↔
      (∃ d ∈ es, d.flashBase = a) ∧ stop ≤ a := by simp
  rw [spaceLimit]
  cases hmin : ((es.map Desc.flashBase).filter fun a => stop ≤ a).min? with
  | none =>
    rw [List.min?_eq_none_iff] at hmin
    refine .inr ⟨fun e he => ?_, rfl⟩
    by_contra hle
    have hin := (hmem e.flashBase).mpr ⟨⟨e, he, rfl⟩, by omega⟩
    rw [hmin] at hin
    cases hin
  | some a =>
    rw [List.min?_eq_some_iff] at hmin
    obtain ⟨⟨d, hd, rfl⟩, hstop⟩ := (hmem a).mp hmin.1
    exact .inl ⟨d, hd, hstop, rfl, fun e he hle => hmin.2 _ ((hmem _).mpr ⟨⟨e, he, rfl⟩, hle⟩)⟩

end Ranges

section Slots

variable {dir A B C R : List Desc} {old : List Bytes} {new : List Part} {x y : Desc}

namespace Split

theorem filter_old (h : Split dir old A B C R) :
    (entries dir).filter (isOld old) = B.filter (isOld old) := by
  have hA : A.filter (isOld old) = [] :=
    List.filter_eq_nil_iff.mpr fun d hd => by simp [h.before d hd]
  have hC : C.filter (isOld old) = [] :=
    List.filter_eq_nil_iff.mpr fun d hd => by simp [h.behind d hd]
  rw [h.entries_eq, List.filter_append, List.filter_append, hA, hC, List.nil_append, List.append_nil]

theorem filter_others (h : Split dir old A B C R) :
    ((entries dir).filter fun d => !isOld old d).length =
      A.length + ((B.filter fun d => !isOld old d).length + C.length) := by
  have hA : (A.filter fun d => !isOld old d) = A :=
    List.filter_eq_self.mpr fun d hd => by simp [h.before d hd]
  have hC : (C.filter fun d => !isOld old d) = C :=
    List.filter_eq_self.mpr fun d hd => by simp [h.behind d hd]
  rw [h.entries_eq, List.filter_append, List.filter_append, hA, hC, List.length_append,
    List.length_append]

/-- Old entries that stand next to each other are those from the first to the last of them. -/
theorem adjacent_iff (h : Split dir old A B C R) :
    (entries dir).filter (isOld old) <:+: entries dir ↔ ∀ d ∈ B, isOld old d = true := by
  constructor
  · rintro ⟨P, S, hPS⟩
    set olds := (entries dir).filter (isOld old) with holds
    have hcount : olds.length = (P.filter (isOld old)).length + olds.length +
        (S.filter (isOld old)).length := by
      have hall : (P ++ olds ++ S).filter (isOld old) = olds := by rw [hPS]
      have hself : olds.filter (isOld old) = olds := by
        rw [holds, List.filter_filter]
        simp only [Bool.and_self]
      conv_lhs => rw [← hall]
      rw [List.filter_append, List.filter_append, hself, List.length_append, List.length_append]
    have hnone (T : List Desc) (hT : (T.filter (isOld old)).length = 0) :
        ∀ d ∈ T, isOld old d = false := fun d hd => by
      simpa using List.filter_eq_nil_iff.mp (List.length_eq_zero_iff.mp hT) d hd
    have hP := hnone P (by omega)
    have hS := hnone S (by omega)
    -- both sides stop in front of the first old entry
    have holdsOld : ∀ d ∈ olds, isOld old d = true := fun d hd => (List.mem_filter.mp hd).2
    obtain ⟨x, hx, hxold⟩ := h.head
    obtain ⟨y, hy, hyold⟩ := h.last
    have hcut (T U V : List Desc) (hT : ∀ d ∈ T, isOld old d = false)
        (hU : ∃ d ∈ U.head?, isOld old d = true) :
        (T ++ (U ++ V)).dropWhile (fun d => !isOld old d) = U ++ V := by
      obtain ⟨d, hd, hdold⟩ := hU
      cases U with
      | nil => cases hd
      | cons u U =>
        obtain rfl : u = d := Option.some.inj hd
        rw [List.dropWhile_append_of_pos fun d hd => by simp [hT d hd], List.cons_append,
          List.dropWhile_cons_of_neg (by simp [hdold])]
    have hne : olds ≠ [] := by
      rw [holds, h.filter_old]
      exact List.ne_nil_of_mem (List.mem_filter.mpr ⟨List.mem_of_mem_head? hx, hxold⟩)
    have hrest : B ++ C = olds ++ S := by
      rw [← hcut A B C h.before ⟨x, hx, hxold⟩, ← h.entries_eq, ← hPS, List.append_assoc]
      exact hcut P olds S hP ⟨_, List.head?_eq_some_head hne, holdsOld _ (List.head_mem hne)⟩
    -- and behind the last one
    rcases List.append_eq_append_iff.mp hrest with ⟨T, hT, -⟩ | ⟨T, hT, hTS⟩
    · intro d hd
      exact holdsOld d (hT ▸ List.mem_append_left _ hd)
    · cases hTlast : T.getLast? with
      | none =>
        obtain rfl := List.getLast?_eq_none_iff.mp hTlast
        rw [List.append_nil] at hT
        exact fun d hd => holdsOld d (hT ▸ hd)
      | some z =>
        have hzy : B.getLast? = some z := by
          rw [hT, List.getLast?_append, hTlast]
          rfl
        obtain rfl : z = y := Option.some.inj (hzy.symm.trans hy)
        have := hS z (hTS ▸ List.mem_append_left _ (List.mem_of_getLast? hTlast))
        rw [hyold] at this
        cases this
  · intro hall
    refine ⟨A, C, ?_⟩
    rw [h.filter_old, List.filter_eq_self.mpr hall, h.entries_eq, List.append_assoc]

end Split

theorem length_place (ps : List Part) (offset limit : ℕ) :
    (place ps offset limit).length = ps.length := by
  induction ps generalizing offset with
  | nil => rfl
  | cons p ps ih => rw [place, List.length_cons, ih, List.length_cons]

/-- What is left behind the new entries is right if all old entries stood together and there is
a slot for each of the others. -/
theorem tailOf_eq_iff (h : Split dir old A B C R) (hR : ∀ d ∈ R, d = Desc.blank)
    (henough : B.length ≤ new.length) (hroom : A.length + new.length ≤ dir.length) :
    tailOf dir A C R new = B.filter (fun d => !isOld old d) ++ C ++
        List.replicate (dir.length -
          (A.length + ((B.filter fun d => !isOld old d).length + C.length) + new.length))
          Desc.blank ↔
      (∀ d ∈ B, isOld old d = true) ∧ A.length + C.length + new.length ≤ dir.length := by
  have hlen : dir.length = A.length + B.length + C.length + R.length := by
    rw [h.dir_eq]
    simp only [List.length_append]
    omega
  have hblank : R = List.replicate R.length Desc.blank := List.eq_replicate_of_mem hR
  set k := dir.length - (A.length + new.length) with hk
  have htail : tailOf dir A C R new = C.take k ++
      List.replicate (min (k - C.length) R.length) Desc.blank := by
    rw [tailOf, List.take_append, ← hk]
    congr 1
    conv_lhs => rw [hblank]
    rw [List.take_replicate]
  have hothers : (∀ d ∈ B, isOld old d = true) ↔ (B.filter fun d => !isOld old d) = [] := by
    rw [List.filter_eq_nil_iff]
    exact forall₂_congr fun d _ => by simp
  rw [htail, hothers]
  constructor
  · intro heq
    -- count the slots with names
    have hcount := congrArg (fun l => (l.filter fun d => !endsDir d.name).length) heq
    have hends (n : ℕ) : (List.replicate n Desc.blank).filter (fun d => !endsDir d.name) = [] := by
      rw [List.filter_replicate]
      rfl
    have hnamed (T : List Desc) (hT : ∀ d ∈ T, endsDir d.name = false) :
        T.filter (fun d => !endsDir d.name) = T :=
      List.filter_eq_self.mpr fun d hd => by simp [hT d hd]
    simp only [List.filter_append, hends, List.append_nil, List.length_append] at hcount
    rw [hnamed (C.take k) fun d hd => h.named_right d (List.mem_of_mem_take hd),
      hnamed (B.filter fun d => !isOld old d) fun d hd => h.named_middle d (List.mem_of_mem_filter hd),
      hnamed C h.named_right, List.length_take] at hcount
    have hnil : (B.filter fun d => !isOld old d).length = 0 := by omega
    exact ⟨List.length_eq_zero_iff.mp hnil, by omega⟩
  · rintro ⟨hnil, hle⟩
    rw [hnil, List.nil_append, List.take_of_length_le (by omega), List.length_nil,
      show min (k - C.length) R.length =
        dir.length - (A.length + (0 + C.length) + new.length) by omega]

end Slots

section Space

variable {dir : List Desc} {old : List Bytes} {base stop top : ℕ} {x y : Desc}

theorem named_entries {d : Desc} (hd : d ∈ entries dir) : endsDir d.name = false := by
  simpa using List.mem_takeWhile_imp hd

theorem ValidDir.outside (hdir : ValidDir dir)
    (hrange : JointRange ((entries dir).filter (isOld old)) base stop) {e : Desc}
    (he : e ∈ entries dir) (hold : isOld old e = false) : e.flashBase < base ∨ stop ≤ e.flashBase := by
  refine hrange.outside (hdir.sizes e he).1 fun f hf => ?_
  obtain ⟨hf, hfold⟩ := List.mem_filter.mp hf
  refine (hdir.apart hf he).resolve_left ?_
  rintro rfl
  rw [hold] at hfold
  cases hfold

/-- The space that is found ends where it should if the highest old entry is an outer one and
some entry lies above it. -/
theorem spaceEnd_eq_limit_iff (hdir : ValidDir dir)
    (hrange : JointRange ((entries dir).filter (isOld old)) base stop)
    (hx : x ∈ (entries dir).filter (isOld old)) (hy : y ∈ (entries dir).filter (isOld old))
    (htop : ∀ d ∈ entries dir, d.flashBase ≤ top) (hmem : ∃ d ∈ entries dir, top = d.flashBase) :
    spaceEnd (max x.flashBase y.flashBase) (entries dir) top = spaceLimit (entries dir) stop ↔
      (x.flashBase + x.size = stop ∨ y.flashBase + y.size = stop) ∧
        ∃ d ∈ entries dir, stop ≤ d.flashBase := by
  have hpos : ∀ e ∈ (entries dir).filter (isOld old), 0 < e.size := fun e he =>
    (hdir.sizes e (List.mem_of_mem_filter he)).1
  obtain ⟨z, hz, hzstop, hbounds⟩ := hrange.bounds hpos
  have hzpos := hpos z hz
  obtain ⟨hxlow, hxhigh, hxz⟩ := hbounds x hx
  obtain ⟨hylow, hyhigh, hyz⟩ := hbounds y hy
  have hxpos := hpos x hx
  have hypos := hpos y hy
  obtain ⟨hle, hletop, hfound⟩ :=
    @spaceEnd_spec (entries dir) (max x.flashBase y.flashBase) top fun d => named_entries
  set r := spaceEnd (max x.flashBase y.flashBase) (entries dir) top
  have hentry : ∃ d ∈ entries dir, r = d.flashBase := by
    rcases hfound with heq | ⟨d, hd, -, heq⟩
    · exact heq ▸ hmem
    · exact ⟨d, hd, heq⟩
  constructor
  · intro heq
    have hstop : stop ≤ r := by
      rcases spaceLimit_spec (entries dir) stop with ⟨d, -, hd, hlimit, -⟩ | ⟨-, hlimit⟩ <;> omega
    constructor
    · by_contra hnot
      have hxlt : x.flashBase + x.size ≤ z.flashBase := hxz.resolve_left (by rintro rfl; omega)
      have hylt : y.flashBase + y.size ≤ z.flashBase := hyz.resolve_left (by rintro rfl; omega)
      have := hle z (List.mem_of_mem_filter hz) (by omega)
      omega
    · obtain ⟨d, hd, hrd⟩ := hentry
      exact ⟨d, hd, by omega⟩
  · rintro ⟨houter, d, hd, hdstop⟩
    have hhigh : max x.flashBase y.flashBase = z.flashBase := by
      rcases hxz with rfl | hxz <;> rcases hyz with rfl | hyz <;> omega
    -- what lies above the highest old entry lies above the range
    have habove : ∀ e ∈ entries dir, z.flashBase < e.flashBase → stop ≤ e.flashBase := by
      intro e he hlt
      by_cases hold : isOld old e = true
      · obtain ⟨hlow, hend, hlast⟩ := hbounds e (List.mem_filter.mpr ⟨he, hold⟩)
        have := hpos e (List.mem_filter.mpr ⟨he, hold⟩)
        rcases hlast with rfl | hlast <;> omega
      · have hzlow := (hbounds z hz).1
        rcases hdir.outside hrange he (by simpa using hold) with hlow | hhigh
        · omega
        · exact hhigh
    rcases spaceLimit_spec (entries dir) stop with ⟨e, he, hestop, hlimit, hmin⟩ | ⟨hnone, -⟩
    · have hre := hle e he (by omega)
      obtain ⟨f, hf, hrf⟩ := hentry
      have hfstop : stop ≤ f.flashBase := by
        rcases hfound with heq | ⟨g, hg, hgabove, heq⟩
        · have := htop e he
          omega
        · have := habove g hg (by omega)
          omega
      have := hmin f hf hfstop
      omega
    · have := hnone d hd
      omega

/-- What is left for a partition of open size, after `used` bytes. -/
theorem leftover_iff {r limit used : ℕ} (hr : r < 4294967296) (hzero : r = 0 → limit < 4294967296)
    (hlimit : limit ≤ 4294967296) (hused : base + used < limit) :
    u32Sub (u32Sub r base) used = limit - (base + used) ↔ r = limit := by
  rw [u32Sub_u32Sub hr (by omega), u32Sub]
  split_ifs <;> omega

end Space

/-- A call rewrites the directory as it should. -/
def Rewrites (dir : List Desc) (old : List Bytes) (new : List Part) (base stop : ℕ) : Prop :=
  fisRemap dir old new = some (rewritten dir old new base stop)

section Main

variable {dir : List Desc} {old : List Bytes} {new : List Part} {base stop : ℕ}

theorem mem_outer_iff {ds : List Desc} {x y : Desc} (hx : ds.head? = some x)
    (hy : ds.getLast? = some y) (q : Desc → Prop) : (∃ d ∈ outer ds, q d) ↔ q x ∨ q y := by
  rw [outer, hx, hy]
  simp

/-- The new entries are right if the range is known from the outer old entries. -/
theorem newEntries_right_iff (hdir : ValidDir dir)
    (hrange : JointRange ((entries dir).filter (isOld old)) base stop) (hfits : Fits new (stop - base))
    (hne : new ≠ []) {x y : Desc} (hx : x ∈ (entries dir).filter (isOld old))
    (hy : y ∈ (entries dir).filter (isOld old)) {top : ℕ}
    (htop : ∀ d ∈ entries dir, d.flashBase ≤ top) (hmem : ∃ d ∈ entries dir, top = d.flashBase) :
    newEntries new (min x.flashBase y.flashBase)
        (u32Sub (spaceEnd (max x.flashBase y.flashBase) (entries dir) top)
          (min x.flashBase y.flashBase)) = place new base (spaceLimit (entries dir) stop) ↔
      (x.flashBase = base ∨ y.flashBase = base) ∧
        (Open new → (x.flashBase + x.size = stop ∨ y.flashBase + y.size = stop) ∧
          ∃ d ∈ entries dir, stop ≤ d.flashBase) := by
  have hpos : ∀ e ∈ (entries dir).filter (isOld old), 0 < e.size := fun e he =>
    (hdir.sizes e (List.mem_of_mem_filter he)).1
  obtain ⟨z, hz, hzstop, hbounds⟩ := hrange.bounds hpos
  have hxlow := (hbounds x hx).1
  have hylow := (hbounds y hy).1
  have hzlow := (hbounds z hz).1
  have hzpos := hpos z hz
  have hzsizes := hdir.sizes z (List.mem_of_mem_filter hz)
  -- addresses are below the end of the address space
  have hmem32 : ∀ d ∈ entries dir, d.flashBase < 4294967296 := fun d hd => by
    have := hdir.sizes d hd
    omega
  have hbase : base < 4294967296 := by omega
  set low := min x.flashBase y.flashBase with hlow
  by_cases heq : low = base
  · rw [heq, and_iff_right (by omega)]
    obtain ⟨-, hletop, hfound⟩ :=
      @spaceEnd_spec (entries dir) (max x.flashBase y.flashBase) top fun d => named_entries
    rw [← spaceEnd_eq_limit_iff hdir hrange hx hy htop hmem]
    set r := spaceEnd (max x.flashBase y.flashBase) (entries dir) top
    have hr : r < 4294967296 := by
      obtain ⟨d, hd, htopd⟩ := hmem
      have := hmem32 d hd
      omega
    have hsum := hfits.sum_le
    rw [newEntries_eq_place_iff (u32Sub_lt hr hbase) hfits.sized (by omega)
      (fun hopen => by have := hfits.sum_lt hopen; omega)]
    refine imp_congr_right fun hopen => ?_
    have hsumlt := hfits.sum_lt hopen
    have hlimit : stop ≤ spaceLimit (entries dir) stop ∧ spaceLimit (entries dir) stop ≤ 4294967296 ∧
        (spaceLimit (entries dir) stop = 4294967296 → stop = 4294967296) := by
      rcases spaceLimit_spec (entries dir) stop with ⟨d, hd, hdstop, hlimit, -⟩ | ⟨-, hlimit⟩
      · have := hmem32 d hd
        omega
      · omega
    refine leftover_iff hr (fun hzero => ?_) hlimit.2.1 (by omega)
    -- an entry at address zero does not reach to the end of the address space
    by_contra hfull
    have htopzero : z.flashBase = 0 := by
      rcases hfound with htop' | ⟨d, hd, habove, hrd⟩
      · have := htop z (List.mem_of_mem_filter hz)
        omega
      · omega
    omega
  · constructor
    · intro hplace
      cases new with
      | nil => exact absurd rfl hne
      | cons p ps =>
        rw [newEntries, place, List.cons.injEq] at hplace
        exact absurd (congrArg Desc.flashBase hplace.1) heq
    · rintro ⟨hor, -⟩
      exact absurd (by omega) heq

/-- The directory is rewritten as it should be exactly if there are slots enough, the old entries
stand together, and the outer ones are those that the range begins and ends with. -/
theorem rewrites_iff (hdir : ValidDir dir)
    (hrange : JointRange ((entries dir).filter (isOld old)) base stop)
    (hfits : Fits new (stop - base)) :
    Rewrites dir old new base stop ↔ Remappable dir old new base stop := by
  have holds : (entries dir).filter (isOld old) ≠ [] := by
    obtain ⟨d, ds, hperm, -⟩ := hrange
    intro hnil
    rw [hnil] at hperm
    cases List.perm_nil.mp hperm
  obtain ⟨A, B, C, h⟩ := exists_split holds
  obtain ⟨x, hx, hxold⟩ := h.head
  obtain ⟨y, hy, hyold⟩ := h.last
  have hxmem : x ∈ (entries dir).filter (isOld old) := by
    rw [h.filter_old]
    exact List.mem_filter.mpr ⟨List.mem_of_mem_head? hx, hxold⟩
  have hymem : y ∈ (entries dir).filter (isOld old) := by
    rw [h.filter_old]
    exact List.mem_filter.mpr ⟨List.mem_of_getLast? hy, hyold⟩
  have hBlen : 0 < B.length := List.length_pos_of_mem (List.mem_of_mem_head? hx)
  obtain ⟨top, htop, hmem, hcall⟩ := @fisRemap_eq dir A B C _ old new x y h hx hy
  rw [Rewrites, hcall, rewritten_eq h]
  constructor
  · intro heq
    split_ifs at heq with hcond
    obtain ⟨henough, hroom⟩ := hcond
    have hne : new ≠ [] := List.ne_nil_of_length_pos (by omega)
    rw [List.append_assoc, List.append_assoc A, List.append_assoc A, Option.some.injEq,
      List.append_cancel_left_eq, List.append_assoc (place _ _ _)] at heq
    obtain ⟨hnew, htail⟩ := List.append_inj heq (by rw [length_newEntries, length_place])
    obtain ⟨hall, hslots⟩ := (tailOf_eq_iff h hdir.blank henough hroom).mp htail
    obtain ⟨hlowest, hopen⟩ :=
      (newEntries_right_iff hdir hrange hfits hne hxmem hymem htop hmem).mp hnew
    have hself : (entries dir).filter (isOld old) = B :=
      h.filter_old.trans (List.filter_eq_self.mpr hall)
    have hothers : (B.filter fun d => !isOld old d) = [] :=
      List.filter_eq_nil_iff.mpr fun d hd => by simp [hall d hd]
    refine ⟨by rwa [hself], ?_, h.adjacent_iff.mpr hall, ?_, fun ho => ?_, fun ho => (hopen ho).2⟩
    · rw [h.filter_others, hothers, List.length_nil]
      omega
    · rw [hself]
      exact (mem_outer_iff hx hy fun d => d.flashBase = base).mpr hlowest
    · rw [hself]
      exact (mem_outer_iff hx hy fun d => d.flashBase + d.size = stop).mpr (hopen ho).1
  · rintro ⟨henough, hroom, hadjacent, hlowest, hhighest, habove⟩
    have hall := h.adjacent_iff.mp hadjacent
    have hself : (entries dir).filter (isOld old) = B :=
      h.filter_old.trans (List.filter_eq_self.mpr hall)
    have hothers : (B.filter fun d => !isOld old d) = [] :=
      List.filter_eq_nil_iff.mpr fun d hd => by simp [hall d hd]
    rw [hself] at henough hlowest hhighest
    rw [h.filter_others, hothers, List.length_nil] at hroom
    have hne : new ≠ [] := List.ne_nil_of_length_pos (by omega)
    have hnew := (newEntries_right_iff hdir hrange hfits hne hxmem hymem htop hmem).mpr
      ⟨(mem_outer_iff hx hy fun d => d.flashBase = base).mp hlowest, fun ho =>
        ⟨(mem_outer_iff hx hy fun d => d.flashBase + d.size = stop).mp (hhighest ho), habove ho⟩⟩
    have htail := (tailOf_eq_iff h hdir.blank henough (by omega)).mpr ⟨hall, by omega⟩
    rw [if_pos ⟨henough, by omega⟩, hnew, htail]
    simp only [List.append_assoc]

end Main

/-- A name in a field of 16 bytes. -/
def fieldName (s : String) : Bytes := ascii s ++ List.replicate (16 - s.length) 0

/-- An entry of some size at an address of the flash. -/
def slot (name : String) (flashBase size : ℕ) : Desc where
  name := fieldName name
  flashBase := 0x50000000 + flashBase
  memBase := 0x80041000
  size := size
  entryPoint := 0x80041000
  dataLength := size
  pad := List.replicate 212 0
  crcDesc := 0
  crcFile := 0

/-- A directory of eight slots. -/
def redBoot : List Desc :=
  [slot "RedBoot" 0 0x30000, slot "kernel" 0x30000 0x100000, slot "rootfs" 0x130000 0x2b0000,
    slot "FIS directory" 0x3e0000 0x10000] ++ List.replicate 4 Desc.blank

/-- The names of the partitions that are replaced. -/
def kernelRootfs : List Bytes := [fieldName "kernel", fieldName "rootfs"]

/-- A new partition. -/
def part (name : String) (size : ℕ) : Part where
  name := fieldName name
  loadaddr := 0x80041000
  size := size
  length := 0
  crc := 0

theorem entries_redBoot : entries redBoot = redBoot.take 4 := by decide +kernel

theorem redBoot_valid : ValidDir redBoot where
  blank := by
    rw [entries_redBoot]
    decide +kernel
  names := by
    rw [entries_redBoot]
    decide +kernel
  sizes := by
    rw [entries_redBoot]
    decide +kernel
  disjoint := by
    rw [entries_redBoot]
    decide +kernel

theorem redBoot_range :
    JointRange ((entries redBoot).filter (isOld kernelRootfs)) 0x50030000 0x503e0000 := by
  have holds : (entries redBoot).filter (isOld kernelRootfs) =
      [slot "kernel" 0x30000 0x100000, slot "rootfs" 0x130000 0x2b0000] := by decide +kernel
  rw [holds]
  exact ⟨_, _, .refl _, rfl, by decide +kernel, _, rfl, rfl⟩

/-- A kernel of another size, and a file system behind it as large as it can be. -/
theorem redBoot_rewritten : Rewrites redBoot kernelRootfs [part "kernel" 0x180000, part "rootfs" 0]
    0x50030000 0x503e0000 := by
  have hfits : Fits [part "kernel" 0x180000, part "rootfs" 0] (0x503e0000 - 0x50030000) :=
    ⟨by decide +kernel, by decide +kernel, by decide +kernel, fun _ => by decide +kernel⟩
  refine (rewrites_iff redBoot_valid redBoot_range hfits).mpr ?_
  exact
    { enough := by decide +kernel
      room := by decide +kernel
      adjacent := by decide +kernel
      lowest := by decide +kernel
      highest := fun _ => by decide +kernel
      above := fun _ => by decide +kernel }

/-- One partition in the place of two ends the process. -/
theorem redBoot_not_rewritten : ValidDir redBoot ∧
    JointRange ((entries redBoot).filter (isOld kernelRootfs)) 0x50030000 0x503e0000 ∧
    Fits [part "firmware" 0x3b0000] (0x503e0000 - 0x50030000) ∧
    ¬ Rewrites redBoot kernelRootfs [part "firmware" 0x3b0000] 0x50030000 0x503e0000 := by
  have hfits : Fits [part "firmware" 0x3b0000] (0x503e0000 - 0x50030000) :=
    ⟨by decide +kernel, by decide +kernel, by decide +kernel, by decide +kernel⟩
  refine ⟨redBoot_valid, redBoot_range, hfits, fun hrewrites => ?_⟩
  have hnone : fisRemap redBoot kernelRootfs [part "firmware" 0x3b0000] = none := by decide +kernel
  rw [Rewrites, hnone] at hrewrites
  cases hrewrites

end NeonWrt.Mtd.Fis
