import NeonWrt.Nmbm.Unmap

/-!
# Where an unmapped block goes

In the initially built table the logical blocks are mapped to the good data blocks in order. The
block that `unmap_block_nmbm` computes is the one of this table only where no bad block was skipped
between a logical block and the nearest one before it that is not remapped. Where one was skipped,
the new block is a bad one or that of another logical block; and a logical block that had no data
block to begin with gets one of the tables or a spare block.

In every run whose operations take a remap back only where nothing was skipped, and only as long as
the tables end below the spare blocks in use, each logical block is mapped to its block of the
initial table or behind the data area.
-/

namespace NeonWrt.Nmbm

open Lib

variable {g : Geometry} {flt : Faults} {ni ni' : Ni} {s s' : Sys} {init : List ℕ}
  {lb block fuel : ℕ}

/-- The entry of a logical block in the initially built table, for the data blocks that it uses. -/
def firstMapping (init : List ℕ) (lb : ℕ) : ℤ := init[lb]?.elim (-1) fun pb => pb

/-- The data blocks that the initially built table leaves out, which are the bad ones. -/
def FactoryBad (init : List ℕ) (ni : Ni) (ba : ℕ) : Prop := ba < ni.mgmtStartBa ∧ ba ∉ init

/-- A logical block is mapped to its first block. -/
def AtHome (init : List ℕ) (ni : Ni) (lb : ℕ) : Prop :=
  0 ≤ firstMapping init lb ∧ ni.mapping lb = firstMapping init lb

/-- A logical block is mapped behind the data area, as far as an `int32_t` goes. -/
def AtSpare (ni : Ni) (lb : ℕ) : Prop :=
  (ni.mgmtStartBa : ℤ) ≤ ni.mapping lb ∧ ni.mapping lb < 2147483648

/-- A mapping that comes from an initially built table by remaps. -/
structure Descends (init : List ℕ) (ni : Ni) : Prop where
  sorted : init.Pairwise (· < ·)
  below : ∀ pb ∈ init, pb < ni.mgmtStartBa
  count_le : ni.dataBlockCount ≤ ni.mgmtStartBa
  mgmt_le : ni.mgmtStartBa ≤ ni.blockMapping.length
  home : ∀ lb < ni.dataBlockCount, AtHome init ni lb ∨ AtSpare ni lb

theorem firstMapping_eq {pb : ℕ} (h : init[lb]? = some pb) : firstMapping init lb = pb := by
  rw [firstMapping, h, Option.elim_some]

/-- An entry that is not `-1` is one of the data blocks used. -/
theorem exists_firstMapping (h : 0 ≤ firstMapping init lb) :
    ∃ pb, init[lb]? = some pb ∧ firstMapping init lb = pb := by
  cases hget : init[lb]? with
  | none =>
    rw [firstMapping, hget, Option.elim_none] at h
    omega
  | some pb => exact ⟨pb, rfl, firstMapping_eq hget⟩

namespace Descends

theorem firstMapping_lt (h : Descends init ni) (lb : ℕ) :
    firstMapping init lb < ni.mgmtStartBa := by
  by_cases hpos : 0 ≤ firstMapping init lb
  · obtain ⟨pb, hget, heq⟩ := exists_firstMapping hpos
    have hlt := h.below pb (List.mem_of_getElem? hget)
    omega
  · omega

/-- Two logical blocks have different first blocks. -/
theorem firstMapping_inj (h : Descends init ni) {lb' : ℕ} (hpos : 0 ≤ firstMapping init lb)
    (heq : firstMapping init lb = firstMapping init lb') : lb = lb' := by
  obtain ⟨pb, hget, hpb⟩ := exists_firstMapping hpos
  obtain ⟨pb', hget', hpb'⟩ := exists_firstMapping (heq ▸ hpos)
  obtain rfl : pb = pb' := by omega
  obtain ⟨hlt, hget⟩ := List.getElem?_eq_some_iff.mp hget
  obtain ⟨hlt', hget'⟩ := List.getElem?_eq_some_iff.mp hget'
  have hnodup : init.Nodup := h.sorted.imp fun hab => hab.ne
  exact hnodup.getElem_inj_iff.mp (hget.trans hget'.symm)

end Descends

/-- What holds in a run: the areas are in order, and the mapping comes from the first one. -/
structure Homes (init : List ℕ) (ni : Ni) : Prop where
  layout : Layout ni
  signature_lt : ni.signatureBa < 65536
  descends : Descends init ni

namespace Homes

theorem mgmt_lt (h : Homes init ni) : ni.mgmtStartBa < 65536 :=
  (h.layout.mgmt_le_top.trans_lt h.layout.top_lt).trans h.signature_lt

/-- The comparison of `unmap_block_nmbm` is one of numbers for logical blocks. -/
theorem isRemapped_iff (h : Homes init ni) (hlb : lb < ni.dataBlockCount) :
    ni.isRemapped lb = true ↔ (ni.mappingBlocksBa : ℤ) ≤ ni.mapping lb := by
  have hrange : 0 ≤ ni.mapping lb ∧ ni.mapping lb < 2147483648 := by
    have hmgmt := h.mgmt_lt
    rcases h.descends.home lb hlb with ⟨hpos, heq⟩ | ⟨hge, hlt⟩
    · have hlt := h.descends.firstMapping_lt lb
      omega
    · omega
  rw [Ni.isRemapped, decide_eq_true_iff]
  rcases toU32_eq (by omega) hrange.2 with ⟨-, heq⟩ | ⟨hneg, -⟩
  · omega
  · omega

/-- The number of a logical block is a `u16`. -/
theorem mod_eq (h : Homes init ni) (hpos : 0 ≤ getMappingBlockIndex ni block) :
    block % 65536 = block := by
  have hcount := h.descends.count_le
  have hmgmt := h.mgmt_lt
  unfold getMappingBlockIndex at hpos
  split_ifs at hpos with hout
  · omega
  · omega

/-- A logical block in its first place does not count as remapped. -/
theorem not_isRemapped (h : Homes init ni) (hlb : lb < ni.dataBlockCount)
    (hhome : AtHome init ni lb) : ni.isRemapped lb = false := by
  have hlt := h.descends.firstMapping_lt lb
  have hmgmt := h.layout.mgmt_le
  rw [Bool.eq_false_iff, Ne, h.isRemapped_iff hlb, hhome.2]
  omega

end Homes

/-- An operation maps logical blocks behind the data area only. -/
structure Drifts (ni ni' : Ni) : Prop where
  layout : Layout ni'
  mgmt : ni'.mgmtStartBa = ni.mgmtStartBa
  signature : ni'.signatureBa = ni.signatureBa
  length : ni'.blockMapping.length = ni.blockMapping.length
  count_le : ni.dataBlockCount ≤ ni.mgmtStartBa → ni'.dataBlockCount ≤ ni.mgmtStartBa
  mapping : ∀ lb < ni'.dataBlockCount,
    lb < ni.dataBlockCount ∧ ni'.mapping lb = ni.mapping lb ∨ AtSpare ni' lb

theorem Homes.drift (h : Homes init ni) (hd : Drifts ni ni') : Homes init ni' := by
  refine ⟨hd.layout, by rw [hd.signature]; exact h.signature_lt, h.descends.sorted, ?_, ?_, ?_, ?_⟩
  · rw [hd.mgmt]
    exact h.descends.below
  · rw [hd.mgmt]
    exact hd.count_le h.descends.count_le
  · rw [hd.mgmt, hd.length]
    exact h.descends.mgmt_le
  · intro lb hlb
    rcases hd.mapping lb hlb with ⟨hold, heq⟩ | hspare
    · refine (h.descends.home lb hold).imp (fun hhome => ?_) fun hspare => ?_
      · exact ⟨hhome.1, heq.trans hhome.2⟩
      · rw [AtSpare, hd.mgmt, heq]
        exact hspare
    · exact .inr hspare

theorem Drifts.of_fixed (h : Layout ni') (hfixed : ni'.fixed = ni.fixed) : Drifts ni ni' := by
  have htable : ni'.blockMapping = ni.blockMapping := congrArg Fixed.blockMapping hfixed
  have hcount : ni'.dataBlockCount = ni.dataBlockCount := congrArg Fixed.dataBlockCount hfixed
  refine ⟨h, mgmtStartBa_of_fixed hfixed, congrArg Fixed.signatureBa hfixed, by rw [htable],
    fun hle => hcount ▸ hle, fun lb hlb => .inl ⟨hcount ▸ hlb, mapping_of_fixed hfixed lb⟩⟩

theorem Drifts.trans {ni'' : Ni} (h : Drifts ni ni') (h' : Drifts ni' ni'') : Drifts ni ni'' := by
  refine ⟨h'.layout, h'.mgmt.trans h.mgmt, h'.signature.trans h.signature, h'.length.trans h.length,
    fun hle => ?_, fun lb hlb => ?_⟩
  · have hle' := h'.count_le (by rw [h.mgmt]; exact h.count_le hle)
    rwa [h.mgmt] at hle'
  · rcases h'.mapping lb hlb with ⟨hlb', heq'⟩ | hspare
    · refine (h.mapping lb hlb').imp (fun hold => ⟨hold.1, heq'.trans hold.2⟩) fun hspare => ?_
      rw [AtSpare, h'.mgmt, heq']
      exact hspare
    · exact .inr hspare

theorem takeSpare_drifts {pb count : ℕ} (h : Layout ni) (hsig : ni.signatureBa < 65536)
    (hpb : ni.mappingBlocksBa < pb) (hle : pb ≤ ni.mappingBlocksTopBa)
    (hlb : lb < ni.blockMapping.length)
    (hcount : ni.dataBlockCount ≤ ni.mgmtStartBa → count ≤ ni.mgmtStartBa)
    (hold : ∀ i < count, i ≠ lb → i < ni.dataBlockCount) :
    Drifts ni { ni.takeSpare lb pb with dataBlockCount := count } := by
  have hmgmt := h.mgmt_le
  have htop := h.top_lt
  refine ⟨h.takeSpare (hpb.trans_le hle) lb pb count, rfl, rfl, List.length_set, hcount,
    fun i hi => ?_⟩
  have hmapping : { ni.takeSpare lb pb with dataBlockCount := count }.mapping i =
      if i = lb then (pb : ℤ) else ni.mapping i := takeSpare_mapping hlb pb i
  by_cases hne : i = lb
  · rw [if_pos hne] at hmapping
    refine .inr ⟨?_, by omega⟩
    show (ni.mgmtStartBa : ℤ) ≤ _
    omega
  · rw [if_neg hne] at hmapping
    exact .inl ⟨hold i hi hne, hmapping⟩

/-- `nmbm_map_block` takes a spare block, or leaves the mapping as it is. -/
theorem mapBlock_drifts {b : Bool} (h : Layout s.ni) (hrun : mapBlock g flt fuel lb s = some (s', b)) :
    b = false ∧ Drifts s.ni s'.ni ∨
      b = true ∧ ∃ pb, s.ni.mappingBlocksBa < pb ∧ pb ≤ s.ni.mappingBlocksTopBa ∧
        s' = ⟨s.ni.takeSpare lb pb, s.chip⟩ := by
  rw [mapBlock] at hrun
  split_ifs at hrun with hfull
  · obtain ⟨rfl, rfl⟩ := Prod.mk.inj (Option.some.inj hrun)
    exact .inl ⟨rfl, .of_fixed h rfl⟩
  · split at hrun
    next hwalk =>
      obtain ⟨⟨t, ok⟩, hupdate, hres⟩ := Option.bind_eq_some_iff.mp hrun
      obtain ⟨rfl, rfl⟩ := Prod.mk.inj (Option.some.inj hres)
      have hupdated := updateInfoTable_updated g flt h hupdate
      have hdrifts : Drifts s.ni t.ni := .of_fixed hupdated.layout hupdated.fixed
      exact .inl ⟨rfl, hupdated.layout.dropSpares, hdrifts.mgmt, hdrifts.signature, hdrifts.length,
        hdrifts.count_le, hdrifts.mapping⟩
    next pb hwalk =>
      obtain ⟨rfl, rfl⟩ := Prod.mk.inj (Option.some.inj hrun)
      have hbounds := walkDesc_bounds hwalk
      rw [walkLimit_of_lt (h.le_top.trans_lt (h.top_lt.trans h.signature_lt))] at hbounds
      exact .inr ⟨rfl, pb, hbounds.2, hbounds.1, rfl⟩

theorem mapNext_drifts {b : Bool} (h : Homes init s.ni)
    (hlt : s.ni.dataBlockCount < s.ni.mgmtStartBa) (hrun : mapNext g flt fuel s = some (s', b)) :
    Drifts s.ni s'.ni := by
  obtain ⟨⟨t, ok⟩, hmap, hrest⟩ := Option.bind_eq_some_iff.mp hrun
  rcases mapBlock_drifts h.layout hmap with ⟨rfl, hdrifts⟩ | ⟨rfl, pb, hpb, hle, rfl⟩
  · obtain ⟨rfl, rfl⟩ := Prod.mk.inj (Option.some.inj hrest)
    exact hdrifts
  · obtain ⟨rfl, rfl⟩ := Prod.mk.inj (Option.some.inj hrest)
    refine takeSpare_drifts h.layout h.signature_lt hpb hle (hlt.trans_le h.descends.mgmt_le)
      (fun _ => hlt) fun i hi hne => ?_
    have hi' : i < s.ni.dataBlockCount + 1 := hi
    omega

theorem remapBlock_drifts {mapped copyLen : ℕ} {b : Bool} (h : Homes init s.ni)
    (hrun : remapBlock g flt fuel lb mapped copyLen s = some (s', b)) : Drifts s.ni s'.ni := by
  rw [remapBlock] at hrun
  by_cases hout : s.ni.dataBlockCount ≤ lb
  · rw [if_pos hout] at hrun
    obtain ⟨rfl, rfl⟩ := Prod.mk.inj (Option.some.inj hrun)
    exact .of_fixed h.layout rfl
  · rw [if_neg hout] at hrun
    obtain ⟨⟨t, ok⟩, hmap, hrest⟩ := Option.bind_eq_some_iff.mp hrun
    have hlayout : Layout (s.ni.setState mapped .bad) :=
      h.layout.states (sameButStates_setState _ _ _)
    have hmark : Drifts s.ni (s.ni.setState mapped .bad) := .of_fixed hlayout rfl
    rcases mapBlock_drifts hlayout hmap with ⟨rfl, hdrifts⟩ | ⟨rfl, pb, hpb, hle, rfl⟩
    · obtain ⟨rfl, rfl⟩ := Prod.mk.inj (Option.some.inj hrest)
      exact hmark.trans hdrifts
    · obtain ⟨⟨u, ok⟩, hupdate, hres⟩ := Option.bind_eq_some_iff.mp hrest
      obtain ⟨rfl, rfl⟩ := Prod.mk.inj (Option.some.inj hres)
      have hlb : lb < s.ni.blockMapping.length :=
        (Nat.lt_of_not_le hout).trans_le (h.descends.count_le.trans h.descends.mgmt_le)
      have htaken : Drifts (s.ni.setState mapped .bad) ((s.ni.setState mapped .bad).takeSpare lb pb) :=
        @takeSpare_drifts _ lb pb s.ni.dataBlockCount hlayout h.signature_lt hpb hle hlb
          (fun hcount => hcount) fun i hi _ => hi
      have hupdated := updateInfoTable_updated g flt htaken.layout hupdate
      exact (hmark.trans htaken).trans (.of_fixed hupdated.layout hupdated.fixed)

/-- Every operation but those that take a remap back maps logical blocks behind the data area only. -/
theorem exec_drifts {w w' : World} {op : Op} (h : Homes init w.sys.ni)
    (hexec : exec g flt fuel w op = some w') : Drifts w.sys.ni w'.sys.ni := by
  cases op with
  | mapNext =>
    rw [exec] at hexec
    split_ifs at hexec with hphase
    obtain ⟨⟨t, b⟩, hrun, rfl⟩ := Option.map_eq_some_iff.mp hexec
    exact mapNext_drifts h hphase.2 hrun
  | finish =>
    rw [exec] at hexec
    split_ifs at hexec
    obtain ⟨⟨t, b⟩, hrun, rfl⟩ := Option.map_eq_some_iff.mp hexec
    have hupdated := updateInfoTable_updated g flt h.layout hrun
    exact .of_fixed hupdated.layout hupdated.fixed
  | remap block copyLen =>
    rw [exec] at hexec
    split_ifs at hexec
    obtain ⟨⟨t, b⟩, hrun, rfl⟩ := Option.map_eq_some_iff.mp hexec
    exact remapBlock_drifts h hrun
  | setState ba st =>
    rw [exec] at hexec
    split_ifs at hexec
    obtain rfl := Option.some.inj hexec
    exact .of_fixed (h.layout.states (sameButStates_setState _ ba st)) rfl
  | update =>
    rw [exec] at hexec
    split_ifs at hexec
    obtain ⟨⟨t, b⟩, hrun, rfl⟩ := Option.map_eq_some_iff.mp hexec
    have hupdated := updateInfoTable_updated g flt h.layout hrun
    exact .of_fixed hupdated.layout hupdated.fixed

/-- No bad block was skipped between a logical block and the nearest one before it that is not
remapped, when the first table was built. -/
def Aligned (init : List ℕ) (ni : Ni) (block : ℕ) : Prop :=
  ∃ start < block, AtHome init ni start ∧
    firstMapping init block = firstMapping init start + (block - start) ∧
    ∀ i ≤ block, start < i → (ni.mappingBlocksBa : ℤ) ≤ ni.mapping i

/-- The tables end below the spare blocks in use. -/
def SparesBehind (ni : Ni) : Prop :=
  ∀ lb < ni.dataBlockCount, ni.mapping lb < ni.mgmtStartBa ∨ (ni.mappingBlocksBa : ℤ) < ni.mapping lb

/-- A logical block is back where it was at first, which is not a bad block, the others are where they
were, and none of them is there. -/
structure Undone (init : List ℕ) (block : ℕ) (ni ni' : Ni) : Prop where
  restored : ni'.mapping block = firstMapping init block
  notBad : ∀ ba : ℕ, ni'.mapping block = ba → ¬ FactoryBad init ni ba
  others : ∀ lb, lb ≠ block → ni'.mapping lb = ni.mapping lb
  distinct : ∀ lb < ni.dataBlockCount, lb ≠ block → ni'.mapping lb ≠ ni'.mapping block

theorem Aligned.nonneg (h : Aligned init ni block) : 0 ≤ firstMapping init block := by
  obtain ⟨start, hlt, ⟨hpos, -⟩, heq, -⟩ := h
  omega

/-- The search finds the first block of an aligned logical block. -/
theorem Homes.findHome (h : Homes init ni) (hblock : block < ni.dataBlockCount)
    (hal : Aligned init ni block) : ∃ start offset, offset ≠ 0 ∧
      findHome ni block 0 = some (start, offset) ∧
      ni.mapping start + offset = firstMapping init block := by
  obtain ⟨start, hlt, hhome, heq, hbehind⟩ := hal
  refine ⟨start, block - start, by omega, ?_, ?_⟩
  · have hsearch := @findHome_of ni start 0 block hlt.le (h.not_isRemapped (hlt.trans hblock) hhome)
      fun i hi hik => (h.isRemapped_iff (hik.trans_lt hblock)).mpr (hbehind i hik hi)
    rwa [Nat.zero_add] at hsearch
  · rw [hhome.2, heq]
    omega

/-- If the search leads to the first block of a logical block behind the data area, it is aligned. -/
theorem Homes.aligned {start offset : ℕ} (h : Homes init ni) (hblock : block < ni.dataBlockCount)
    (hzero : offset ≠ 0) (hfind : NeonWrt.Nmbm.findHome ni block 0 = some (start, offset))
    (heq : ni.mapping start + offset = firstMapping init block) : Aligned init ni block := by
  obtain ⟨hle, hoffset, hhome, hbehind⟩ := findHome_some hfind
  have hlt := h.descends.firstMapping_lt block
  -- a block behind the data area would lead further behind it
  have hplace : AtHome init ni start :=
    (h.descends.home start (hle.trans_lt hblock)).resolve_right fun hspare => by
      have hge := hspare.1
      omega
  have hstart := hplace.2
  exact ⟨start, by omega, hplace, by omega,
    fun i hik hi => (h.isRemapped_iff (hik.trans_lt hblock)).mp (hbehind i hi hik)⟩

theorem Homes.putBack (h : Homes init ni) (hblock : block < ni.dataBlockCount)
    (hpos : 0 ≤ firstMapping init block) : Homes init (ni.putBack block (firstMapping init block)) := by
  have hstate : Layout (ni.setState (toU32 (firstMapping init block)) .good) :=
    h.layout.states (sameButStates_setState _ _ _)
  have hlen : block < ni.blockMapping.length :=
    hblock.trans_le (h.descends.count_le.trans h.descends.mgmt_le)
  refine ⟨⟨⟨hstate.cache, hstate.mgmt_le_top, hstate.top_lt, hstate.signature_lt⟩, hstate.mgmt_le,
    hstate.le_top, hstate.main, hstate.mainBlocks, hstate.backup, hstate.backupBlocks⟩,
    h.signature_lt, h.descends.sorted, h.descends.below, h.descends.count_le,
    h.descends.mgmt_le.trans_eq List.length_set.symm, fun lb hlb => ?_⟩
  rw [AtHome, AtSpare, putBack_mapping hlen]
  split_ifs with heq
  · rw [heq]
    exact .inl ⟨hpos, rfl⟩
  · exact h.descends.home lb hlb

/-- The spare blocks in use stay above the boundary that is found. -/
theorem Homes.findTop (h : Homes init ni) (hbehind : SparesBehind ni) : Homes init ni.findTop := by
  have hmgmt := h.layout.mgmt_le
  have hsig := h.signature_lt
  obtain ⟨hge, hlt⟩ := @spareTop_bounds ni ni.mappingBlocksBa
    (by exact_mod_cast h.layout.le_top.trans_lt h.layout.top_lt) fun lb hlb hremapped => by
      have hle := (h.isRemapped_iff hlb).mp hremapped
      rcases hbehind lb hlb with hdata | hspare
      · omega
      · exact hspare
  have htop : (toU32 (spareTop ni) : ℤ) = spareTop ni := by
    unfold toU32
    omega
  refine ⟨⟨⟨h.layout.cache, ?_, ?_, h.layout.signature_lt⟩, hmgmt, ?_, h.layout.main,
    h.layout.mainBlocks, h.layout.backup, h.layout.backupBlocks⟩, hsig, h.descends.sorted,
    h.descends.below, h.descends.count_le, h.descends.mgmt_le, h.descends.home⟩
  · show ni.mgmtStartBa ≤ toU32 (spareTop ni)
    omega
  · show toU32 (spareTop ni) < ni.signatureBa
    omega
  · show ni.mappingBlocksBa ≤ toU32 (spareTop ni)
    omega

theorem SparesBehind.putBack (h : SparesBehind ni) (hd : Descends init ni)
    (hblock : block < ni.dataBlockCount) :
    SparesBehind (ni.putBack block (firstMapping init block)) := by
  intro lb hlb
  rw [putBack_mapping (hblock.trans_le (hd.count_le.trans hd.mgmt_le))]
  split_ifs with heq
  · exact .inl (hd.firstMapping_lt block)
  · exact h lb hlb

/-- The condition on a step: a remap is taken back only where no bad block was skipped, and while the
tables end below the spare blocks in use. -/
def UndoOk (init : List ℕ) (w : World) : UndoOp → Prop
  | .base _ => True
  | .unmap block | .repair block =>
    block < w.sys.ni.dataBlockCount → w.sys.ni.isRemapped block = true →
      Aligned init w.sys.ni block ∧ SparesBehind w.sys.ni

theorem Homes.unmapBlock (h : Homes init s.ni)
    (hok : block < s.ni.dataBlockCount → s.ni.isRemapped block = true →
      Aligned init s.ni block ∧ SparesBehind s.ni)
    (hrun : unmapBlock g flt fuel block s = some s') : Homes init s'.ni := by
  rcases unmapBlock_cases hrun with
    ⟨rfl, -⟩ | ⟨hblock, start, offset, hzero, hfind, hfixed, ok, hupdate⟩
  · exact h
  · obtain ⟨hle, hoffset, -, hremapped⟩ := findHome_some hfind
    obtain ⟨hal, hbehind⟩ := hok hblock (hremapped block (by omega) le_rfl)
    obtain ⟨start', offset', -, hfind', heq⟩ := h.findHome hblock hal
    obtain ⟨rfl, rfl⟩ := Prod.mk.inj (Option.some.inj (hfind.symm.trans hfind'))
    rw [heq] at hupdate
    have hback := (h.putBack hblock hal.nonneg).findTop (hbehind.putBack h.descends hblock)
    have hupdated := updateInfoTable_updated g flt hback.layout hupdate
    exact hback.drift (.of_fixed hupdated.layout hupdated.fixed)

/-- Back at its first block, a logical block shares it with no other one. -/
theorem Homes.undone (h : Homes init ni) (hal : Aligned init ni block)
    (hself : ni'.mapping block = firstMapping init block)
    (hothers : ∀ lb, lb ≠ block → ni'.mapping lb = ni.mapping lb) : Undone init block ni ni' := by
  have hfirst := h.descends.firstMapping_lt block
  refine ⟨hself, fun ba hba hbad => ?_, hothers, fun lb hlb hne hsame => ?_⟩
  · obtain ⟨pb, hget, hpb⟩ := exists_firstMapping hal.nonneg
    obtain rfl : ba = pb := by omega
    exact hbad.2 (List.mem_of_getElem? hget)
  · rw [hself, hothers lb hne] at hsame
    rcases h.descends.home lb hlb with ⟨hpos, heq⟩ | ⟨hge, -⟩
    · exact hne (h.descends.firstMapping_inj hpos (heq.symm.trans hsame))
    · omega

/-- A remap is taken back exactly where no bad block was skipped. -/
theorem Homes.undone_iff_aligned (h : Homes init s.ni) (hblock : block < s.ni.dataBlockCount)
    (hspare : (s.ni.mgmtStartBa : ℤ) ≤ s.ni.mapping block)
    (hrun : NeonWrt.Nmbm.unmapBlock g flt fuel block s = some s') :
    Undone init block s.ni s'.ni ↔ Aligned init s.ni block := by
  have hfirst := h.descends.firstMapping_lt block
  have hlen : block < s.ni.blockMapping.length :=
    hblock.trans_le (h.descends.count_le.trans h.descends.mgmt_le)
  rcases unmapBlock_cases hrun with ⟨rfl, hnone⟩ | ⟨-, start, offset, hzero, hfind, hfixed, -⟩
  · constructor
    · intro hundone
      have hrestored := hundone.restored
      omega
    · intro hal
      obtain ⟨start, offset, hzero, hfind, -⟩ := h.findHome hblock hal
      exact absurd (hnone hblock start offset hfind) hzero
  · have hmapping : ∀ i, s'.ni.mapping i =
        if i = block then s.ni.mapping start + offset else s.ni.mapping i := fun i =>
      (mapping_of_fixed hfixed i).trans (putBack_mapping hlen _ i)
    have hself : s'.ni.mapping block = s.ni.mapping start + offset := by rw [hmapping, if_pos rfl]
    constructor
    · intro hundone
      exact h.aligned hblock hzero hfind (hself.symm.trans hundone.restored)
    · intro hal
      obtain ⟨start', offset', -, hfind', heq⟩ := h.findHome hblock hal
      obtain ⟨rfl, rfl⟩ := Prod.mk.inj (Option.some.inj (hfind.symm.trans hfind'))
      exact h.undone hal (hself.trans heq) fun i hi => by rw [hmapping, if_neg hi]

theorem createNewStart_signatureBa (h : createNewStart g flt s = (s', true)) :
    s'.ni.signatureBa ≤ s.ni.blockCount - 1 := by
  obtain ⟨states, changed, hni⟩ :=
    scanBadblocks_sameButStates flt ⟨{ s.ni with mgmtStartBa := mgmtStart s.ni }, s.chip⟩
  unfold createNewStart at h
  dsimp only at h
  split at h
  · simp at h
  next ba hba =>
    obtain ⟨rfl, -⟩ := Prod.mk.inj h
    have hle := writeSignatureLoop_le g flt hba
    rw [hni] at hle
    exact hle

theorem searchInfoTable_signatureBa (ba limit : ℕ) (loaded : Bool) (s : Sys) :
    (searchInfoTable g flt ba limit loaded s).1.ni.signatureBa = s.ni.signatureBa :=
  congrArg Sizes.signatureBa (searchLoop_sizes loaded _ ba s)

theorem repairTables_signatureBa (main : Loaded) (backup : Option Loaded) (s : Sys) :
    (repairTables g flt main backup s).1.ni.signatureBa = s.ni.signatureBa := by
  unfold repairTables
  split
  · exact congrArg Fixed.signatureBa rescueSingleInfoTable_fixed
  · split_ifs
    · exact congrArg Fixed.signatureBa (updateSingleInfoTable_fixed _)
    · rfl

/-- Loading info tables leaves the signature where it is. -/
theorem loadInfoTable_signatureBa (ba limit : ℕ) (s : Sys) :
    (loadInfoTable g flt ba limit s).1.ni.signatureBa = s.ni.signatureBa := by
  have hfirst := @searchInfoTable_signatureBa g flt ba limit false ⟨s.ni.beginLoad, s.chip⟩
  unfold loadInfoTable
  dsimp only
  generalize searchInfoTable g flt ba limit false ⟨s.ni.beginLoad, s.chip⟩ = m at hfirst ⊢
  obtain ⟨t, o⟩ := m
  cases o with
  | none => exact hfirst
  | some l =>
    obtain ⟨mainBa, main⟩ := l
    have hsecond := @searchInfoTable_signatureBa g flt main.stop limit true
      ⟨t.ni.placeMain (main.placed mainBa), t.chip⟩
    dsimp only
    unfold loadSecond
    dsimp only
    generalize searchInfoTable g flt main.stop limit true _ = b at hsecond ⊢
    unfold finishLoad
    dsimp only
    rw [Ni.protectIf]
    dsimp only
    rw [repairTables_signatureBa, settle_signatureBa]
    obtain ⟨u, o⟩ := b
    cases o <;> exact hsecond.trans hfirst

theorem loadExisting_signatureBa :
    (∀ t, loadExisting g flt s = .attached t → t.ni.signatureBa = s.ni.signatureBa) ∧
      ∀ t, loadExisting g flt s = .creating t → t.ni.signatureBa = s.ni.signatureBa := by
  unfold loadExisting
  dsimp only
  generalize hl : loadInfoTable g flt _ _ _ = l
  have hsig : l.1.ni.signatureBa = s.ni.signatureBa := by
    rw [← hl]
    exact loadInfoTable_signatureBa _ _ _
  split_ifs
  · refine ⟨fun t ht => ?_, fun t ht => ht.elim⟩
    obtain rfl := Started.attached.inj ht
    exact hsig
  · exact ⟨fun t ht => ht.elim, fun t ht => ht.elim⟩
  · refine ⟨fun t ht => ht.elim, fun t ht => ?_⟩
    obtain rfl := Started.creating.inj ht
    obtain ⟨states, changed, hni⟩ := scanBadblocks_sameButStates flt l.1
    rw [hni]
    exact hsig

theorem attachStart_signatureBa {cfg : Config} {chip : Chip} :
    (∀ s, attachStart g flt cfg chip = .attached s → s.ni.signatureBa ≤ g.totalBlks - 1) ∧
      ∀ s, attachStart g flt cfg chip = .creating s → s.ni.signatureBa ≤ g.totalBlks - 1 := by
  have hfind := @findLoop_spec g flt ((initStructure g cfg).blockCount + 1 -
    signatureLimit (initStructure g cfg)) (initStructure g cfg).blockCount chip
  unfold attachStart findSignature
  dsimp only
  generalize findLoop g flt _ _ chip = f at hfind ⊢
  obtain ⟨c, o⟩ := f
  cases o with
  | none =>
    dsimp only
    generalize hnew : createNewStart g flt _ = n
    obtain ⟨t, b⟩ := n
    split_ifs with hforce hcreated
    · exact ⟨fun t' ht => ht.elim, fun t' ht => ht.elim⟩
    · refine ⟨fun t' ht => ht.elim, fun t' ht => ?_⟩
      obtain rfl := Started.creating.inj ht
      obtain rfl : b = true := hcreated
      exact createNewStart_signatureBa hnew
    · exact ⟨fun t' ht => ht.elim, fun t' ht => ht.elim⟩
  | some found =>
    obtain ⟨sig, ba⟩ := found
    have hba : ba ≤ g.totalBlks - 1 := hfind.2 sig ba rfl
    dsimp only
    split_ifs
    · exact ⟨fun t' ht => ht.elim, fun t' ht => ht.elim⟩
    · exact ⟨fun t' ht => ht.elim, fun t' ht => ht.elim⟩
    · obtain ⟨hattached, hcreating⟩ := @loadExisting_signatureBa g flt
        ⟨{ initStructure g cfg with signature := sig, signatureBa := ba }, c⟩
      exact ⟨fun t' ht => (hattached t' ht).trans_le hba, fun t' ht => (hcreating t' ht).trans_le hba⟩

section Start

variable {cfg : Config} {chip : Chip} {w : World}

/-- A run starts from tables that were loaded, or from the first tables of a built instance. -/
theorem start_cases (h : Start g flt cfg chip w) :
    (w.phase = .attached ∧ attachStart g flt cfg chip = .attached w.sys) ∨
      w.phase = .creating ∧ ∃ s, attachStart g flt cfg chip = .creating s ∧
        createInfoTableStart g flt s = (w.sys, true) := by
  unfold Start start at h
  split at h
  next => simp at h
  next s hs =>
    obtain rfl := Option.some.inj h
    exact .inl ⟨rfl, hs⟩
  next s hs =>
    dsimp only at h
    split_ifs at h with hb
    obtain rfl := Option.some.inj h
    exact .inr ⟨rfl, s, hs, Prod.ext rfl hb⟩

/-- The first tables leave the mapping and the boundaries of the data area as they are. -/
theorem createInfoTableStart_fixed (h : createInfoTableStart g flt s = (s', true)) :
    s'.ni.blockMapping = s.ni.blockMapping ∧ s'.ni.dataBlockCount = s.ni.dataBlockCount ∧
      s'.ni.mgmtStartBa = s.ni.mgmtStartBa ∧ s'.ni.signatureBa = s.ni.signatureBa := by
  unfold createInfoTableStart at h
  split at h
  · simp at h
  next top htop =>
    have hfixed := @rebuildInfoTable_fixed g flt
      ⟨(generateInfoTableCache { s.ni with mappingBlocksTopBa := top }).1, s.chip⟩
    rw [h] at hfixed
    exact ⟨congrArg Fixed.blockMapping hfixed, congrArg Fixed.dataBlockCount hfixed,
      congrArg Fixed.mgmtStartBa hfixed, congrArg Fixed.signatureBa hfixed⟩

theorem createInfoTableStart_mgmt_lt (hbuilt : Built s.ni)
    (h : createInfoTableStart g flt s = (s', true)) : s.ni.mgmtStartBa < s.ni.blockCount := by
  unfold createInfoTableStart at h
  split at h
  · simp at h
  next top hwalk =>
    obtain ⟨hmgmt, htop, hsig⟩ := walkDesc_spare hbuilt.signature_le hwalk
    omega

theorem start_signatureBa (h : Start g flt cfg chip w) : w.sys.ni.signatureBa < 65536 := by
  have hblocks := g.totalBlks_lt
  obtain ⟨hattached, hcreating⟩ := @attachStart_signatureBa g flt cfg chip
  rcases start_cases h with ⟨-, hs⟩ | ⟨-, s, hs, hcreate⟩
  · have hle := hattached _ hs
    omega
  · have hle := hcreating _ hs
    have hsame := (createInfoTableStart_fixed hcreate).2.2.2
    omega

variable (g flt cfg chip) in
/-- The first state of a run, and its initially built table: the table of a new instance, or one that
the table that was loaded comes from. -/
def Begin (init : List ℕ) (w : World) : Prop :=
  Start g flt cfg chip w ∧
    (w.phase = .creating → w.sys.ni.blockMapping.take w.sys.ni.dataBlockCount =
      init.map fun pb : ℕ => (pb : ℤ)) ∧
    (w.phase = .attached → Descends init w.sys.ni)

theorem Built.descends (h : Built ni) (hmgmt : ni.mgmtStartBa ≤ ni.blockCount)
    (hinit : ni.blockMapping.take ni.dataBlockCount = init.map fun pb : ℕ => (pb : ℤ)) :
    Descends init ni := by
  obtain ⟨blocks, hsub, hcount, htable⟩ := h.mapping
  have hle : blocks.length ≤ ni.mgmtStartBa := by simpa using hsub.length_le
  have hsame : blocks = init := by
    rw [htable, hcount, List.take_left' (List.length_map _)] at hinit
    exact List.map_injective_iff.mpr (fun a b hab => Int.ofNat_inj.mp hab) hinit
  subst hsame
  refine ⟨?_, fun pb hpb => List.mem_range.mp (hsub.subset hpb), hcount ▸ hle, ?_, fun lb hlb => ?_⟩
  · exact List.Pairwise.sublist hsub List.pairwise_lt_range
  · rw [htable, List.length_append, List.length_map, List.length_replicate]
    omega
  · rw [hcount] at hlb
    have hget : blocks[lb]? = some (blocks[lb]) := List.getElem?_eq_getElem hlb
    have hfirst := firstMapping_eq hget
    refine .inl ⟨by omega, ?_⟩
    rw [hfirst, Ni.mapping, htable, List.getD_eq_getElem?_getD, List.getElem?_append_left
      (by rw [List.length_map]; exact hlb), List.getElem?_map, hget]
    rfl

theorem Descends.congr (h : Descends init ni) (htable : ni'.blockMapping = ni.blockMapping)
    (hcount : ni'.dataBlockCount = ni.dataBlockCount) (hmgmt : ni'.mgmtStartBa = ni.mgmtStartBa) :
    Descends init ni' := by
  have hmapping : ∀ lb, ni'.mapping lb = ni.mapping lb := fun lb => by
    rw [Ni.mapping, htable, Ni.mapping]
  refine ⟨h.sorted, ?_, ?_, ?_, fun lb hlb => ?_⟩
  · rw [hmgmt]
    exact h.below
  · rw [hcount, hmgmt]
    exact h.count_le
  · rw [hmgmt, htable]
    exact h.mgmt_le
  · rw [AtHome, AtSpare, hmapping, hmgmt]
    exact h.home lb (hcount ▸ hlb)

/-- A run starts with a mapping that comes from its initially built table. -/
theorem begin_homes (hload : LoadOk g flt cfg chip) (h : Begin g flt cfg chip init w) :
    Homes init w.sys.ni := by
  obtain ⟨hstart, hnew, hloaded⟩ := h
  have hsettled := start_settled hload hstart
  refine ⟨hsettled.layout, start_signatureBa hstart, ?_⟩
  rcases start_cases hstart with ⟨hphase, -⟩ | ⟨hphase, s, hs, hcreate⟩
  · exact hloaded hphase
  · have hinit := hnew hphase
    have hbuilt := (attachStart_cases hload).2 s hs
    obtain ⟨htable, hcount, hmgmt, -⟩ := createInfoTableStart_fixed hcreate
    rw [htable, hcount] at hinit
    have hroom := createInfoTableStart_mgmt_lt hbuilt hcreate
    exact (hbuilt.descends hroom.le hinit).congr htable hcount hmgmt

/-- An operation that meets the condition keeps what holds in a run. -/
theorem step_homes {w' : World} {op : UndoOp} (h : Homes init w.sys.ni) (hok : UndoOk init w op)
    (hstep : UndoStep g flt w op w') : Homes init w'.sys.ni := by
  obtain ⟨fuel, hexec⟩ := hstep
  cases op with
  | base op => exact h.drift (exec_drifts h hexec)
  | unmap block =>
    rw [execUndo] at hexec
    split_ifs at hexec
    obtain ⟨t, hrun, rfl⟩ := Option.map_eq_some_iff.mp hexec
    exact h.unmapBlock hok hrun
  | repair block =>
    rw [execUndo] at hexec
    split_ifs at hexec
    obtain ⟨r, hrun, rfl⟩ := Option.map_eq_some_iff.mp hexec
    rcases debugRepair_ni hrun with ⟨hsame, -⟩ | ⟨hpos, t, hunmap, hsame⟩
    · show Homes init r.1.ni
      rw [hsame]
      exact h
    · show Homes init r.1.ni
      rw [hsame]
      rw [h.mod_eq hpos] at hunmap
      exact h.unmapBlock hok hunmap

/-- In every run that takes back only remaps of aligned blocks, each logical block is in its first
place or behind the data area. -/
theorem reaches_homes (hload : LoadOk g flt cfg chip)
    (h : Reaches (Begin g flt cfg chip init) (UndoStep g flt) (UndoOk init) w) :
    Homes init w.sys.ni :=
  h.invariant (P := fun w => Homes init w.sys.ni) (fun _ hbegin => begin_homes hload hbegin)
    fun _ _ _ hs hok hstep => step_homes hs hok hstep

/-- **The remaps that are taken back.** In a run that takes back only remaps of aligned blocks, the
unmap operation and the repair put a logical block behind the data area back to its block of the
initially built table, which is not a bad one, and leave the others alone and apart from it, if and
only if no bad block was skipped between it and the nearest block before it that is not remapped. -/
theorem undone_iff {w' : World} {op : UndoOp} (hload : LoadOk g flt cfg chip)
    (h : Reaches (Begin g flt cfg chip init) (UndoStep g flt) (UndoOk init) w)
    (hblock : block < w.sys.ni.dataBlockCount)
    (hspare : (w.sys.ni.mgmtStartBa : ℤ) ≤ w.sys.ni.mapping block)
    (hop : op = .unmap block ∨ op = .repair block) (hstep : UndoStep g flt w op w') :
    Undone init block w.sys.ni w'.sys.ni ↔ Aligned init w.sys.ni block := by
  have hhomes := reaches_homes hload h
  obtain ⟨fuel, hexec⟩ := hstep
  rcases hop with rfl | rfl
  · rw [execUndo] at hexec
    split_ifs at hexec
    obtain ⟨t, hrun, rfl⟩ := Option.map_eq_some_iff.mp hexec
    exact hhomes.undone_iff_aligned hblock hspare hrun
  · rw [execUndo] at hexec
    split_ifs at hexec
    obtain ⟨r, hrun, rfl⟩ := Option.map_eq_some_iff.mp hexec
    have hindex : getMappingBlockIndex w.sys.ni block = w.sys.ni.mapping block :=
      if_neg (Nat.not_le.mpr hblock)
    rcases debugRepair_ni hrun with ⟨-, hneg⟩ | ⟨hpos, t, hunmap, hsame⟩
    · omega
    · rw [hhomes.mod_eq hpos] at hunmap
      show Undone init block w.sys.ni r.1.ni ↔ _
      rw [hsame]
      exact hhomes.undone_iff_aligned hblock hspare hunmap

end Start

instance (init : List ℕ) (ni : Ni) (block : ℕ) : Decidable (Aligned init ni block) := by
  unfold Aligned AtHome
  infer_instance

instance (ni : Ni) : Decidable (SparesBehind ni) := by
  unfold SparesBehind
  infer_instance

instance (init : List ℕ) (w : World) (op : UndoOp) : Decidable (UndoOk init w op) := by
  unfold UndoOk
  split <;> infer_instance

/-- The second data block of the small chip is bad. -/
def secondBad : Faults := badBlocks fun _ ba => ba == 1

/-- The table that is built then. -/
def secondSkipped : List ℕ := [0, 2, 3, 4, 5, 6, 7, 8, 9, 10, 11]

/-- The steps of a run on that chip. -/
def undoRun (ops : List UndoOp) : Option World :=
  (start smallGeometry secondBad halfReserved blankChip).bind fun w =>
    runAll (execUndo smallGeometry secondBad 3) (fun w op => decide (UndoOk secondSkipped w op)) w ops

set_option maxRecDepth 100000 in
theorem undoRun_reaches {w : World} {ops : List UndoOp} (h : undoRun ops = some w) :
    Reaches (Begin smallGeometry secondBad halfReserved blankChip secondSkipped)
      (UndoStep smallGeometry secondBad) (UndoOk secondSkipped) w := by
  obtain ⟨w₀, hstart, hrun⟩ := Option.bind_eq_some_iff.mp h
  have hfirst : ((start smallGeometry secondBad halfReserved blankChip).map fun w =>
      (w.phase, w.sys.ni.blockMapping.take w.sys.ni.dataBlockCount)) =
        some (.creating, secondSkipped.map fun pb : ℕ => (pb : ℤ)) := by
    decide +kernel
  rw [hstart, Option.map_some, Option.some.injEq, Prod.mk.injEq] at hfirst
  have hbegin : Begin smallGeometry secondBad halfReserved blankChip secondSkipped w₀ :=
    ⟨hstart, fun _ => hfirst.2, fun hphase => by rw [hfirst.1] at hphase; cases hphase⟩
  exact (reaches_runAll (fun w op htest => of_decide_eq_true htest) (.start hbegin) hrun).of_step
    fun _ _ _ hexec => ⟨3, hexec⟩

set_option maxRecDepth 100000 in
/-- The third logical block is put back to the fourth physical block. -/
theorem undone_third : ∃ w w', w.sys.ni.mapping 2 = 21 ∧ w'.sys.ni.mapping 2 = 3 ∧
    UndoStep smallGeometry secondBad w (.repair 2) w' ∧
    Undone secondSkipped 2 w.sys.ni w'.sys.ni := by
  have hrun : ((undoRun [.base .mapNext, .base .finish, .base (.remap 2 0)]).bind fun w =>
      (execUndo smallGeometry secondBad 3 w (.repair 2)).map fun w' =>
        (w.sys.ni.dataBlockCount, w.sys.ni.mgmtStartBa, w.sys.ni.mapping 2, w'.sys.ni.mapping 2,
          decide (Aligned secondSkipped w.sys.ni 2))) = some (12, 12, 21, 3, true) := by
    decide +kernel
  obtain ⟨w, hw, hrun⟩ := Option.bind_eq_some_iff.mp hrun
  obtain ⟨w', hexec, hvalues⟩ := Option.map_eq_some_iff.mp hrun
  simp only [Prod.mk.injEq, decide_eq_true_iff] at hvalues
  obtain ⟨hcount, hmgmt, hspare, hback, hal⟩ := hvalues
  have hload := loadOk_blank (fun _ ba => ba == 1) (by decide +kernel)
  refine ⟨w, w', hspare, hback, ⟨3, hexec⟩, ?_⟩
  exact (undone_iff hload (undoRun_reaches hw) (by omega) (by omega) (.inr rfl) ⟨3, hexec⟩).mpr hal

set_option maxRecDepth 100000 in
/-- The second logical block is put to the bad block. -/
theorem not_undone_second : ∃ w w', Reaches
    (Begin smallGeometry secondBad halfReserved blankChip secondSkipped)
    (UndoStep smallGeometry secondBad) (UndoOk secondSkipped) w ∧
    1 < w.sys.ni.dataBlockCount ∧ (w.sys.ni.mgmtStartBa : ℤ) ≤ w.sys.ni.mapping 1 ∧
    UndoStep smallGeometry secondBad w (.repair 1) w' ∧
    FactoryBad secondSkipped w.sys.ni 1 ∧ w'.sys.ni.mapping 1 = 1 ∧
    ¬ Undone secondSkipped 1 w.sys.ni w'.sys.ni := by
  have hrun : ((undoRun [.base .mapNext, .base .finish, .base (.remap 1 0)]).bind fun w =>
      (execUndo smallGeometry secondBad 3 w (.repair 1)).map fun w' =>
        (w.sys.ni.dataBlockCount, w.sys.ni.mgmtStartBa, w.sys.ni.mapping 1, w'.sys.ni.mapping 1)) =
      some (12, 12, 21, 1) := by
    decide +kernel
  obtain ⟨w, hw, hrun⟩ := Option.bind_eq_some_iff.mp hrun
  obtain ⟨w', hexec, hvalues⟩ := Option.map_eq_some_iff.mp hrun
  simp only [Prod.mk.injEq] at hvalues
  obtain ⟨hcount, hmgmt, hspare, hback⟩ := hvalues
  have hbad : FactoryBad secondSkipped w.sys.ni 1 := ⟨by omega, by decide⟩
  exact ⟨w, w', undoRun_reaches hw, by omega, by omega, ⟨3, hexec⟩, hbad, hback,
    fun hundone => hundone.notBad 1 hback hbad⟩

end NeonWrt.Nmbm
