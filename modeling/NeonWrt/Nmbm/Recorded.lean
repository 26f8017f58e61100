import NeonWrt.Nmbm.Runs
import NeonWrt.Nmbm.Rounds

/-!
# What the info tables record

A round of `nmbm_update_info_table` writes a picture of the block states that it
takes at its start. Blocks that turn bad while it is written are not in it, but a
table that was written counts as clean all the same: they are recorded only if
another round follows.
-/

namespace NeonWrt.Nmbm

open Lib

variable {g : Geometry} {flt : Faults} {s s' : Sys} {ni ni' : Ni}

theorem BlockState.code_lt (st : BlockState) : st.code < 4 := by
  cases st <;> decide

theorem BlockState.code_inj {st st' : BlockState} (h : st.code = st'.code) : st = st' := by
  cases st <;> cases st' <;> first | rfl | cases h

theorem length_packStates : ∀ l : List BlockState, (packStates l).length = l.length / 4
  | [] | [_] | [_, _] | [_, _, _] => by simp [packStates]
  | a :: b :: c :: d :: rest => by
    rw [packStates, List.length_cons, length_packStates rest]
    simp only [List.length_cons]
    omega

theorem packStates_inj : ∀ {l l' : List BlockState}, l.length = l'.length → 4 ∣ l.length →
    packStates l = packStates l' → l = l'
  | [], l', hlen, _, _ => (List.length_eq_zero_iff.mp hlen.symm).symm
  | [_], _, _, hdvd, _ | [_, _], _, _, hdvd, _ | [_, _, _], _, _, hdvd, _ =>
    absurd hdvd (by simp)
  | a :: b :: c :: d :: rest, l', hlen, hdvd, h => by
    match l' with
    | [] | [_] | [_, _] | [_, _, _] => simp at hlen
    | a' :: b' :: c' :: d' :: rest' =>
      rw [packStates, packStates, List.cons.injEq] at h
      obtain ⟨hbyte, hrest⟩ := h
      have ha := a.code_lt
      have hb := b.code_lt
      have hc := c.code_lt
      have hd := d.code_lt
      have ha' := a'.code_lt
      have hb' := b'.code_lt
      have hc' := c'.code_lt
      have hd' := d'.code_lt
      have hcodes : a.code + 4 * b.code + 16 * c.code + 64 * d.code =
          a'.code + 4 * b'.code + 16 * c'.code + 64 * d'.code := by
        have := congrArg UInt8.toNat hbyte
        rwa [UInt8.toNat_ofNat_of_lt' (by change _ < 256; omega),
          UInt8.toNat_ofNat_of_lt' (by change _ < 256; omega)] at this
      simp only [List.length_cons] at hlen hdvd
      rw [BlockState.code_inj (show a.code = a'.code by omega),
        BlockState.code_inj (show b.code = b'.code by omega),
        BlockState.code_inj (show c.code = c'.code by omega),
        BlockState.code_inj (show d.code = d'.code by omega),
        packStates_inj (by omega) (by omega) hrest]

/-- The header, the state table and the mapping table of an info table follow each other, and the
state table is made of whole bytes. -/
structure TableSizes (ni : Ni) : Prop where
  state_off : infoTableHeaderSize ≤ ni.infoTable.stateTableOff
  mapping_off : ni.infoTable.stateTableOff + (packStates ni.blockState).length ≤
    ni.infoTable.mappingTableOff
  size : ni.infoTable.mappingTableOff + (packMapping ni.blockMapping).length ≤ ni.infoTableSize
  blocks : 4 ∣ ni.blockState.length

instance (ni : Ni) : Decidable (TableSizes ni) :=
  decidable_of_iff
    ((infoTableHeaderSize ≤ ni.infoTable.stateTableOff ∧
        ni.infoTable.stateTableOff + (packStates ni.blockState).length ≤
          ni.infoTable.mappingTableOff) ∧
      ni.infoTable.mappingTableOff + (packMapping ni.blockMapping).length ≤ ni.infoTableSize ∧
        4 ∣ ni.blockState.length)
    ⟨fun h => ⟨h.1.1, h.1.2, h.2.1, h.2.2⟩, fun h => ⟨⟨h.1, h.2⟩, h.3, h.4⟩⟩

/-- Some bytes hold the states and the mapping of an instance. -/
structure HoldsTables (ni : Ni) (data : Bytes) : Prop where
  states : HasAt data ni.infoTable.stateTableOff (packStates ni.blockState)
  mapping : HasAt data ni.infoTable.mappingTableOff (packMapping ni.blockMapping)

/-- The main or the backup table on flash holds the states and the mapping. -/
def Recorded (g : Geometry) (s : Sys) : Prop :=
  HoldsTables s.ni (readTable g s.chip s.ni.mainBlocks s.ni.infoTableSize) ∨
    s.ni.backupTableBa ≠ 0 ∧
      HoldsTables s.ni (readTable g s.chip s.ni.backupBlocks s.ni.infoTableSize)

theorem length_headerBytes (h : InfoTableHeader) : h.bytes.length = infoTableHeaderSize := rfl

/-- The picture holds the states and the mapping. -/
theorem generateInfoTableCache_holds (h : TableSizes ni) :
    (generateInfoTableCache ni).1.infoTableCache.length = ni.infoTableSize ∧
      HoldsTables ni (generateInfoTableCache ni).1.infoTableCache := by
  obtain ⟨hoff, hstate, hsize, -⟩ := h
  unfold generateInfoTableCache
  dsimp only
  generalize hheader : InfoTableHeader.bytes _ = header
  have hlenHeader : header.length = infoTableHeaderSize := by
    rw [← hheader]
    exact length_headerBytes _
  set blank : Bytes := List.replicate ni.infoTableSize 0xff with hblank
  have hlenBlank : blank.length = ni.infoTableSize := List.length_replicate
  set states := overwrite blank ni.infoTable.stateTableOff (packStates ni.blockState) with hstates
  have hlenStates : states.length = ni.infoTableSize := by
    rw [hstates, length_overwrite (by omega), hlenBlank]
  set both := overwrite states ni.infoTable.mappingTableOff (packMapping ni.blockMapping) with hboth
  have hlenBoth : both.length = ni.infoTableSize := by
    rw [hboth, length_overwrite (by omega), hlenStates]
  set table := overwrite both 0 header with htable
  have hlenTable : table.length = ni.infoTableSize := by
    rw [htable, length_overwrite (by omega), hlenBoth]
  generalize hchecked : Header.bytes _ = checked
  have hlenChecked : checked.length = headerSize := by
    rw [← hchecked]
    rfl
  have hsmall : headerSize ≤ infoTableHeaderSize := by decide
  refine ⟨?_, ?_, ?_⟩
  · rw [length_overwrite (by omega), hlenTable]
  · have hheld : HasAt states ni.infoTable.stateTableOff (packStates ni.blockState) :=
      hasAt_overwrite (by omega)
    exact ((hheld.of_apart (by omega) (by omega)).of_apart (by omega) (by omega)).of_apart (by omega)
      (by omega)
  · have hheld : HasAt both ni.infoTable.mappingTableOff (packMapping ni.blockMapping) :=
      hasAt_overwrite (by omega)
    exact (hheld.of_apart (by omega) (by omega)).of_apart (by omega) (by omega)

/-- Of two instances with the same mapping, only one that has the same states is held. -/
theorem HoldsTables.iff_of_states {data : Bytes} (h : HoldsTables ni data) (hblocks : 4 ∣ ni.blockState.length)
    (htable : ni'.infoTable.stateTableOff = ni.infoTable.stateTableOff ∧
      ni'.infoTable.mappingTableOff = ni.infoTable.mappingTableOff)
    (hmapping : ni'.blockMapping = ni.blockMapping)
    (hlen : ni'.blockState.length = ni.blockState.length) :
    HoldsTables ni' data ↔ ni'.blockState = ni.blockState := by
  constructor
  · intro h'
    have hstates := h'.states
    rw [htable.1] at hstates
    have hbytes : (packStates ni'.blockState).length = (packStates ni.blockState).length := by
      rw [length_packStates, length_packStates, hlen]
    refine packStates_inj hlen (hlen ▸ hblocks) ?_
    rw [← hstates.slice, ← h.states.slice, hbytes]
  · intro heq
    refine ⟨?_, ?_⟩
    · rw [htable.1, heq]
      exact h.states
    · rw [htable.2, hmapping]
      exact h.mapping

theorem Worn.tableSizes (h : Worn ni ni') (hs : TableSizes ni) : TableSizes ni' := by
  have htable : ni'.infoTable = ni.infoTable := congrArg Picture.infoTable h.picture
  have hsize : ni'.infoTableSize = ni.infoTableSize := congrArg Picture.infoTableSize h.picture
  have hmapping : ni'.blockMapping = ni.blockMapping := congrArg Picture.blockMapping h.picture
  have hlen : (packStates ni'.blockState).length = (packStates ni.blockState).length := by
    rw [length_packStates, length_packStates, h.length]
  refine ⟨?_, ?_, ?_, ?_⟩
  · rw [htable]
    exact hs.state_off
  · rw [htable, hlen]
    exact hs.mapping_off
  · rw [htable, hsize, hmapping]
    exact hs.size
  · rw [h.length]
    exact hs.blocks

theorem TableSizes.generate (h : TableSizes ni) : TableSizes (generateInfoTableCache ni).1 :=
  ⟨h.state_off, h.mapping_off, h.size, h.blocks⟩

/-- After a round, a table records the states exactly if the round has lost no good block. -/
theorem Round.recorded_iff (hc : Covered s.ni) (hs : TableSizes s.ni) (h : Round g flt s s') :
    Recorded g s' ↔ NoLoss s.ni s'.ni := by
  have hworn := (h.worn hc).toWorn
  obtain ⟨hchanged, hround⟩ := h
  have hrewritten := @updateInfoTableOnce_rewritten g flt s hc hchanged (by rw [hround])
  rw [hround] at hrewritten
  obtain ⟨hlen, hholds⟩ := generateInfoTableCache_holds hs
  have hsize : s'.ni.infoTableSize = s.ni.infoTableSize :=
    congrArg Picture.infoTableSize hworn.picture
  have htable : s'.ni.infoTable = (generateInfoTableCache s.ni).1.infoTable :=
    congrArg Picture.infoTable hworn.picture
  have hmain := hrewritten.main
  have hbackup := hrewritten.backup
  rw [hlen, ← hsize] at hmain hbackup
  -- whichever table it is, it holds the picture
  have hsame : ∀ data, data = (generateInfoTableCache s.ni).1.infoTableCache →
      (HoldsTables s'.ni data ↔ s'.ni.blockState = s.ni.blockState) := by
    rintro data rfl
    exact hholds.iff_of_states hs.blocks ⟨by rw [htable]; rfl, by rw [htable]; rfl⟩
      (congrArg Picture.blockMapping hworn.picture) hworn.length
  have hstates : s'.ni.blockState = s.ni.blockState ↔ NoLoss s.ni s'.ni := by
    refine ⟨fun heq ba hgood => ?_, fun hno => hworn.states hno⟩
    rwa [Ni.state, heq]
  rw [Recorded, ← hstates, hsame _ hmain]
  apply or_iff_left_of_imp
  rintro ⟨hsome, hheld⟩
  exact (hsame _ (hbackup hsome)).mp hheld

/-- The last round of an update loses no good block. -/
def EndsClean (g : Geometry) (flt : Faults) (s : Sys) : Prop :=
  ∃ t t', Relation.ReflTransGen (Round g flt) s t ∧ Round g flt t t' ∧ t'.ni.changed = false ∧
    NoLoss t.ni t'.ni

theorem tableSizes_of_rounds {t : Sys} (hc : Covered s.ni) (hs : TableSizes s.ni)
    (h : Relation.ReflTransGen (Round g flt) s t) : TableSizes t.ni := by
  induction h with
  | refl => exact hs
  | tail hrounds hround ih =>
    exact (hround.worn (covered_of_rounds hc hrounds)).toWorn.tableSizes ih.generate

/-- An update that succeeds is a number of rounds. -/
theorem updateLoop_rounds {fuel : ℕ} (h : updateLoop g flt fuel s = some (s', true)) :
    s'.ni.changed = false ∧
      (s' = s ∨ ∃ t, Relation.ReflTransGen (Round g flt) s t ∧ Round g flt t s') := by
  induction fuel generalizing s with
  | zero =>
    unfold updateLoop at h
    split_ifs at h with hchanged
    obtain rfl := (Prod.mk.inj (Option.some.inj h)).1
    exact ⟨by simpa using hchanged, .inl rfl⟩
  | succ fuel ih =>
    unfold updateLoop at h
    dsimp only at h
    split_ifs at h with hclean hok
    · obtain rfl := (Prod.mk.inj (Option.some.inj h)).1
      exact ⟨by simpa using hclean, .inl rfl⟩
    · have hround : Round g flt s (updateInfoTableOnce g flt false s).1 :=
        ⟨by simpa using hclean, Prod.ext rfl hok⟩
      obtain ⟨hend, hsame | ⟨t, hrounds, hlast⟩⟩ := ih h
      · exact ⟨hend, .inr ⟨s, .refl, hsame ▸ hround⟩⟩
      · exact ⟨hend, .inr ⟨t, .head hround hrounds, hlast⟩⟩
    · cases (Prod.mk.inj (Option.some.inj h)).2

theorem Round.unique {t t' : Sys} (h : Round g flt s t) (h' : Round g flt s t') : t = t' :=
  (Prod.mk.inj (h.2.symm.trans h'.2)).1

theorem rounds_unique {t t' u u' : Sys} (ht : Relation.ReflTransGen (Round g flt) s t)
    (htu : Round g flt t u) (hu : u.ni.changed = false)
    (ht' : Relation.ReflTransGen (Round g flt) s t') (htu' : Round g flt t' u')
    (hu' : u'.ni.changed = false) : t = t' ∧ u = u' := by
  induction ht using Relation.ReflTransGen.head_induction_on with
  | refl =>
    rcases ht'.cases_head with rfl | ⟨v, hv, hrest⟩
    · exact ⟨rfl, htu.unique htu'⟩
    · -- the first of two rounds leaves the tables changed
      obtain rfl := htu.unique hv
      rcases hrest.cases_head with rfl | ⟨w, hw, -⟩
      · rw [htu'.1] at hu
        cases hu
      · rw [hw.1] at hu
        cases hu
  | head hstep hrest ih =>
    rcases ht'.cases_head with rfl | ⟨v, hv, hrest'⟩
    · obtain rfl := hstep.unique htu'
      rcases hrest.cases_head with rfl | ⟨w, hw, -⟩
      · rw [htu.1] at hu'
        cases hu'
      · rw [hw.1] at hu'
        cases hu'
    · obtain rfl := hstep.unique hv
      exact ih hrest'

/-- The update records what it found exactly if its last round loses no good block, or if there
was nothing to do and a table holds the states already. -/
theorem updateInfoTable_recorded_iff {fuel : ℕ} (hc : Covered s.ni) (hs : TableSizes s.ni)
    (hprotected : s.ni.isProtected = false)
    (hrun : updateInfoTable g flt fuel s = some (s', true)) :
    Recorded g s' ↔ EndsClean g flt s ∨ s.ni.changed = false ∧ Recorded g s := by
  rw [updateInfoTable, hprotected, if_neg (by simp)] at hrun
  obtain ⟨hend, rfl | ⟨t, hrounds, hlast⟩⟩ := updateLoop_rounds hrun
  · have hnone : ¬ EndsClean g flt s' := by
      rintro ⟨t, t', hrounds, hlast, -⟩
      rcases hrounds.cases_head with rfl | ⟨u, hu, -⟩
      · rw [hlast.1] at hend
        cases hend
      · rw [hu.1] at hend
        cases hend
    rw [or_iff_right hnone, and_iff_right hend]
  · have hchanged : s.ni.changed = true := by
      rcases hrounds.cases_head with rfl | ⟨u, hu, -⟩
      · exact hlast.1
      · exact hu.1
    rw [hlast.recorded_iff (covered_of_rounds hc hrounds) (tableSizes_of_rounds hc hs hrounds),
      hchanged, or_iff_left (by simp)]
    constructor
    · exact fun hno => ⟨t, s', hrounds, hlast, hend, hno⟩
    · rintro ⟨u, u', hrounds', hlast', hend', hno⟩
      obtain ⟨rfl, rfl⟩ := rounds_unique hrounds hlast hend hrounds' hlast' hend'
      exact hno

/-- On the small chip, block 15 turns bad after the tables have been created. -/
def lateBad : Faults := badBlocks fun clock ba => 143 ≤ clock && ba == 15

/-- No block is bad. -/
def allGood : Faults := badBlocks fun _ _ => false

/-- What is to be known about a state before an update and the one after a single round. -/
def roundFacts (flt : Faults) (s : Sys) : Bool :=
  let u := updateInfoTableOnce smallGeometry flt false s
  decide (Covered s.ni) && decide (TableSizes s.ni) && !s.ni.isProtected && s.ni.changed && u.2 &&
    !u.1.ni.changed

theorem update_of_roundFacts (h : roundFacts flt s = true) :
    Covered s.ni ∧ TableSizes s.ni ∧ s.ni.isProtected = false ∧
      Round smallGeometry flt s (updateInfoTableOnce smallGeometry flt false s).1 ∧
      (updateInfoTableOnce smallGeometry flt false s).1.ni.changed = false ∧
      updateInfoTable smallGeometry flt 1 s =
        some ((updateInfoTableOnce smallGeometry flt false s).1, true) := by
  simp only [roundFacts, Bool.and_eq_true, decide_eq_true_eq, Bool.not_eq_true'] at h
  obtain ⟨⟨⟨⟨⟨hc, hs⟩, hp⟩, hchanged⟩, hok⟩, hend⟩ := h
  refine ⟨hc, hs, hp, ⟨hchanged, Prod.ext rfl hok⟩, hend, ?_⟩
  simp [updateInfoTable, updateLoop, hp, hchanged, hok, hend]

set_option maxRecDepth 100000 in
/-- A change of a block state is recorded if no block fails. -/
theorem update_records : ∃ w s', Reaches
    (Start smallGeometry allGood halfReserved blankChip) (Step smallGeometry allGood)
    (fun _ _ => True) w ∧ updateInfoTable smallGeometry allGood 1 w.sys = some (s', true) ∧
    w.sys.ni.state 0 = .bad ∧ Recorded smallGeometry s' := by
  have hrun : ((smallRun allGood (fun _ _ => true) [.finish, .setState 0 .bad]).map fun w =>
      (roundFacts allGood w.sys, w.sys.ni.state 0,
        decide ((updateInfoTableOnce smallGeometry allGood false w.sys).1.ni.blockState =
          w.sys.ni.blockState))) = some (true, .bad, true) := by
    decide +kernel
  obtain ⟨w, hw, hvalues⟩ := Option.map_eq_some_iff.mp hrun
  obtain ⟨hfacts, hbad, hsame⟩ : roundFacts allGood w.sys = true ∧ w.sys.ni.state 0 = .bad ∧
      (updateInfoTableOnce smallGeometry allGood false w.sys).1.ni.blockState =
        w.sys.ni.blockState := by simpa using hvalues
  obtain ⟨hc, hs, hp, hround, hend, hupdate⟩ := update_of_roundFacts hfacts
  refine ⟨w, _, smallRun_reaches (fun _ _ _ => trivial) hw, hupdate, hbad, ?_⟩
  refine (updateInfoTable_recorded_iff hc hs hp hupdate).mpr (.inl ⟨w.sys, _, .refl, hround, hend, ?_⟩)
  intro ba hgood
  rwa [Ni.state, hsame]

set_option maxRecDepth 100000 in
/-- A block that fails while the tables are written is in none of them. -/
theorem exists_update_not_recorded : ∃ w s', Reaches
    (Start smallGeometry lateBad halfReserved blankChip) (Step smallGeometry lateBad)
    (fun _ _ => True) w ∧ w.sys.ni.isProtected = false ∧
    updateInfoTable smallGeometry lateBad 1 w.sys = some (s', true) ∧
    s'.ni.state 15 = .bad ∧ ¬ Recorded smallGeometry s' := by
  have hrun : ((smallRun lateBad (fun _ _ => true) [.finish, .setState 0 .bad]).map fun w =>
      (roundFacts lateBad w.sys, w.sys.ni.state 15,
        (updateInfoTableOnce smallGeometry lateBad false w.sys).1.ni.state 15)) =
      some (true, .good, .bad) := by
    decide +kernel
  obtain ⟨w, hw, hvalues⟩ := Option.map_eq_some_iff.mp hrun
  obtain ⟨hfacts, hgood, hbad⟩ : roundFacts lateBad w.sys = true ∧ w.sys.ni.state 15 = .good ∧
      (updateInfoTableOnce smallGeometry lateBad false w.sys).1.ni.state 15 = .bad := by
    simpa using hvalues
  obtain ⟨hc, hs, hp, hround, -, hupdate⟩ := update_of_roundFacts hfacts
  refine ⟨w, _, smallRun_reaches (fun _ _ _ => trivial) hw, hp, hupdate, hbad, fun hrecorded => ?_⟩
  have hstill := (hround.recorded_iff hc hs).mp hrecorded 15 hgood
  rw [hbad] at hstill
  cases hstill

end NeonWrt.Nmbm
