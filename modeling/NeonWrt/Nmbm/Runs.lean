import NeonWrt.Lib.Run
import NeonWrt.Nmbm.Load

/-!
# Runs of NMBM

A run attaches to a chip and then remaps blocks, changes block states and updates
the info tables, in any order and under any pattern of failures. The creation of
new tables is split into its steps, so that the states in between count as well.

In every run that hands out spare blocks only from the top (`SpareTopGood`) and
that started from tables that fit together (`LoadOk`), the mapping is injective
and the areas of the chip stay apart. Without the first condition neither holds:
a spare block taken below a bad one is still counted as free.
-/

namespace NeonWrt.Nmbm

open Lib

variable (g : Geometry) (flt : Faults)

/-- Where an instance is: creating its tables, done with mapping the remaining logical
blocks, attached, or given up. -/
inductive Phase where
  | creating
  | mapped
  | attached
  | failed
  deriving DecidableEq

/-- An instance, its chip and its phase. -/
structure World where
  sys : Sys
  phase : Phase

/-- The operations. `mapNext` and `finish` are the steps of `nmbm_create_info_table`. -/
inductive Op where
  | mapNext
  | finish
  | remap (block copyLen : ℕ)
  | setState (ba : ℕ) (st : BlockState)
  | update

/-- An operation; `none` when it is not possible or the fuel of an update runs out. -/
def exec (fuel : ℕ) (w : World) : Op → Option World
  | .mapNext =>
    if w.phase = .creating ∧ w.sys.ni.dataBlockCount < w.sys.ni.mgmtStartBa then
      (mapNext g flt fuel w.sys).map fun m => ⟨m.1, if m.2 then .creating else .mapped⟩
    else none
  | .finish =>
    if w.phase = .mapped ∨ w.phase = .creating ∧ w.sys.ni.mgmtStartBa ≤ w.sys.ni.dataBlockCount then
      (updateInfoTable g flt fuel w.sys).map fun u => ⟨u.1, if u.2 then .attached else .failed⟩
    else none
  | .remap block copyLen =>
    -- the callers in mtk_bmt.c pass the current block of the logical block
    if w.phase = .attached ∧ 0 ≤ getMappingBlockIndex w.sys.ni block then
      (remapBlock g flt fuel block (getMappingBlockIndex w.sys.ni block).toNat copyLen w.sys).map
        fun r => ⟨r.1, .attached⟩
    else none
  | .setState ba st =>
    if w.phase = .attached then some ⟨⟨w.sys.ni.setState ba st, w.sys.chip⟩, .attached⟩ else none
  | .update =>
    if w.phase = .attached then
      (updateInfoTable g flt fuel w.sys).map fun u => ⟨u.1, .attached⟩
    else none

/-- A step of a run. -/
def Step (w : World) (op : Op) (w' : World) : Prop := ∃ fuel, exec g flt fuel w op = some w'

/-- The states that attaching to a chip leads to, before logical blocks are mapped to
spare blocks. -/
def start (cfg : Config) (chip : Chip) : Option World :=
  match attachStart g flt cfg chip with
  | .failed => none
  | .attached s => some ⟨s, .attached⟩
  | .creating s =>
    let c := createInfoTableStart g flt s
    if c.2 then some ⟨c.1, .creating⟩ else none

/-- The first state of a run. -/
def Start (cfg : Config) (chip : Chip) (w : World) : Prop := start g flt cfg chip = some w

/-- Operations that hand out a spare block find the topmost one good. -/
def OpOk (w : World) : Op → Prop
  | .mapNext => SpareTopGood w.sys.ni
  | .remap _ _ => SpareTopGood w.sys.ni
  | _ => True

variable {g flt} {cfg : Config} {chip : Chip} {w w' : World} {op : Op} {fuel : ℕ}

theorem start_settled (hload : LoadOk g flt cfg chip) (h : Start g flt cfg chip w) :
    Settled w.sys.ni := by
  obtain ⟨hattached, hcreating⟩ := attachStart_cases hload
  unfold Start start at h
  split at h
  next => simp at h
  next s hs =>
    obtain rfl := Option.some_inj.mp h
    exact hattached s hs
  next s hs =>
    have hbuilt := hcreating s hs
    generalize hc : createInfoTableStart g flt s = c at h
    obtain ⟨t, b⟩ := c
    dsimp only at h
    split_ifs at h with hb
    obtain rfl := Option.some_inj.mp h
    subst hb
    exact createInfoTableStart_settled g flt hbuilt hc

/-- Every operation that is fine keeps the invariants. -/
theorem step_moved (h : Settled w.sys.ni) (hok : OpOk w op) (hstep : Step g flt w op w') :
    Moved w.sys w'.sys := by
  obtain ⟨fuel, hexec⟩ := hstep
  cases op with
  | mapNext =>
    simp only [exec] at hexec
    split_ifs at hexec with hphase
    obtain ⟨⟨t, b⟩, hrun, rfl⟩ := Option.map_eq_some_iff.mp hexec
    exact mapNext_moved g flt h hok hphase.2 hrun
  | finish =>
    simp only [exec] at hexec
    split_ifs at hexec with hphase
    obtain ⟨⟨t, b⟩, hrun, rfl⟩ := Option.map_eq_some_iff.mp hexec
    exact (updateInfoTable_updated g flt h.layout hrun).moved h
  | remap block copyLen =>
    simp only [exec] at hexec
    split_ifs at hexec with hphase
    obtain ⟨⟨t, b⟩, hrun, rfl⟩ := Option.map_eq_some_iff.mp hexec
    exact remapBlock_moved g flt h hok (Int.toNat_of_nonneg hphase.2).symm hrun
  | setState ba st =>
    simp only [exec] at hexec
    split_ifs at hexec with hphase
    obtain rfl := Option.some_inj.mp hexec
    exact (setState_updated h.layout ba st).moved h
  | update =>
    simp only [exec] at hexec
    split_ifs at hexec with hphase
    obtain ⟨⟨t, b⟩, hrun, rfl⟩ := Option.map_eq_some_iff.mp hexec
    exact (updateInfoTable_updated g flt h.layout hrun).moved h

/-- In every run whose operations are fine, the instance is settled. -/
theorem reaches_settled (hload : LoadOk g flt cfg chip)
    (h : Reaches (Start g flt cfg chip) (Step g flt) OpOk w) : Settled w.sys.ni :=
  h.invariant (P := fun w => Settled w.sys.ni) (fun _ hstart => start_settled hload hstart)
    fun _ _ _ hs hok hstep => (step_moved hs hok hstep).settled

theorem mapNext_true {s t : Sys} (h : mapNext g flt fuel s = some (t, true)) :
    t.ni.mgmtStartBa = s.ni.mgmtStartBa ∧ t.ni.dataBlockCount = s.ni.dataBlockCount + 1 := by
  obtain ⟨⟨u, b⟩, hmap, hrest⟩ := Option.bind_eq_some_iff.mp h
  unfold mapBlock at hmap
  split_ifs at hmap
  · obtain ⟨rfl, rfl⟩ := Prod.mk.inj (Option.some_inj.mp hmap)
    simp at hrest
  · split at hmap
    · obtain ⟨⟨v, c⟩, -, hres⟩ := Option.bind_eq_some_iff.mp hmap
      obtain ⟨rfl, rfl⟩ := Prod.mk.inj (Option.some_inj.mp hres)
      simp at hrest
    · obtain ⟨rfl, rfl⟩ := Prod.mk.inj (Option.some_inj.mp hmap)
      obtain ⟨rfl, -⟩ := Prod.mk.inj (Option.some_inj.mp hrest)
      exact ⟨rfl, rfl⟩

/-- The states of the loop that maps the remaining logical blocks. -/
theorem createMapLoop_reaches {P : World → Prop} {n : ℕ} {s s' : Sys}
    (hn : n = s.ni.mgmtStartBa - s.ni.dataBlockCount)
    (h : createMapLoop g flt fuel n s = some s')
    (hs : Reaches P (Step g flt) (fun _ _ => True) ⟨s, .creating⟩) :
    Reaches P (Step g flt) (fun _ _ => True) ⟨s', .mapped⟩ ∨
      s'.ni.mgmtStartBa ≤ s'.ni.dataBlockCount ∧
        Reaches P (Step g flt) (fun _ _ => True) ⟨s', .creating⟩ := by
  induction n generalizing s with
  | zero =>
    obtain rfl := Option.some_inj.mp h
    exact .inr ⟨by omega, hs⟩
  | succ n ih =>
    obtain ⟨⟨t, b⟩, hmap, hrest⟩ := Option.bind_eq_some_iff.mp h
    have hstep : Step g flt ⟨s, .creating⟩ .mapNext ⟨t, if b then .creating else .mapped⟩ := by
      refine ⟨fuel, ?_⟩
      simp only [exec]
      rw [if_pos ⟨trivial, by omega⟩, hmap]
      rfl
    have hnext := hs.next .mapNext trivial hstep
    cases b with
    | true =>
      obtain ⟨hmgmt, hcount⟩ := mapNext_true hmap
      have hn' : n = t.ni.mgmtStartBa - t.ni.dataBlockCount := by omega
      exact ih hn' hrest hnext
    | false =>
      obtain rfl := Option.some_inj.mp hrest
      exact .inl hnext

theorem createInfoTable_reaches {P : World → Prop} {s s' : Sys}
    (h : createInfoTable g flt fuel s = some (s', true))
    (hs : ∀ t, createInfoTableStart g flt s = (t, true) →
      Reaches P (Step g flt) (fun _ _ => True) ⟨t, .creating⟩) :
    Reaches P (Step g flt) (fun _ _ => True) ⟨s', .attached⟩ := by
  unfold createInfoTable at h
  generalize hc : createInfoTableStart g flt s = c at h hs
  obtain ⟨t, b⟩ := c
  cases b with
  | false => simp at h
  | true =>
    obtain ⟨u, hloop, hupdate⟩ := Option.bind_eq_some_iff.mp h
    -- both ways out of the loop lead to the final update
    have hfinish : ∀ phase, (phase = .mapped ∨ phase = .creating ∧
        u.ni.mgmtStartBa ≤ u.ni.dataBlockCount) → Step g flt ⟨u, phase⟩ .finish ⟨s', .attached⟩ := by
      intro phase hphase
      refine ⟨fuel, ?_⟩
      simp only [exec]
      rw [if_pos hphase, hupdate]
      rfl
    obtain hmapped | ⟨hfull, hcreating⟩ := createMapLoop_reaches rfl hloop (hs t rfl)
    · exact hmapped.next .finish trivial (hfinish _ (.inl rfl))
    · exact hcreating.next .finish trivial (hfinish _ (.inr ⟨rfl, hfull⟩))

/-- A sequence of operations that all meet a condition. -/
def execAll (g : Geometry) (flt : Faults) (ok : World → Op → Bool) (fuel : ℕ) (w : World) :
    List Op → Option World
  | [] => some w
  | op :: ops =>
    if ok w op then (exec g flt fuel w op).bind fun w => execAll g flt ok fuel w ops else none

theorem execAll_reaches {P : World → Prop} {Q : World → Op → Prop} {ok : World → Op → Bool}
    {ops : List Op} (hok : ∀ w op, ok w op = true → Q w op) (hw : Reaches P (Step g flt) Q w)
    (h : execAll g flt ok fuel w ops = some w') : Reaches P (Step g flt) Q w' := by
  induction ops generalizing w with
  | nil =>
    obtain rfl := Option.some_inj.mp h
    exact hw
  | cons op ops ih =>
    unfold execAll at h
    split_ifs at h with hop
    obtain ⟨t, hstep, hrest⟩ := Option.bind_eq_some_iff.mp h
    exact ih (hw.next op (hok w op hop) ⟨fuel, hstep⟩) hrest

/-- A chip of 24 blocks of four pages. -/
def smallGeometry : Geometry where
  blkSize := 256
  pgSize := 64
  totalBlks := 24
  oobSize := 0
  bitflipThreshold := 0
  eccStrength := 0
  blkSize_pos := smallBlock_pos
  pgSize_pos := smallPage_pos
  totalBlks_lt := by decide

/-- Half of the chip is for management, and new tables may be created. -/
def halfReserved : Config := ⟨8, 0, false, true⟩

/-- A chip without contents. -/
def blankChip : Chip := ⟨fun _ _ => List.replicate 64 0xff, 0⟩

/-- No operation fails, but some blocks are bad. -/
def badBlocks (isBad : ℕ → ℕ → Bool) : Faults :=
  ⟨fun _ => 0, fun _ => 0, fun _ => [], fun _ => 0, fun _ _ => [], isBad⟩

/-- A run on the small chip. -/
def smallRun (flt : Faults) (ok : World → Op → Bool) (ops : List Op) : Option World :=
  (start smallGeometry flt halfReserved blankChip).bind fun w =>
    execAll smallGeometry flt ok 3 w ops

instance (w : World) (op : Op) : Decidable (OpOk w op) := by
  unfold OpOk
  split <;> infer_instance

theorem smallRun_reaches {flt : Faults} {Q : World → Op → Prop} {ok : World → Op → Bool}
    {ops : List Op} (hok : ∀ w op, ok w op = true → Q w op) (h : smallRun flt ok ops = some w) :
    Reaches (Start smallGeometry flt halfReserved blankChip) (Step smallGeometry flt) Q w := by
  obtain ⟨w₀, hstart, hrun⟩ := Option.bind_eq_some_iff.mp h
  exact execAll_reaches hok (.start hstart) hrun

theorem loadOk_blank (isBad : ℕ → ℕ → Bool)
    (hnone : (findSignature smallGeometry (badBlocks isBad)
      ⟨initStructure smallGeometry halfReserved, blankChip⟩).2 = none) :
    LoadOk smallGeometry (badBlocks isBad) halfReserved blankChip := by
  intro sig ba hsome
  rw [hnone] at hsome
  simp at hsome

/-- In every run that hands out topmost spare blocks only, two logical blocks that are
mapped are mapped to two physical blocks. -/
theorem mapping_injective (hload : LoadOk g flt cfg chip)
    (h : Reaches (Start g flt cfg chip) (Step g flt) OpOk w) {lb lb' : ℕ}
    (hlb : lb < w.sys.ni.dataBlockCount) (hlb' : lb' < w.sys.ni.dataBlockCount) (hne : lb ≠ lb')
    (hpos : 0 ≤ w.sys.ni.mapping lb) (_hpos' : 0 ≤ w.sys.ni.mapping lb') :
    w.sys.ni.mapping lb ≠ w.sys.ni.mapping lb' := by
  intro heq
  exact hne ((reaches_settled hload h).mapped.injective lb hlb lb' hlb' hpos heq)

set_option maxRecDepth 100000 in
/-- After one remap on a chip with a bad spare block, the blocks are still distinct. -/
theorem mapping_injective_one_remap : ∃ w, Reaches
    (Start smallGeometry (badBlocks fun _ ba => ba == 21) halfReserved blankChip)
    (Step smallGeometry (badBlocks fun _ ba => ba == 21)) OpOk w ∧
    w.sys.ni.mapping 0 = 22 ∧ w.sys.ni.mapping 0 ≠ w.sys.ni.mapping 1 := by
  have hrun : ((smallRun (badBlocks fun _ ba => ba == 21) (fun w op => decide (OpOk w op))
      [.finish, .remap 0 0]).map fun w =>
        (w.sys.ni.dataBlockCount, w.sys.ni.mapping 0, w.sys.ni.mapping 1)) = some (12, 22, 1) := by
    decide +kernel
  obtain ⟨w, hw, hvalues⟩ := Option.map_eq_some_iff.mp hrun
  obtain ⟨hcount, hzero, hone⟩ : w.sys.ni.dataBlockCount = 12 ∧ w.sys.ni.mapping 0 = 22 ∧
    w.sys.ni.mapping 1 = 1 := by simpa using hvalues
  have hreach := smallRun_reaches (fun w op h => of_decide_eq_true h) hw
  have hload := loadOk_blank (fun _ ba => ba == 21) (by decide +kernel)
  refine ⟨w, hreach, hzero, ?_⟩
  apply mapping_injective hload hreach <;> omega

set_option maxRecDepth 100000 in
/-- A bad spare block and three remaps give two logical blocks the same block. -/
theorem exists_mapping_not_injective : ∃ w, Reaches
    (Start smallGeometry (badBlocks fun _ ba => ba == 21) halfReserved blankChip)
    (Step smallGeometry (badBlocks fun _ ba => ba == 21)) (fun _ _ => True) w ∧
    2 < w.sys.ni.dataBlockCount ∧ w.sys.ni.mapping 1 = 20 ∧ w.sys.ni.mapping 2 = 20 := by
  have hrun : ((smallRun (badBlocks fun _ ba => ba == 21) (fun _ _ => true)
      [.finish, .remap 0 0, .remap 1 0, .remap 2 0]).map fun w =>
        (w.sys.ni.dataBlockCount, w.sys.ni.mapping 1, w.sys.ni.mapping 2)) = some (12, 20, 20) := by
    decide +kernel
  obtain ⟨w, hw, hvalues⟩ := Option.map_eq_some_iff.mp hrun
  obtain ⟨hcount, hone, htwo⟩ : w.sys.ni.dataBlockCount = 12 ∧ w.sys.ni.mapping 1 = 20 ∧
    w.sys.ni.mapping 2 = 20 := by simpa using hvalues
  exact ⟨w, smallRun_reaches (fun _ _ _ => trivial) hw, by omega, hone, htwo⟩

/-- The signature block, the blocks of the main table, those of the backup table and the
spare blocks that logical blocks are mapped to are pairwise disjoint, and the tables end
below the spare blocks. -/
structure AreasApart (ni : Ni) : Prop where
  main_backup : ∀ b ∈ ni.mainBlocks, b ∉ ni.backupBlocks
  signature_main : ni.signatureBa ∉ ni.mainBlocks
  signature_backup : ni.signatureBa ∉ ni.backupBlocks
  spare : ∀ lb < ni.dataBlockCount, ∀ pb : ℕ, ni.mapping lb = pb → ni.mgmtStartBa ≤ pb →
    pb ≠ ni.signatureBa ∧ pb ∉ ni.mainBlocks ∧ pb ∉ ni.backupBlocks ∧ ni.mappingBlocksBa ≤ pb

theorem Layout.mainBlocks_lt {ni : Ni} (h : Layout ni) {b : ℕ} (hb : b ∈ ni.mainBlocks) :
    b < ni.mappingBlocksBa :=
  (h.mainBlocks b hb).2.2.trans_le h.mainLimit_le

theorem Settled.areasApart {ni : Ni} (h : Settled ni) : AreasApart ni := by
  have hle := h.layout.le_top
  have hlt := h.layout.top_lt
  refine ⟨fun b hmain hbackup => ?_, fun hb => ?_, fun hb => ?_, fun lb hlb pb hpb hmgmt => ?_⟩
  · obtain ⟨hsome, hge, -⟩ := h.layout.backupBlocks b hbackup
    have hlimit : ni.mainLimit = ni.backupTableBa := if_neg hsome
    have hblock := (h.layout.mainBlocks b hmain).2.2
    omega
  · have hblock := h.layout.mainBlocks_lt hb
    omega
  · have hblock := (h.layout.backupBlocks _ hb).2.2
    omega
  · have htarget := h.mapped.target lb hlb (by omega)
    refine ⟨by omega, fun hb => ?_, fun hb => ?_, by omega⟩
    · have hblock := h.layout.mainBlocks_lt hb
      omega
    · have hblock := (h.layout.backupBlocks _ hb).2.2
      omega

/-- An operation keeps the contents of every block that a logical block is mapped to. -/
theorem Moved.keeps {s s' : Sys} (hmoved : Moved s s') (h : Settled s.ni) {lb pb : ℕ}
    (hlb : lb < s.ni.dataBlockCount) (hpb : s.ni.mapping lb = pb) :
    s'.chip.pages pb = s.chip.pages pb := by
  have htarget := h.mapped.target lb hlb (by omega)
  exact hmoved.chip pb (by omega)

/-- An operation does not hand out a block that holds a table. -/
theorem Moved.fresh_notMem {s s' : Sys} (hmoved : Moved s s') (h : Settled s.ni) {lb b : ℕ}
    (hne : s'.ni.mapping lb ≠ s.ni.mapping lb) (hb : b ∈ s.ni.mainBlocks ∨ b ∈ s.ni.backupBlocks) :
    s'.ni.mapping lb ≠ b := by
  obtain ⟨hnew, hlt⟩ := (hmoved.fresh lb).resolve_left hne
  obtain hmain | hbackup := hb
  · have hblock := h.layout.mainBlocks_lt hmain
    omega
  · have hblock := (h.layout.backupBlocks b hbackup).2.2
    omega

/-- In every run that hands out topmost spare blocks only, the areas stay apart: no
operation changes the contents of a block that a logical block is mapped to, and none hands
out a block that holds a table. -/
theorem areas_stay_apart (hload : LoadOk g flt cfg chip)
    (h : Reaches (Start g flt cfg chip) (Step g flt) OpOk w) :
    AreasApart w.sys.ni ∧ ∀ op w', OpOk w op → Step g flt w op w' →
      (∀ lb < w.sys.ni.dataBlockCount, ∀ pb : ℕ, w.sys.ni.mapping lb = pb →
        w'.sys.chip.pages pb = w.sys.chip.pages pb) ∧
      ∀ lb, w'.sys.ni.mapping lb ≠ w.sys.ni.mapping lb →
        ∀ b : ℕ, b ∈ w.sys.ni.mainBlocks ∨ b ∈ w.sys.ni.backupBlocks → w'.sys.ni.mapping lb ≠ b := by
  have hsettled := reaches_settled hload h
  refine ⟨hsettled.areasApart, fun op w' hok hstep => ?_⟩
  have hmoved := step_moved hsettled hok hstep
  exact ⟨fun lb hlb pb hpb => hmoved.keeps hsettled hlb hpb,
    fun lb hne b hb => hmoved.fresh_notMem hsettled hne hb⟩

set_option maxRecDepth 100000 in
/-- After one remap, the areas of the small chip are apart. -/
theorem areas_stay_apart_one_remap : ∃ w, Reaches
    (Start smallGeometry (badBlocks fun _ ba => ba == 21) halfReserved blankChip)
    (Step smallGeometry (badBlocks fun _ ba => ba == 21)) OpOk w ∧
    w.sys.ni.mainBlocks = [12] ∧ w.sys.ni.backupBlocks = [15] ∧ w.sys.ni.mapping 0 = 22 ∧
    AreasApart w.sys.ni := by
  have hrun : ((smallRun (badBlocks fun _ ba => ba == 21) (fun w op => decide (OpOk w op))
      [.finish, .remap 0 0]).map fun w =>
        (w.sys.ni.mainBlocks, w.sys.ni.backupBlocks, w.sys.ni.mapping 0)) =
      some ([12], [15], 22) := by
    decide +kernel
  obtain ⟨w, hw, hvalues⟩ := Option.map_eq_some_iff.mp hrun
  obtain ⟨hmain, hbackup, hzero⟩ : w.sys.ni.mainBlocks = [12] ∧ w.sys.ni.backupBlocks = [15] ∧
    w.sys.ni.mapping 0 = 22 := by simpa using hvalues
  have hreach := smallRun_reaches (fun w op h => of_decide_eq_true h) hw
  have hload := loadOk_blank (fun _ ba => ba == 21) (by decide +kernel)
  exact ⟨w, hreach, hmain, hbackup, hzero, (areas_stay_apart hload hreach).1⟩

/-- Two bad spare blocks, and the blocks of the backup table turn bad later. -/
def laterBad : Faults :=
  badBlocks fun clock ba => ba == 20 || ba == 21 || (156 ≤ clock && 15 ≤ ba && ba ≤ 18)

set_option maxRecDepth 100000 in
/-- A backup table is written over a spare block that a logical block was just mapped to. -/
theorem exists_areas_not_apart : ∃ w, Reaches
    (Start smallGeometry laterBad halfReserved blankChip) (Step smallGeometry laterBad)
    (fun _ _ => True) w ∧ ¬ AreasApart w.sys.ni := by
  have hrun : ((smallRun laterBad (fun _ _ => true) [.finish, .remap 0 0, .remap 1 0]).map fun w =>
      (w.sys.ni.dataBlockCount, w.sys.ni.mgmtStartBa, w.sys.ni.backupBlocks, w.sys.ni.mapping 1)) =
      some (12, 12, [19], 19) := by
    decide +kernel
  obtain ⟨w, hw, hvalues⟩ := Option.map_eq_some_iff.mp hrun
  obtain ⟨hcount, hmgmt, hbackup, hone⟩ : w.sys.ni.dataBlockCount = 12 ∧
    w.sys.ni.mgmtStartBa = 12 ∧ w.sys.ni.backupBlocks = [19] ∧ w.sys.ni.mapping 1 = 19 := by
    simpa using hvalues
  refine ⟨w, smallRun_reaches (fun _ _ _ => trivial) hw, fun hapart => ?_⟩
  obtain ⟨-, -, hnot, -⟩ := hapart.spare 1 (by omega) 19 hone (by omega)
  exact hnot (by simp [hbackup])

end NeonWrt.Nmbm
