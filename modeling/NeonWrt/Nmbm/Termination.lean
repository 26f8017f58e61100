import Mathlib.Data.Finset.Card
import NeonWrt.Nmbm.Rounds
import NeonWrt.Nmbm.Runs

/-!
# The update of the info tables ends

`nmbm_update_info_table` repeats its rounds until no table counts as changed, and
the rescue routines step back one block at a time, in `uint32_t`, until a table can
be written. Both loops end under every pattern of failures: a round that leaves a
table changed has lost a good block, and the address that is stepped back meets the
end of the tables before it wraps.

The functions here have the loops of the source, with fuel; the ones they are named
after count the steps beforehand.
-/

namespace NeonWrt.Nmbm

open Lib

variable (g : Geometry) (flt : Faults)

/-- The loops `while (write_ba >= …)`; `none` when the fuel runs out. -/
def writeDownLoop (lower : Ni → ℕ) : ℕ → ℕ → Sys → Option (Sys × Option Placed)
  | 0, _, _ => none
  | fuel + 1, writeBa, s =>
    if writeBa < lower s.ni then some (s, none)
    else
      let w := writeInfoTable g flt writeBa s.ni.mappingBlocksTopBa s
      match w.2 with
      | some p => some (w.1, some p)
      | none => writeDownLoop lower fuel (u32Sub writeBa 1) w.1

namespace Looped

/-- `nmbm_rescue_single_info_table`. -/
def rescueSingleInfoTable (fuel : ℕ) (s : Sys) : Option (Sys × Bool) :=
  let w := writeInfoTable g flt s.ni.mgmtStartBa s.ni.mainTableBa s
  match w.2 with
  | some p =>
    let ni := (w.1.ni.demoteMain.placeMain p).markTablesClean
    some (eraseRange g flt p.stop ni.backupTableBa ⟨ni, w.1.chip⟩, true)
  | none =>
    let s := w.1
    match tryReserveBlocks s.ni s.ni.mappingBlocksBa s.ni.infoTableSpareBlocks
        (reserveLimit g s.ni) with
    | none => some (s, false)
    | some writeBa => do
      let w ← writeDownLoop g flt Ni.mappingBlocksBa fuel writeBa s
      match w.2 with
      | none => some (w.1, false)
      | some p =>
        let s := eraseRange g flt w.1.ni.mappingBlocksBa p.start w.1
        some (⟨((s.ni.placeBackup p).endTables p.stop).markTablesClean, s.chip⟩, true)

/-- `nmbm_update_single_info_table`. -/
def updateSingleInfoTable (fuel : ℕ) (updateMain : Bool) (s : Sys) : Option (Sys × Bool) :=
  if updateMain then
    let w := writeInfoTable g flt s.ni.mainTableBa s.ni.backupTableBa s
    match w.2 with
    | some p => some (⟨(w.1.ni.placeMain p).markTablesClean, w.1.chip⟩, true)
    | none => rescueSingleInfoTable g flt fuel ⟨w.1.ni.promoteBackup, w.1.chip⟩
  else some (Nmbm.updateSingleInfoTable g flt false s)

/-- The end of `nmbm_rescue_main_info_table`. -/
def rescueBackup (fuel : ℕ) (main : Placed) (s : Sys) : Option Sys :=
  let ni := s.ni.endTables main.stop
  match tryReserveBlocks ni main.stop ni.infoTableSpareBlocks (reserveLimit g ni) with
  | none => some ⟨ni.dropBackup, s.chip⟩
  | some writeBa => do
    let w ← writeDownLoop g flt (fun _ => main.stop) fuel writeBa ⟨ni, s.chip⟩
    match w.2 with
    | none => some ⟨w.1.ni.dropBackup, w.1.chip⟩
    | some p =>
      some (eraseRange g flt main.stop p.start
        ⟨(w.1.ni.placeBackup p).endTables p.stop, w.1.chip⟩)

/-- `nmbm_rescue_main_info_table`. -/
def rescueMainInfoTable (fuel : ℕ) (s : Sys) : Option (Sys × Bool) :=
  match tryReserveBlocks s.ni s.ni.mappingBlocksBa s.ni.infoTableSpareBlocks
      (reserveLimit g s.ni) with
  | none => some (⟨s.ni.promoteBackup, s.chip⟩, true)
  | some writeBa => do
    let w ← writeDownLoop g flt Ni.mappingBlocksBa fuel writeBa s
    match w.2 with
    | none => some (⟨w.1.ni.promoteBackup, w.1.chip⟩, true)
    | some tmp =>
      let s : Sys := ⟨w.1.ni.endTables tmp.stop, w.1.chip⟩
      let w := writeInfoTable g flt s.ni.mgmtStartBa tmp.start s
      match w.2 with
      | none => some (⟨((w.1.ni.placeMain tmp).dropBackup).markTablesClean, w.1.chip⟩, true)
      | some main =>
        let s : Sys := ⟨(w.1.ni.placeMain main).markTablesClean, w.1.chip⟩
        if main.stop ≤ tmp.start then some (⟨s.ni.placeBackup tmp, s.chip⟩, true)
        else do
          let s ← rescueBackup g flt fuel main s
          some (s, true)

/-- The part of `nmbm_update_info_table_once` from `write_main_table` on. -/
def updateMainTable (fuel limit : ℕ) (s : Sys) : Option (Sys × Bool) :=
  if s.ni.mainTableBa = 0 then some (rebuildInfoTable g flt s)
  else
    let w := writeInfoTable g flt s.ni.mainTableBa limit s
    match w.2 with
    | none =>
      if w.1.ni.backupTableBa = 0 then some (rebuildInfoTable g flt w.1)
      else rescueMainInfoTable g flt fuel w.1
    | some p =>
      let ni := w.1.ni.placeMain p
      let ni := if ni.backupTableBa = 0 then ni.endTables p.stop else ni
      some (⟨ni.markTablesClean, w.1.chip⟩, true)

/-- `nmbm_update_info_table_once`. -/
def updateInfoTableOnce (fuel : ℕ) (force : Bool) (s : Sys) : Option (Sys × Bool) :=
  let c := generateInfoTableCache s.ni
  let s : Sys := ⟨c.1, s.chip⟩
  if !c.2 && !force then some (s, true)
  else if s.ni.backupTableBa = 0 then updateMainTable g flt fuel s.ni.mappingBlocksTopBa s
  else
    let w := writeInfoTable g flt s.ni.backupTableBa s.ni.mappingBlocksTopBa s
    match w.2 with
    | none =>
      let ni := (w.1.ni.endTables w.1.ni.backupTableBa).dropBackup
      updateMainTable g flt fuel ni.mappingBlocksTopBa ⟨ni, w.1.chip⟩
    | some p =>
      let ni := ((w.1.ni.placeBackup p).endTables p.stop).markTablesClean
      updateMainTable g flt fuel ni.backupTableBa ⟨ni, w.1.chip⟩

/-- The loop of `nmbm_update_info_table`. -/
def updateLoop (inner : ℕ) : ℕ → Sys → Option (Sys × Bool)
  | 0, _ => none
  | fuel + 1, s =>
    if !s.ni.changed then some (s, true)
    else do
      let u ← updateInfoTableOnce g flt inner false s
      if u.2 then updateLoop inner fuel u.1 else some (u.1, false)

/-- `nmbm_update_info_table`. -/
def updateInfoTable (fuel : ℕ) (s : Sys) : Option (Sys × Bool) :=
  if s.ni.isProtected then some (s, true) else updateLoop g flt fuel fuel s

/-- The repairs of `nmbm_load_info_table`. -/
def repairTables (fuel : ℕ) (main : Loaded) (backup : Option Loaded) (s : Sys) :
    Option (Sys × Bool) :=
  match backup with
  | none => rescueSingleInfoTable g flt fuel s
  | some b =>
    if main.writeCount ≠ b.writeCount then
      updateSingleInfoTable g flt fuel (main.writeCount < b.writeCount)
        ⟨s.ni.markTablesChanged, s.chip⟩
    else some (s, true)

/-- The end of `nmbm_load_info_table`. -/
def finishLoad (fuel : ℕ) (main : Loaded) (backup : Option (ℕ × Loaded)) (s : Sys) : Option Sys := do
  let ni := match backup with
    | none => s.ni
    | some (backupBa, b) => s.ni.placeBackup (b.placed backupBa)
  let r ← repairTables g flt fuel main (backup.map Prod.snd)
    ⟨ni.settle main (backup.map Prod.snd), s.chip⟩
  some ⟨r.1.ni.protectIf (r.1.ni.mappingBlocksBa == r.1.ni.mappingBlocksTopBa || !r.2), r.1.chip⟩

/-- `nmbm_load_info_table`. -/
def loadInfoTable (fuel ba limit : ℕ) (s : Sys) : Option (Sys × Bool) :=
  let m := searchInfoTable g flt ba limit false ⟨s.ni.beginLoad, s.chip⟩
  match m.2 with
  | none => some (m.1, false)
  | some (mainBa, main) => do
    let b := searchInfoTable g flt main.stop limit true
      ⟨m.1.ni.placeMain (main.placed mainBa), m.1.chip⟩
    let s ← finishLoad g flt fuel main b.2 b.1
    some (s, true)

end Looped

/-- A round of the update that succeeds, given fuel enough. -/
def Looped.Round (s s' : Sys) : Prop :=
  s.ni.changed = true ∧ ∃ n, ∀ fuel ≥ n, Looped.updateInfoTableOnce g flt fuel false s = some (s', true)

variable {g flt} {s s' : Sys} {ba limit fuel : ℕ} {lower : Ni → ℕ}

theorem writeDownLoop_eq (hlower : ∀ ni ni', SameButStates ni ni' → lower ni' = lower ni)
    (hpos : 0 < lower s.ni) (hfuel : ba + 1 - lower s.ni < fuel) :
    writeDownLoop g flt lower fuel ba s = some (writeTableDown g flt (ba + 1 - lower s.ni) ba s) := by
  induction fuel generalizing ba s with
  | zero => omega
  | succ fuel ih =>
    rw [writeDownLoop]
    split_ifs with hend
    · rw [show ba + 1 - lower s.ni = 0 by omega]
      rfl
    · have hsame := hlower _ _ (writeInfoTable_touched g flt ba s.ni.mappingBlocksTopBa s).ni
      obtain ⟨n, hn⟩ : ∃ n, ba + 1 - lower s.ni = n + 1 := ⟨ba - lower s.ni, by omega⟩
      rw [hn, writeTableDown]
      dsimp only
      generalize writeInfoTable g flt ba s.ni.mappingBlocksTopBa s = w at hsame ⊢
      obtain ⟨s', o⟩ := w
      cases o with
      | some p => rfl
      | none =>
        have hstep := @ih s' (u32Sub ba 1) (by rw [hsame]; exact hpos)
          (by rw [hsame, u32Sub_of_le (by omega)]; omega)
        rw [hsame, u32Sub_of_le (by omega), show ba - 1 + 1 - lower s.ni = n by omega] at hstep
        rw [u32Sub_of_le (by omega)]
        exact hstep

/-- From some fuel on, a function returns a value. -/
def Settles {α : Type} (f : ℕ → Option α) (a : α) : Prop := ∃ n, ∀ fuel ≥ n, f fuel = some a

theorem Settles.pure {α : Type} (a : α) : Settles (fun _ => some a) a := ⟨0, fun _ _ => rfl⟩

theorem Settles.bind {α β : Type} {f : ℕ → Option α} {h : ℕ → α → Option β} {a : α} {b : β}
    (hf : Settles f a) (hh : Settles (fun fuel => h fuel a) b) :
    Settles (fun fuel => (f fuel).bind (h fuel)) b := by
  obtain ⟨n, hn⟩ := hf
  obtain ⟨m, hm⟩ := hh
  refine ⟨max n m, fun fuel hfuel => ?_⟩
  dsimp only
  rw [hn fuel (by omega), Option.bind_some]
  exact hm fuel (by omega)

theorem writeDownLoop_settles (hlower : ∀ ni ni', SameButStates ni ni' → lower ni' = lower ni)
    (hpos : 0 < lower s.ni) : Settles (fun fuel => writeDownLoop g flt lower fuel ba s)
      (writeTableDown g flt (ba + 1 - lower s.ni) ba s) :=
  ⟨ba + 2, fun _ hfuel => writeDownLoop_eq hlower hpos (by omega)⟩

theorem lower_mappingBlocksBa (ni ni' : Ni) (h : SameButStates ni ni') :
    ni'.mappingBlocksBa = ni.mappingBlocksBa := h.mappingBlocksBa

theorem rescueSingleInfoTable_settles (hpos : 0 < s.ni.mappingBlocksBa) :
    Settles (fun fuel => Looped.rescueSingleInfoTable g flt fuel s) (rescueSingleInfoTable g flt s) := by
  unfold Looped.rescueSingleInfoTable rescueSingleInfoTable
  dsimp only
  have hsame := (writeInfoTable_touched g flt s.ni.mgmtStartBa s.ni.mainTableBa s).ni
  generalize writeInfoTable g flt _ _ _ = w at hsame ⊢
  obtain ⟨s', o⟩ := w
  cases o with
  | some p => exact .pure _
  | none =>
    dsimp only at hsame ⊢
    cases tryReserveBlocks s'.ni s'.ni.mappingBlocksBa s'.ni.infoTableSpareBlocks
        (reserveLimit g s'.ni) with
    | none => exact .pure _
    | some writeBa =>
      have hpos' : 0 < s'.ni.mappingBlocksBa := hsame.mappingBlocksBa ▸ hpos
      refine (writeDownLoop_settles lower_mappingBlocksBa hpos').bind ?_
      dsimp only
      generalize writeTableDown g flt _ _ _ = w
      obtain ⟨s'', o⟩ := w
      cases o with
      | none => exact .pure _
      | some p => exact .pure _

theorem updateSingleInfoTable_settles {updateMain : Bool} (hpos : 0 < s.ni.mappingBlocksBa) :
    Settles (fun fuel => Looped.updateSingleInfoTable g flt fuel updateMain s)
      (updateSingleInfoTable g flt updateMain s) := by
  unfold Looped.updateSingleInfoTable
  cases updateMain with
  | false => exact .pure _
  | true =>
    unfold updateSingleInfoTable
    dsimp only
    have hsame := (writeInfoTable_touched g flt s.ni.mainTableBa s.ni.backupTableBa s).ni
    generalize writeInfoTable g flt _ _ _ = w at hsame ⊢
    obtain ⟨s', o⟩ := w
    cases o with
    | some p => exact .pure _
    | none => exact rescueSingleInfoTable_settles (hsame.mappingBlocksBa ▸ hpos)

theorem rescueBackup_settles {main : Placed} (hpos : 0 < main.stop) :
    Settles (fun fuel => Looped.rescueBackup g flt fuel main s) (rescueBackup g flt main s) := by
  unfold Looped.rescueBackup rescueBackup
  dsimp only
  cases tryReserveBlocks (s.ni.endTables main.stop) main.stop
      (s.ni.endTables main.stop).infoTableSpareBlocks (reserveLimit g (s.ni.endTables main.stop)) with
  | none => exact .pure _
  | some writeBa =>
    refine (writeDownLoop_settles (fun _ _ _ => rfl) hpos).bind ?_
    dsimp only
    generalize writeTableDown g flt _ _ _ = w
    obtain ⟨s', o⟩ := w
    cases o with
    | none => exact .pure _
    | some p => exact .pure _

theorem rescueMainInfoTable_settles (hpos : 0 < s.ni.mappingBlocksBa) :
    Settles (fun fuel => Looped.rescueMainInfoTable g flt fuel s) (rescueMainInfoTable g flt s) := by
  unfold Looped.rescueMainInfoTable rescueMainInfoTable
  dsimp only
  cases tryReserveBlocks s.ni s.ni.mappingBlocksBa s.ni.infoTableSpareBlocks (reserveLimit g s.ni) with
  | none => exact .pure _
  | some writeBa =>
    refine (writeDownLoop_settles lower_mappingBlocksBa hpos).bind ?_
    dsimp only
    generalize writeTableDown g flt _ _ _ = w
    obtain ⟨s', o⟩ := w
    cases o with
    | none => exact .pure _
    | some tmp =>
      dsimp only
      generalize writeInfoTable g flt _ _ _ = w
      obtain ⟨s'', o⟩ := w
      cases o with
      | none => exact .pure _
      | some main =>
        dsimp only
        split_ifs with hle
        · exact .pure _
        · have hstop : 0 < main.stop := by omega
          exact (rescueBackup_settles hstop).bind (.pure _)

/-- The main table is rescued only if there is a backup table, with the end of the tables behind
it. -/
theorem updateMainTable_settles (hpos : s.ni.backupTableBa ≠ 0 → 0 < s.ni.mappingBlocksBa) :
    Settles (fun fuel => Looped.updateMainTable g flt fuel limit s) (updateMainTable g flt limit s) := by
  unfold Looped.updateMainTable updateMainTable
  split_ifs with hmain
  · exact .pure _
  · dsimp only
    have hsame := (writeInfoTable_touched g flt s.ni.mainTableBa limit s).ni
    generalize writeInfoTable g flt _ _ _ = w at hsame ⊢
    obtain ⟨s', o⟩ := w
    cases o with
    | some p => exact .pure _
    | none =>
      dsimp only at hsame ⊢
      split_ifs with hnone
      · exact .pure _
      · have hsome : s.ni.backupTableBa ≠ 0 := hsame.backupTableBa.symm.trans_ne hnone
        exact rescueMainInfoTable_settles (hsame.mappingBlocksBa ▸ hpos hsome)

theorem updateInfoTableOnce_settles {force : Bool} :
    Settles (fun fuel => Looped.updateInfoTableOnce g flt fuel force s)
      (updateInfoTableOnce g flt force s) := by
  have hcache := generateInfoTableCache_ne_nil s.ni
  unfold Looped.updateInfoTableOnce updateInfoTableOnce
  dsimp only
  generalize (generateInfoTableCache s.ni).1 = ni at hcache ⊢
  split_ifs with hforce hnone
  · exact .pure _
  · exact updateMainTable_settles fun hsome => absurd hnone hsome
  · have hplaced := @writeInfoTable_placed g flt ⟨ni, s.chip⟩ ni.backupTableBa ni.mappingBlocksTopBa
    dsimp only at hplaced
    generalize writeInfoTable g flt _ _ _ = w at hplaced ⊢
    obtain ⟨s', o⟩ := w
    cases o with
    | none => exact updateMainTable_settles fun hsome => absurd rfl hsome
    | some p =>
      have hp := hplaced hcache rfl
      exact updateMainTable_settles fun _ => Nat.zero_lt_of_lt hp.start_lt

/-- Reading a table goes forward, by a block at least if anything is read. -/
theorem tryLoadLoop_forward {n stop remain remain' : ℕ} {start start' : Option ℕ} {data data' : Bytes}
    (h : (tryLoadLoop g flt n ba start remain data s).2 = some (stop, start', remain', data')) :
    ba ≤ stop ∧ (remain ≠ remain' → ba < stop) := by
  induction n generalizing ba start remain data s with
  | zero =>
    obtain ⟨rfl, -, rfl, -⟩ : ba = stop ∧ start = start' ∧ remain = remain' ∧ data = data' := by
      simpa [tryLoadLoop] using h
    exact ⟨le_rfl, fun hne => absurd rfl hne⟩
  | succ n ih =>
    unfold tryLoadLoop at h
    dsimp only at h
    split_ifs at h with hdone hstate hbad hread hheader
    · obtain ⟨rfl, -, rfl, -⟩ : ba = stop ∧ start = start' ∧ remain = remain' ∧ data = data' := by
        simpa using h
      exact ⟨le_rfl, fun hne => absurd rfl hne⟩
    all_goals
      have hnext := (ih h).1
      exact ⟨by omega, fun _ => by omega⟩

theorem acceptTable_stop {loaded : Bool} {start stop : ℕ} {data : Bytes} {ni : Ni} {l : Loaded}
    (h : (acceptTable loaded start stop data ni).2 = some l) : l.stop = stop := by
  unfold acceptTable at h
  split_ifs at h
  split at h
  · cases h
  · obtain rfl := Option.some.inj h
    rfl

theorem tryLoadInfoTable_stop {loaded : Bool} {l : Loaded} (hsize : 0 < s.ni.infoTableSize)
    (h : (tryLoadInfoTable g flt ba loaded s).2 = some l) : 0 < l.stop := by
  unfold tryLoadInfoTable at h
  dsimp only at h
  generalize hloop : tryLoadLoop g flt _ ba none _ [] s = t at h
  obtain ⟨s', o⟩ := t
  cases o with
  | none => cases h
  | some r =>
    obtain ⟨stop, start, remain, data⟩ := r
    dsimp only at h
    split_ifs at h with hremain
    rw [acceptTable_stop h]
    rw [not_not.mp hremain] at hloop
    exact Nat.zero_lt_of_lt ((tryLoadLoop_forward (congrArg Prod.snd hloop)).2 hsize.ne')

theorem searchLoop_stop {loaded : Bool} {n ba' : ℕ} {l : Loaded} (hsize : 0 < s.ni.infoTableSize)
    (h : (searchLoop g flt loaded n ba s).2 = some (ba', l)) : 0 < l.stop := by
  induction n generalizing ba s with
  | zero => cases h
  | succ n ih =>
    unfold searchLoop at h
    dsimp only at h
    have hsizes := congrArg Sizes.infoTableSize (@tryLoadInfoTable_sizes g flt ba loaded s)
    have hstop := fun l => @tryLoadInfoTable_stop g flt s ba loaded l hsize
    generalize tryLoadInfoTable g flt ba loaded s = t at h hsizes hstop
    obtain ⟨s', o⟩ := t
    cases o with
    | none =>
      have hsize' : s'.ni.infoTableSize = s.ni.infoTableSize := hsizes
      exact ih (hsize' ▸ hsize) h
    | some l' =>
      obtain ⟨rfl, rfl⟩ : ba = ba' ∧ l' = l := by simpa using h
      exact hstop l' rfl

/-- A table that is rescued while loading lies in front of the end of the tables. -/
theorem repairTables_settles {main : Loaded} {backup : Option Loaded}
    (hpos : 0 < s.ni.mappingBlocksBa) :
    Settles (fun fuel => Looped.repairTables g flt fuel main backup s)
      (repairTables g flt main backup s) := by
  unfold Looped.repairTables repairTables
  cases backup with
  | none => exact rescueSingleInfoTable_settles hpos
  | some b =>
    dsimp only
    split_ifs
    · exact updateSingleInfoTable_settles hpos
    · exact .pure _

theorem settle_end_pos {ni : Ni} {main : Loaded} {backup : Option Loaded}
    (hmain : 0 < main.stop) (hbackup : ∀ b ∈ backup, 0 < b.stop) :
    0 < (ni.settle main backup).mappingBlocksBa := by
  cases backup with
  | none => exact hmain
  | some b => exact hbackup b rfl

theorem finishLoad_settles {main : Loaded} {backup : Option (ℕ × Loaded)} (hmain : 0 < main.stop)
    (hbackup : ∀ b ∈ backup, 0 < b.2.stop) :
    Settles (fun fuel => Looped.finishLoad g flt fuel main backup s)
      (finishLoad g flt main backup s) := by
  unfold Looped.finishLoad finishLoad
  have hstops : ∀ b ∈ backup.map Prod.snd, 0 < b.stop := fun b hb => by
    obtain ⟨c, hc, rfl⟩ := Option.mem_map.mp hb
    exact hbackup c hc
  exact (repairTables_settles (settle_end_pos hmain hstops)).bind (.pure _)

theorem loadInfoTable_settles (hsize : 0 < s.ni.infoTableSize) :
    Settles (fun fuel => Looped.loadInfoTable g flt fuel ba limit s)
      (loadInfoTable g flt ba limit s) := by
  unfold Looped.loadInfoTable loadInfoTable loadSecond
  dsimp only
  have hfirst := fun ba' l => @searchLoop_stop g flt ⟨s.ni.beginLoad, s.chip⟩ ba false
    (u32Sub limit (size2blk g s.ni.infoTableSize) - ba) ba' l hsize
  have hsizes := @searchLoop_sizes g flt false
    (u32Sub limit (size2blk g s.ni.infoTableSize) - ba) ba ⟨s.ni.beginLoad, s.chip⟩
  generalize hm : searchInfoTable g flt ba limit false ⟨s.ni.beginLoad, s.chip⟩ = m
  rw [show searchLoop g flt false (u32Sub limit (size2blk g s.ni.infoTableSize) - ba) ba
    ⟨s.ni.beginLoad, s.chip⟩ = m from hm] at hfirst hsizes
  obtain ⟨t, o⟩ := m
  cases o with
  | none => exact .pure _
  | some l =>
    obtain ⟨mainBa, main⟩ := l
    have hsame : t.ni.infoTableSize = s.ni.infoTableSize := congrArg Sizes.infoTableSize hsizes
    have hsize' : 0 < t.ni.infoTableSize := hsame ▸ hsize
    dsimp only
    refine (finishLoad_settles (hfirst mainBa main rfl) fun b hb => ?_).bind (.pure _)
    exact searchLoop_stop (s := ⟨t.ni.placeMain (main.placed mainBa), t.chip⟩) hsize'
      (Option.mem_def.mp hb)

theorem round_iff : Looped.Round g flt s s' ↔ Round g flt s s' := by
  obtain ⟨n, hn⟩ := @updateInfoTableOnce_settles g flt s false
  refine and_congr_right fun _ => ⟨fun ⟨m, hm⟩ => ?_, fun h => ⟨n, fun fuel hfuel => ?_⟩⟩
  · have hfuel := hm (max n m) (le_max_right n m)
    exact Option.some.inj ((hn (max n m) (le_max_left n m)).symm.trans hfuel)
  · rw [← h]
    exact hn fuel hfuel

/-- The blocks that are good. -/
def goodBlocks (ni : Ni) : Finset ℕ :=
  (Finset.range ni.blockState.length).filter fun ba => ni.state ba = .good

theorem Worn.goodBlocks_lt {ni ni' : Ni} (h : Worn ni ni') {ba : ℕ} (hgood : ni.state ba = .good)
    (hlost : ni'.state ba ≠ .good) : (goodBlocks ni').card < (goodBlocks ni).card := by
  have hlt : ba < ni.blockState.length := by
    by_contra hge
    rw [← h.length] at hge
    exact hlost (by simp [Ni.state, List.getD_eq_getElem?_getD, List.getElem?_eq_none (not_lt.mp hge)])
  refine Finset.card_lt_card ⟨fun b hb => ?_, fun hsub => ?_⟩
  · rw [goodBlocks, Finset.mem_filter, h.length] at hb
    exact Finset.mem_filter.mpr ⟨hb.1, h.good b hb.2⟩
  · have hmem := hsub (Finset.mem_filter.mpr ⟨Finset.mem_range.mpr hlt, hgood⟩)
    exact hlost (Finset.mem_filter.mp hmem).2

theorem updateLoop_unchanged {inner : ℕ} (h : s.ni.changed = false) (hfuel : 0 < fuel) :
    Looped.updateLoop g flt inner fuel s = some (s, true) := by
  obtain ⟨fuel, rfl⟩ := Nat.exists_eq_succ_of_ne_zero hfuel.ne'
  simp [Looped.updateLoop, h]

/-- The number of good blocks bounds the number of rounds. -/
theorem updateLoop_settles (hc : Covered s.ni) :
    ∃ n r, ∀ inner ≥ n, ∀ fuel ≥ (goodBlocks s.ni).card + 2,
      Looped.updateLoop g flt inner fuel s = some r := by
  induction hk : (goodBlocks s.ni).card using Nat.strong_induction_on generalizing s with
  | _ k ih =>
    cases hchanged : s.ni.changed with
    | false => exact ⟨0, (s, true), fun _ _ fuel hfuel => updateLoop_unchanged hchanged (by omega)⟩
    | true =>
      obtain ⟨n, hn⟩ := @updateInfoTableOnce_settles g flt s false
      have hstep : ∀ inner ≥ n, ∀ fuel, Looped.updateLoop g flt inner (fuel + 1) s =
          if (updateInfoTableOnce g flt false s).2 then
            Looped.updateLoop g flt inner fuel (updateInfoTableOnce g flt false s).1
          else some ((updateInfoTableOnce g flt false s).1, false) := by
        intro inner hinner fuel
        have honce := hn inner hinner
        dsimp only at honce
        simp [Looped.updateLoop, hchanged, honce]
      generalize hu : updateInfoTableOnce g flt false s = u at hstep
      obtain ⟨t, ok⟩ := u
      cases ok with
      | false =>
        refine ⟨n, (t, false), fun inner hinner fuel hfuel => ?_⟩
        obtain ⟨fuel, rfl⟩ : ∃ m, fuel = m + 1 := ⟨fuel - 1, by omega⟩
        exact hstep inner hinner fuel
      | true =>
        have hround : Round g flt s t := ⟨hchanged, hu⟩
        cases hdirty : t.ni.changed with
        | false =>
          refine ⟨n, (t, true), fun inner hinner fuel hfuel => ?_⟩
          obtain ⟨fuel, rfl⟩ : ∃ m, fuel = m + 1 := ⟨fuel - 1, by omega⟩
          exact (hstep inner hinner fuel).trans (updateLoop_unchanged hdirty (by omega))
        | true =>
          -- the next round starts with fewer good blocks
          obtain ⟨ba, hgood, hlost⟩ := hround.lost hc hdirty
          have hless : (goodBlocks t.ni).card < k :=
            hk ▸ (hround.worn hc).toWorn.goodBlocks_lt hgood hlost
          obtain ⟨m, r, hr⟩ := ih _ hless (hround.covered hc) rfl
          refine ⟨max n m, r, fun inner hinner fuel hfuel => ?_⟩
          obtain ⟨fuel, rfl⟩ : ∃ m, fuel = m + 1 := ⟨fuel - 1, by omega⟩
          exact (hstep inner (by omega) fuel).trans (hr inner (by omega) fuel (by omega))

/-- The update ends for every pattern of failures, and so do the loops of the rescue routines, also
while tables are loaded. A round is followed by another only if it has lost a good block. -/
theorem updateInfoTable_terminates (g : Geometry) (flt : Faults) (s : Sys) (hc : Covered s.ni)
    (hsize : 0 < s.ni.infoTableSize) :
    (∃ fuel, (Looped.updateInfoTable g flt fuel s).isSome = true) ∧
      (∀ ba limit, ∃ fuel, (Looped.loadInfoTable g flt fuel ba limit s).isSome = true) ∧
      ∀ t t', Relation.ReflTransGen (Looped.Round g flt) s t → Looped.Round g flt t t' →
        t'.ni.changed = true → ∃ ba, t.ni.state ba = .good ∧ t'.ni.state ba ≠ .good := by
  refine ⟨?_, fun ba limit => ?_, fun t t' hreach hround => ?_⟩
  · obtain ⟨n, r, hr⟩ := @updateLoop_settles g flt s hc
    refine ⟨max n ((goodBlocks s.ni).card + 2), ?_⟩
    rw [Looped.updateInfoTable]
    split_ifs
    · rfl
    · rw [hr _ (le_max_left _ _) _ (le_max_right _ _)]
      rfl
  · obtain ⟨n, hn⟩ := @loadInfoTable_settles g flt s ba limit hsize
    exact ⟨n, congrArg Option.isSome (hn n le_rfl)⟩
  · have hrounds := Relation.ReflTransGen.mono (fun _ _ => round_iff.mp) _ _ hreach
    exact (round_iff.mp hround).lost (covered_of_rounds hc hrounds)

/-- A chip on which nothing can be erased or written any more. -/
def deadChip : Faults := ⟨fun _ => -5, fun _ => -5, fun _ => [], fun _ => -5, fun _ _ => [], fun _ _ => false⟩

/-- A new instance whose tables are not written yet. -/
def unwritten : Sys :=
  ⟨{ initStructure smallGeometry halfReserved with
    mgmtStartBa := 12, mappingBlocksTopBa := 22, blockStateChanged := 1 }, blankChip⟩

/-- On a dead chip the update of the small instance ends. -/
theorem updateInfoTable_terminates_dead :
    ∃ fuel, (Looped.updateInfoTable smallGeometry deadChip fuel unwritten).isSome = true :=
  (updateInfoTable_terminates smallGeometry deadChip unwritten (by decide +kernel)
    (by decide +kernel)).1

end NeonWrt.Nmbm
