import Mathlib.Logic.Relation
import NeonWrt.Nmbm.Worn

/-!
# One round of an update

`nmbm_update_info_table` works in rounds. Each one takes a picture of the instance
and writes it to every table there is. After a round that succeeds all tables on
flash hold that picture, whatever failed on the way; and if a table still counts as
changed, the round has lost a good block.
-/

namespace NeonWrt.Nmbm

open Lib

variable {g : Geometry} {flt : Faults} {c c' : Chip} {ba page n m : ℕ} {data : Bytes}

/-- Writing to a page leaves the pages before it alone. -/
theorem writePhysPage_pages (buf : Bytes) {p : ℕ} (hp : p ≠ page) :
    (writePhysPage flt ba page buf c).1.pages ba p = c.pages ba p := by
  unfold writePhysPage
  generalize tryCount = n
  induction n generalizing c with
  | zero => rfl
  | succ n ih =>
    have hwrite : (c.write flt ba page buf).1.pages ba p = c.pages ba p := by
      simp [Chip.write, Chip.setPage, hp]
    unfold writeTries
    dsimp only
    split_ifs
    · exact hwrite
    · exact ih.trans hwrite

theorem writeVerifyLoop_pages {p : ℕ} (hp : p < page) :
    (writeVerifyLoop g flt ba n page data c).1.pages ba p = c.pages ba p := by
  induction n generalizing page data c with
  | zero => rfl
  | succ n ih =>
    unfold writeVerifyLoop
    dsimp only
    split_ifs
    · rfl
    · exact writePhysPage_pages _ hp.ne
    · rw [readPhysPage_pages]
      exact writePhysPage_pages _ hp.ne
    · rw [readPhysPage_pages]
      exact writePhysPage_pages _ hp.ne
    · rw [ih (by omega), readPhysPage_pages]
      exact writePhysPage_pages _ hp.ne

theorem writeVerifyLoop_ok (hn : data.length ≤ n) (hm : data.length ≤ m)
    (h : (writeVerifyLoop g flt ba n page data c).2 = true) :
    pageRange g (writeVerifyLoop g flt ba n page data c).1 ba m page data.length = data := by
  induction n generalizing page data c m with
  | zero =>
    obtain rfl := List.length_eq_zero_iff.mp (Nat.le_zero.mp hn)
    cases m <;> simp [pageRange]
  | succ n ih =>
    unfold writeVerifyLoop at h ⊢
    dsimp only at h ⊢
    by_cases hnil : data = []
    · subst hnil
      cases m <;> simp [pageRange]
    · have hpos : 0 < data.length := List.length_pos_iff.mpr hnil
      have hpage := g.pgSize_pos
      have hdrop : (data.drop g.pgSize).length ≤ n := by
        rw [List.length_drop]
        omega
      rw [if_neg hnil] at h ⊢
      split_ifs at h ⊢ with hwrite hread hverify
      obtain ⟨m, rfl⟩ : ∃ k, m = k + 1 := ⟨m - 1, by omega⟩
      have hdrop' : (data.drop g.pgSize).length ≤ m := by
        rw [List.length_drop]
        omega
      have hrest := ih hdrop hdrop' h
      rw [pageRange, if_neg (by omega), writeVerifyLoop_pages (Nat.lt_succ_self page)]
      have hchunk : min g.pgSize data.length = (data.take g.pgSize).length := by
        rw [List.length_take]
      have hremain : data.length - min g.pgSize data.length = (data.drop g.pgSize).length := by
        rw [List.length_drop]
        omega
      rw [hremain, hrest, hchunk, not_not.mp hverify, List.take_append_drop]

theorem writeVerifyData_ok (h : (writeVerifyData g flt ba data c).2 = true) :
    blockBytes g (writeVerifyData g flt ba data c).1 ba data.length = data :=
  writeVerifyLoop_ok le_rfl le_rfl h

/-- The bytes of a table in some blocks, as far as a size. -/
def readTable (g : Geometry) (c : Chip) : List ℕ → ℕ → Bytes
  | [], _ => []
  | b :: bs, remain =>
    blockBytes g c b (min g.blkSize remain) ++ readTable g c bs (remain - min g.blkSize remain)

theorem readTable_congr {blocks : List ℕ} (h : ∀ b ∈ blocks, c'.pages b = c.pages b) (remain : ℕ) :
    readTable g c' blocks remain = readTable g c blocks remain := by
  induction blocks generalizing remain with
  | nil => rfl
  | cons b bs ih =>
    obtain ⟨hb, hrest⟩ := List.forall_mem_cons.mp h
    rw [readTable, readTable, ih hrest, blockBytes, blockBytes, pageRange_congr hb]

theorem readTable_append (blocks blocks' : List ℕ) (remain : ℕ) :
    readTable g c (blocks ++ blocks') remain =
      readTable g c blocks remain ++ readTable g c blocks' (remain - g.blkSize * blocks.length) := by
  induction blocks generalizing remain with
  | nil => rfl
  | cons b bs ih =>
    rw [List.cons_append, readTable, readTable, ih, List.append_assoc, List.length_cons, Nat.mul_succ,
      show remain - min g.blkSize remain - g.blkSize * bs.length =
        remain - (g.blkSize * bs.length + g.blkSize) by omega]

variable {s : Sys} {limit : ℕ} {p : Placed} {blocks : List ℕ}

theorem writeMgmtBlock_ok (h : (writeMgmtBlock g flt ba data s).2 = true) :
    blockBytes g (writeMgmtBlock g flt ba data s).1.chip ba data.length = data := by
  unfold writeMgmtBlock at h ⊢
  dsimp only at h ⊢
  split_ifs at h ⊢ with hready hwritten
  exact writeVerifyData_ok hwritten

/-- The blocks written so far hold the first part of the data. -/
theorem writeMgmtLoop_stored {whole : Bytes} (hbelow : ∀ b ∈ blocks, b < ba)
    (hwhole : readTable g s.chip blocks whole.length ++ data = whole)
    (hblocks : data ≠ [] → g.blkSize * blocks.length + data.length = whole.length)
    (h : (writeMgmtLoop g flt n ba data blocks s).2 = some p) :
    readTable g (writeMgmtLoop g flt n ba data blocks s).1.chip p.blocks whole.length = whole := by
  induction n generalizing ba data blocks s with
  | zero =>
    unfold writeMgmtLoop at h ⊢
    split_ifs at h with hnil
    obtain rfl := Option.some.inj h
    simpa [hnil] using hwhole
  | succ n ih =>
    unfold writeMgmtLoop at h ⊢
    dsimp only at h ⊢
    have hkeep : ∀ b ∈ blocks,
        (writeMgmtBlock g flt ba (data.take g.blkSize) s).1.chip.pages b = s.chip.pages b :=
      fun b hb => (writeMgmtBlock_touched g flt ba _ s).chip b (.inl (hbelow b hb))
    split_ifs at h ⊢ with hnil hwritten
    · obtain rfl := Option.some.inj h
      simpa [hnil] using hwhole
    · have hblock := writeMgmtBlock_ok hwritten
      have hlen := hblocks hnil
      refine ih (fun b hb => ?_) ?_ (fun hrest => ?_) h
      · rcases List.mem_append.mp hb with hb | hb
        · exact (hbelow b hb).trans (Nat.lt_succ_self ba)
        · exact (List.mem_singleton.mp hb).le.trans_lt (Nat.lt_succ_self ba)
      · have hchunk : min g.blkSize (whole.length - g.blkSize * blocks.length) =
            (data.take g.blkSize).length := by
          rw [List.length_take]
          omega
        rw [readTable_append, readTable_congr hkeep, readTable, readTable, List.append_nil, hchunk,
          hblock, List.append_assoc, List.take_append_drop, hwhole]
      · have hpos := List.length_pos_iff.mpr hrest
        rw [List.length_drop] at hpos
        rw [List.length_append, List.length_singleton, List.length_drop, Nat.mul_add]
        omega
    · exact ih (fun b hb => (hbelow b hb).trans (Nat.lt_succ_self ba))
        (by rw [readTable_congr hkeep]; exact hwhole) hblocks h

theorem writeInfoTable_stored (h : (writeInfoTable g flt ba limit s).2 = some p) :
    readTable g (writeInfoTable g flt ba limit s).1.chip p.blocks s.ni.infoTableCache.length =
      s.ni.infoTableCache :=
  writeMgmtLoop_stored (by simp) rfl (fun _ => by simp) h

theorem readTable_sameOutside {lo hi : ℕ} (h : SameOutside lo hi c c')
    (hblocks : ∀ b ∈ blocks, b < lo ∨ hi ≤ b) (remain : ℕ) :
    readTable g c' blocks remain = readTable g c blocks remain :=
  readTable_congr (fun b hb => h b (hblocks b hb)) remain

/-- From a state on, a picture was written to all tables there are now, and they count as changed
only if a good block was lost. -/
structure Rewritten (g : Geometry) (data : Bytes) (s s' : Sys) : Prop where
  worn : WornClean s.ni s'.ni
  main : readTable g s'.chip s'.ni.mainBlocks data.length = data
  backup : s'.ni.backupTableBa ≠ 0 → readTable g s'.chip s'.ni.backupBlocks data.length = data

/-- An instance that has a picture to write. -/
structure HasPicture (data : Bytes) (ni : Ni) : Prop where
  cache : ni.infoTableCache = data
  ne_nil : data ≠ []
  top_le : ni.mappingBlocksTopBa ≤ ni.blockState.length

variable {s' : Sys} {ni ni' ni'' : Ni}

theorem Worn.hasPicture (h : Worn ni ni') (hw : HasPicture data ni) : HasPicture data ni' where
  cache := (congrArg Picture.infoTableCache h.picture).trans hw.cache
  ne_nil := hw.ne_nil
  top_le := by
    rw [show ni'.mappingBlocksTopBa = ni.mappingBlocksTopBa from
      congrArg Picture.mappingBlocksTopBa h.picture, h.length]
    exact hw.top_le

theorem WornCounted.book (h : WornCounted ni ni') (hpicture : ni''.picture = ni'.picture)
    (hstates : ni''.blockState = ni'.blockState) (hchanged : ni''.changed = ni'.changed) :
    WornCounted ni ni'' := h.trans (wornCounted_of_eq hpicture hstates hchanged)

theorem WornClean.book (h : WornClean ni ni') (hpicture : ni''.picture = ni'.picture)
    (hstates : ni''.blockState = ni'.blockState) (hchanged : ni''.changed = ni'.changed) :
    WornClean ni ni'' := h.trans (wornCounted_of_eq hpicture hstates hchanged)

/-- Losses before clean tables count as well. -/
theorem Worn.trans_clean (h : Worn ni ni') (h' : WornClean ni' ni'') : WornClean ni ni'' :=
  ⟨h.trans h'.toWorn, fun hno => h'.clean (h.noLoss_right hno)⟩

/-- The picture is written to a range, or fails to be. -/
theorem HasPicture.write {w : Sys × Option Placed} (h : HasPicture data s.ni)
    (hw : writeInfoTable g flt ba limit s = w) (hlimit : limit ≤ s.ni.mappingBlocksTopBa) :
    ∃ ni chip o, w = (⟨ni, chip⟩, o) ∧ WornCounted s.ni ni ∧ SameButStates s.ni ni ∧
      SameOutside ba limit s.chip chip ∧
      ∀ p, o = some p → p.Within ba limit ∧ readTable g chip p.blocks data.length = data := by
  subst hw
  obtain ⟨rfl, hne, htop⟩ := h
  have htouched := writeInfoTable_touched g flt ba limit s
  exact ⟨_, _, _, rfl, writeInfoTable_worn (hlimit.trans htop), htouched.ni, htouched.chip,
    fun p hp => ⟨writeInfoTable_placed g flt hne hp, writeInfoTable_stored hp⟩⟩

theorem writeTableDown_stored (h : HasPicture data s.ni)
    (hp : (writeTableDown g flt n ba s).2 = some p) :
    readTable g (writeTableDown g flt n ba s).1.chip p.blocks data.length = data := by
  induction n generalizing ba s with
  | zero => cases hp
  | succ n ih =>
    unfold writeTableDown at hp ⊢
    dsimp only at hp ⊢
    generalize hw : writeInfoTable g flt _ _ _ = w at hp ⊢
    obtain ⟨ni, chip, o, rfl, hworn, -, -, hstored⟩ := h.write hw le_rfl
    cases o with
    | some q =>
      obtain rfl := Option.some.inj hp
      exact (hstored q rfl).2
    | none => exact ih (hworn.hasPicture h) hp

/-- The picture is written from one of several blocks on, or fails to be. -/
theorem HasPicture.writeDown {w : Sys × Option Placed} {lo : ℕ} (h : HasPicture data s.ni)
    (hw : writeTableDown g flt n ba s = w) (hlo : lo + n ≤ ba + 1) :
    ∃ ni chip o, w = (⟨ni, chip⟩, o) ∧ WornCounted s.ni ni ∧ SameButStates s.ni ni ∧
      SameOutside lo s.ni.mappingBlocksTopBa s.chip chip ∧
      ∀ p, o = some p → p.Within lo s.ni.mappingBlocksTopBa ∧
        readTable g chip p.blocks data.length = data := by
  subst hw
  have hcache : s.ni.infoTableCache ≠ [] := h.cache.trans_ne h.ne_nil
  have htouched := @writeTableDown_touched g flt s lo n ba hlo
  exact ⟨_, _, _, rfl, writeTableDown_worn h.top_le, htouched.ni, htouched.chip,
    fun p hp => ⟨writeTableDown_placed g flt hlo hcache hp, writeTableDown_stored h hp⟩⟩

theorem Placed.Within.outside {lo lo' hi' : ℕ} (h : p.Within lo limit)
    (hapart : p.stop ≤ lo' ∨ hi' ≤ p.start) : ∀ b ∈ p.blocks, b < lo' ∨ hi' ≤ b := by
  intro b hb
  have := h.blocks b hb
  omega

theorem SameButStates.mainBlocks (h : SameButStates ni ni') : ni'.mainBlocks = ni.mainBlocks := by
  obtain ⟨states, changed, rfl⟩ := h
  rfl

theorem SameButStates.backupBlocks (h : SameButStates ni ni') :
    ni'.backupBlocks = ni.backupBlocks := by
  obtain ⟨states, changed, rfl⟩ := h
  rfl

/-- Only blocks outside of the tables are touched afterwards. -/
theorem Rewritten.touch {s'' : Sys} {lo hi : ℕ} (h : Rewritten g data s s')
    (hworn : WornCounted s'.ni s''.ni) (hsame : SameButStates s'.ni s''.ni)
    (hchip : SameOutside lo hi s'.chip s''.chip) (hmain : ∀ b ∈ s'.ni.mainBlocks, b < lo ∨ hi ≤ b)
    (hbackup : s'.ni.backupTableBa ≠ 0 → ∀ b ∈ s'.ni.backupBlocks, b < lo ∨ hi ≤ b) :
    Rewritten g data s s'' where
  worn := h.worn.trans hworn
  main := by
    rw [hsame.mainBlocks, readTable_sameOutside hchip hmain]
    exact h.main
  backup := fun hsome => by
    have hsome' : s'.ni.backupTableBa ≠ 0 := hsame.backupTableBa.symm.trans_ne hsome
    rw [hsame.backupBlocks, readTable_sameOutside hchip (hbackup hsome')]
    exact h.backup hsome'

/-- Both tables are built from scratch: the backup table lies behind the main table. -/
theorem rebuildInfoTable_rewritten (h : HasPicture data s.ni)
    (hok : (rebuildInfoTable g flt s).2 = true) :
    Rewritten g data s (rebuildInfoTable g flt s).1 := by
  have hempty : WornCounted s.ni ((s.ni.dropMain.dropBackup).endTables s.ni.mappingBlocksTopBa) :=
    wornCounted_of_eq rfl rfl rfl
  unfold rebuildInfoTable at hok ⊢
  dsimp only at hok ⊢
  generalize hw : writeInfoTable g flt _ _ _ = w at hok ⊢
  obtain ⟨ni, chip, o, rfl, hworn, hsame, -, hstored⟩ := (hempty.hasPicture h).write hw le_rfl
  have hnone : ni.backupTableBa = 0 := hsame.backupTableBa
  cases o with
  | none => cases hok
  | some main =>
    obtain ⟨hmain, hdata⟩ := hstored main rfl
    have hplaced : WornCounted s.ni ((ni.placeMain main).endTables main.stop) :=
      (hempty.trans hworn).book rfl rfl rfl
    have hsingle : Rewritten g data s
        ⟨((ni.placeMain main).endTables main.stop).markTablesClean, chip⟩ :=
      ⟨hplaced.toWorn.mark, hdata, fun hsome => absurd hnone hsome⟩
    dsimp only at hok ⊢
    split
    · exact hsingle
    next nextStart hreserve =>
      have hnext : main.stop ≤ nextStart := tryReserveBlocks_le hreserve
      generalize hw : writeInfoTable g flt _ _ _ = w
      obtain ⟨ni', chip', o, rfl, hworn', hsame', houtside, hstored'⟩ :=
        (hsingle.worn.hasPicture h).write hw le_rfl
      have hkept : Rewritten g data s ⟨ni', chip'⟩ :=
        hsingle.touch hworn' hsame' houtside (hmain.outside (.inl hnext))
          fun hsome => absurd hnone hsome
      cases o with
      | none => exact hkept
      | some backup =>
        obtain ⟨hbackup, hcopy⟩ := hstored' backup rfl
        have hboth : Rewritten g data s ⟨(ni'.placeBackup backup).endTables backup.stop, chip'⟩ :=
          ⟨hkept.worn.book rfl rfl rfl, hkept.main, fun _ => hcopy⟩
        -- what is erased lies between the tables
        have hlimit : backup.start ≤ ((ni'.placeBackup backup).endTables backup.stop).blockState.length :=
          (hbackup.start_lt.le.trans hbackup.stop_le).trans
            ((hsingle.worn.hasPicture h).top_le.trans hworn'.length.ge)
        have htouched := eraseRange_touched g flt main.stop backup.start
          ⟨(ni'.placeBackup backup).endTables backup.stop, chip'⟩
        exact hboth.touch (eraseRange_worn hlimit) htouched.ni htouched.chip
          (by rw [show ((ni'.placeBackup backup).endTables backup.stop).mainBlocks = main.blocks from
            hsame'.mainBlocks]; exact hmain.outside (.inl le_rfl))
          fun _ => hbackup.outside (.inr le_rfl)

/-- A main table that could not be written is rescued. The backup table was written before, and the
end of the tables lies behind it. -/
theorem rescueMainInfoTable_rewritten {s₀ : Sys} (h : HasPicture data s.ni)
    (hstart : WornClean s₀.ni s.ni)
    (hbackup : readTable g s.chip s.ni.backupBlocks data.length = data)
    (hbelow : ∀ b ∈ s.ni.backupBlocks, b < s.ni.mappingBlocksBa) :
    Rewritten g data s₀ (rescueMainInfoTable g flt s).1 := by
  -- the backup table becomes the main table
  have hpromoted : Rewritten g data s₀ ⟨s.ni.promoteBackup, s.chip⟩ :=
    ⟨hstart.book rfl rfl rfl, hbackup, fun hsome => absurd rfl hsome⟩
  unfold rescueMainInfoTable
  dsimp only
  split
  · exact hpromoted
  next writeBa hreserve =>
    have hle := tryReserveBlocks_le hreserve
    have hn : s.ni.mappingBlocksBa + (writeBa + 1 - s.ni.mappingBlocksBa) ≤ writeBa + 1 := by omega
    generalize hw : writeTableDown g flt _ _ _ = w
    obtain ⟨ni, chip, o, rfl, hworn, hsame, houtside, hstored⟩ := h.writeDown hw hn
    cases o with
    | none =>
      refine ⟨(hstart.trans hworn).book rfl rfl rfl, ?_, fun hsome => absurd rfl hsome⟩
      change readTable g chip ni.backupBlocks data.length = data
      rw [hsame.backupBlocks, readTable_sameOutside houtside fun b hb => .inl (hbelow b hb)]
      exact hbackup
    | some tmp =>
      obtain ⟨htmp, hdata⟩ := hstored tmp rfl
      have hpicture : WornCounted s.ni (ni.endTables tmp.stop) := hworn.book rfl rfl rfl
      have hended : WornClean s₀.ni (ni.endTables tmp.stop) := (hstart.trans hworn).book rfl rfl rfl
      have htop : (ni.endTables tmp.stop).mappingBlocksTopBa = s.ni.mappingBlocksTopBa :=
        mappingBlocksTopBa_of_fixed hsame.fixed
      dsimp only
      generalize hw : writeInfoTable g flt _ _ _ = w
      obtain ⟨ni', chip', o, rfl, hworn', hsame', houtside', hstored'⟩ :=
        (hpicture.hasPicture h).write hw (htmp.start_lt.le.trans (htmp.stop_le.trans htop.ge))
      have htmpData : readTable g chip' tmp.blocks data.length = data :=
        (readTable_sameOutside houtside' (htmp.outside (.inr le_rfl)) _).trans hdata
      cases o with
      | none =>
        have hplaced : WornClean s₀.ni ((ni'.placeMain tmp).dropBackup) :=
          (hended.trans hworn').book rfl rfl rfl
        exact ⟨hplaced.toWorn.mark, htmpData, fun hsome => absurd rfl hsome⟩
      | some main =>
        obtain ⟨hmain, hnew⟩ := hstored' main rfl
        have hplaced : WornClean s₀.ni (ni'.placeMain main) :=
          (hended.trans hworn').book rfl rfl rfl
        dsimp only
        rw [if_pos hmain.stop_le]
        exact ⟨hplaced.toWorn.mark.book rfl rfl rfl, hnew, fun _ => htmpData⟩

/-- The main table is written. A backup table that was written before lies behind it. -/
theorem updateMainTable_rewritten (h : HasPicture data s.ni)
    (hlimit : limit ≤ s.ni.mappingBlocksTopBa)
    (hbackup : s.ni.backupTableBa ≠ 0 → s.ni.changed = false ∧
      readTable g s.chip s.ni.backupBlocks data.length = data ∧
      ∀ b ∈ s.ni.backupBlocks, limit ≤ b ∧ b < s.ni.mappingBlocksBa)
    (hok : (updateMainTable g flt limit s).2 = true) :
    Rewritten g data s (updateMainTable g flt limit s).1 := by
  unfold updateMainTable at hok ⊢
  by_cases hmain : s.ni.mainTableBa = 0
  · rw [if_pos hmain] at hok ⊢
    exact rebuildInfoTable_rewritten h hok
  · rw [if_neg hmain] at hok ⊢
    dsimp only at hok ⊢
    generalize hw : writeInfoTable g flt _ _ _ = w at hok ⊢
    obtain ⟨ni, chip, o, rfl, hworn, hsame, houtside, hstored⟩ := h.write hw hlimit
    have hpicture := hworn.hasPicture h
    have hbackupBa : ni.backupTableBa = s.ni.backupTableBa := hsame.backupTableBa
    cases o with
    | none =>
      dsimp only at hok ⊢
      split_ifs at hok ⊢ with hnone
      · have hrebuilt := rebuildInfoTable_rewritten hpicture hok
        exact ⟨hworn.trans_clean hrebuilt.worn, hrebuilt.main, hrebuilt.backup⟩
      · obtain ⟨hclean, hdata, hblocks⟩ := hbackup (hbackupBa.symm.trans_ne hnone)
        have hkept : readTable g chip ni.backupBlocks data.length = data := by
          rw [hsame.backupBlocks,
            readTable_sameOutside houtside fun b hb => .inr (hblocks b hb).1]
          exact hdata
        refine rescueMainInfoTable_rewritten hpicture (hworn.clean hclean) hkept ?_
        rw [hsame.backupBlocks, hsame.mappingBlocksBa]
        exact fun b hb => (hblocks b hb).2
    | some p =>
      obtain ⟨hp, hdata⟩ := hstored p rfl
      dsimp only
      split_ifs with hnone
      · have hplaced : WornCounted s.ni ((ni.placeMain p).endTables p.stop) :=
          hworn.book rfl rfl rfl
        exact ⟨hplaced.toWorn.mark, hdata, fun hsome => absurd hnone hsome⟩
      · have hplaced : WornCounted s.ni (ni.placeMain p) := hworn.book rfl rfl rfl
        refine ⟨hplaced.toWorn.mark, hdata, fun hsome => ?_⟩
        obtain ⟨-, hcopy, hblocks⟩ := hbackup (hbackupBa.symm.trans_ne hsome)
        change readTable g chip ni.backupBlocks data.length = data
        rw [hsame.backupBlocks,
          readTable_sameOutside houtside fun b hb => .inr (hblocks b hb).1]
        exact hcopy

theorem hasPicture_generate {ni : Ni} (htop : ni.mappingBlocksTopBa ≤ ni.blockState.length) :
    HasPicture (generateInfoTableCache ni).1.infoTableCache (generateInfoTableCache ni).1 :=
  ⟨rfl, generateInfoTableCache_ne_nil ni, htop⟩

/-- After a round that succeeds, the tables hold the picture taken at its start. -/
theorem updateInfoTableOnce_rewritten (htop : s.ni.mappingBlocksTopBa ≤ s.ni.blockState.length)
    (hchanged : s.ni.changed = true) (hok : (updateInfoTableOnce g flt false s).2 = true) :
    Rewritten g (generateInfoTableCache s.ni).1.infoTableCache
      ⟨(generateInfoTableCache s.ni).1, s.chip⟩ (updateInfoTableOnce g flt false s).1 := by
  have hgenerate := hasPicture_generate htop
  have hpicture : (generateInfoTableCache s.ni).2 = true := hchanged
  unfold updateInfoTableOnce at hok ⊢
  dsimp only at hok ⊢
  rw [hpicture] at hok ⊢
  generalize (generateInfoTableCache s.ni).1 = ni₀ at hgenerate hok ⊢
  generalize ni₀.infoTableCache = data at hgenerate ⊢
  simp only [Bool.not_true, Bool.false_and, Bool.false_eq_true, if_false] at hok ⊢
  split_ifs at hok ⊢ with hnone
  · exact updateMainTable_rewritten hgenerate le_rfl (fun hsome => absurd hnone hsome) hok
  · generalize hw : writeInfoTable g flt _ _ _ = w at hok ⊢
    obtain ⟨ni, chip, o, rfl, hworn, hsame, -, hstored⟩ :=
      HasPicture.write (s := ⟨ni₀, s.chip⟩) hgenerate hw le_rfl
    cases o with
    | none =>
      have hdropped : WornCounted ni₀ ((ni.endTables ni.backupTableBa).dropBackup) :=
        hworn.book rfl rfl rfl
      have hmain := updateMainTable_rewritten
        (s := ⟨(ni.endTables ni.backupTableBa).dropBackup, chip⟩) (hdropped.hasPicture hgenerate)
        le_rfl (fun hsome => absurd rfl hsome) hok
      exact ⟨hdropped.trans_clean hmain.worn, hmain.main, hmain.backup⟩
    | some p =>
      obtain ⟨hp, hdata⟩ := hstored p rfl
      have hplaced : WornCounted ni₀ ((ni.placeBackup p).endTables p.stop) :=
        hworn.book rfl rfl rfl
      have htop' : ni.mappingBlocksTopBa = ni₀.mappingBlocksTopBa :=
        mappingBlocksTopBa_of_fixed hsame.fixed
      have hlimit : p.start ≤ ni.mappingBlocksTopBa :=
        (hp.start_lt.le.trans hp.stop_le).trans htop'.ge
      have hmarked : WornClean ni₀ ((ni.placeBackup p).endTables p.stop).markTablesClean :=
        hplaced.toWorn.mark
      have hmain : Rewritten g data ⟨((ni.placeBackup p).endTables p.stop).markTablesClean, chip⟩
          (updateMainTable g flt p.start
            ⟨((ni.placeBackup p).endTables p.stop).markTablesClean, chip⟩).1 :=
        updateMainTable_rewritten (hmarked.hasPicture hgenerate) hlimit
          (fun _ => ⟨rfl, hdata, hp.blocks⟩) hok
      exact ⟨hmarked.toWorn.trans_clean hmain.worn, hmain.main, hmain.backup⟩

/-- A round of the update that succeeds. -/
def Round (g : Geometry) (flt : Faults) (s s' : Sys) : Prop :=
  s.ni.changed = true ∧ updateInfoTableOnce g flt false s = (s', true)

/-- The states of all blocks that may be written are known. -/
def Covered (ni : Ni) : Prop := ni.mappingBlocksTopBa ≤ ni.blockState.length

instance (ni : Ni) : Decidable (Covered ni) := Nat.decLe _ _

theorem Worn.covered {ni ni' : Ni} (h : Worn ni ni') (hc : Covered ni) : Covered ni' := by
  rw [Covered, show ni'.mappingBlocksTopBa = ni.mappingBlocksTopBa from
    congrArg Picture.mappingBlocksTopBa h.picture, h.length]
  exact hc

/-- What a round does to the block states and counters. -/
theorem Round.worn (hc : Covered s.ni) (h : Round g flt s s') :
    WornClean (generateInfoTableCache s.ni).1 s'.ni := by
  obtain ⟨hchanged, hround⟩ := h
  have hrewritten := @updateInfoTableOnce_rewritten g flt s hc hchanged (by rw [hround])
  rw [hround] at hrewritten
  exact hrewritten.worn

/-- A round that leaves the tables changed has lost a good block. -/
theorem Round.lost (hc : Covered s.ni) (h : Round g flt s s') (hchanged : s'.ni.changed = true) :
    ∃ ba, s.ni.state ba = .good ∧ s'.ni.state ba ≠ .good := by
  have hworn := h.worn hc
  by_contra hnone
  have hno : NoLoss (generateInfoTableCache s.ni).1 s'.ni := fun ba hgood => by
    by_contra hlost
    exact hnone ⟨ba, hgood, hlost⟩
  rw [hworn.clean hno] at hchanged
  cases hchanged

theorem Round.covered (hc : Covered s.ni) (h : Round g flt s s') : Covered s'.ni :=
  (h.worn hc).toWorn.covered (show Covered (generateInfoTableCache s.ni).1 from hc)

theorem covered_of_rounds {t : Sys} (hc : Covered s.ni)
    (h : Relation.ReflTransGen (Round g flt) s t) : Covered t.ni := by
  induction h with
  | refl => exact hc
  | tail _ hround ih => exact hround.covered ih

end NeonWrt.Nmbm
