import Mathlib.Data.List.GetD
import NeonWrt.Nmbm.Create

/-!
# Loading the info tables

At attach time the driver searches the management area for two info tables and
takes over the newer one. It checks the checksum of a table, that no target lies
on the tables up to this one or on the signature, and recomputes the boundary of
the free spare blocks from the lowest target above the table.

It does not check that the targets are distinct, nor that the targets of the one
table lie above the other. `LoadOk` says so of the tables that are on the chip;
then the loaded instance is settled.
-/

namespace NeonWrt.Nmbm

open Lib

variable (g : Geometry) (flt : Faults)

/-- The bytes that adjacent blocks hold, as far as a size. -/
def tableData (c : Chip) : ℕ → ℕ → ℕ → Bytes
  | 0, _, _ => []
  | n + 1, ba, remain =>
    blockBytes g c ba (min remain g.blkSize) ++
      tableData c n (ba + 1) (remain - min remain g.blkSize)

/-- The bytes of a table that starts at a block. -/
def tableAt (ni : Ni) (c : Chip) (ba : ℕ) : Bytes :=
  tableData g c (size2blk g ni.infoTableSize) ba ni.infoTableSize

/-- The blocks from a block on hold an info table with a valid header and checksum. -/
def HoldsTable (ni : Ni) (c : Chip) (ba : ℕ) : Prop :=
  checkInfoTableHeader ni (blockBytes g c ba (min ni.infoTableSize g.blkSize)) = true ∧
    checkHeader (tableAt g ni c ba) ni.infoTableSize = true

/-- The target of a logical block in a table on the chip. -/
def targetAt (ni : Ni) (c : Chip) (ba lb : ℕ) : ℤ :=
  (tableMapping ni (tableAt g ni c ba)).getD lb (-1)

variable {g flt} {s s' : Sys} {c c' : Chip} {ni : Ni} {ba n remain : ℕ} {start : Option ℕ}
  {data : Bytes}

theorem tableData_congr (h : c'.pages = c.pages) (n ba remain : ℕ) :
    tableData g c' n ba remain = tableData g c n ba remain := by
  induction n generalizing ba remain with
  | zero => rfl
  | succ n ih =>
    have hblock : blockBytes g c' ba (min remain g.blkSize) =
        blockBytes g c ba (min remain g.blkSize) := pageRange_congr (congrFun h ba) _ _ _
    rw [tableData, tableData, hblock, ih]

/-- The sizes and boundaries that loading does not change. -/
structure Sizes where
  infoTableSize : ℕ
  stateTableSize : ℕ
  mappingTableSize : ℕ
  blockCount : ℕ
  mgmtStartBa : ℕ
  signatureBa : ℕ

/-- The sizes and boundaries of an instance. -/
def Ni.sizes (ni : Ni) : Sizes :=
  ⟨ni.infoTableSize, ni.stateTableSize, ni.mappingTableSize, ni.blockCount, ni.mgmtStartBa,
    ni.signatureBa⟩

section Congr

variable {ni' : Ni}

theorem tableAt_congr (h : ni'.sizes = ni.sizes) (hpages : c'.pages = c.pages) (ba : ℕ) :
    tableAt g ni' c' ba = tableAt g ni c ba := by
  have hsize : ni'.infoTableSize = ni.infoTableSize := congrArg Sizes.infoTableSize h
  unfold tableAt
  rw [tableData_congr hpages, hsize]

theorem tableMapping_congr (h : ni'.sizes = ni.sizes) (data : Bytes) :
    tableMapping ni' data = tableMapping ni data := by
  unfold tableMapping
  rw [show ni'.blockCount = ni.blockCount from congrArg Sizes.blockCount h]

theorem targetAt_congr (h : ni'.sizes = ni.sizes) (hpages : c'.pages = c.pages) (ba lb : ℕ) :
    targetAt g ni' c' ba lb = targetAt g ni c ba lb := by
  unfold targetAt
  rw [tableAt_congr h hpages, tableMapping_congr h]

theorem holdsTable_congr (h : ni'.sizes = ni.sizes) (hpages : c'.pages = c.pages) (ba : ℕ) :
    HoldsTable g ni' c' ba ↔ HoldsTable g ni c ba := by
  have hsize : ni'.infoTableSize = ni.infoTableSize := congrArg Sizes.infoTableSize h
  have hstate : ni'.stateTableSize = ni.stateTableSize := congrArg Sizes.stateTableSize h
  have hmapping : ni'.mappingTableSize = ni.mappingTableSize := congrArg Sizes.mappingTableSize h
  have hblock : blockBytes g c' ba (min ni.infoTableSize g.blkSize) =
      blockBytes g c ba (min ni.infoTableSize g.blkSize) := pageRange_congr (congrFun hpages ba) _ _ _
  unfold HoldsTable checkInfoTableHeader
  rw [tableAt_congr h hpages, hsize, hstate, hmapping, hblock]

end Congr

/-- Reading a table changes no contents, and block states at most. -/
theorem tryLoadLoop_same (n ba : ℕ) (start : Option ℕ) (remain : ℕ) (data : Bytes) (s : Sys) :
    SameButStates s.ni (tryLoadLoop g flt n ba start remain data s).1.ni ∧
      (tryLoadLoop g flt n ba start remain data s).1.chip.pages = s.chip.pages := by
  induction n generalizing ba start remain data s with
  | zero => exact ⟨.refl _, rfl⟩
  | succ n ih =>
    have hread : (readData g flt ba 0 (min remain g.blkSize)
        (checkBadPhysBlock flt ba s.chip).1).1.pages = s.chip.pages := by
      rw [readData_pages, checkBadPhysBlock_pages]
    have hmark : SameButStates s.ni (s.ni.setState ba .bad) := sameButStates_setState _ _ _
    unfold tryLoadLoop
    dsimp only
    split_ifs
    · exact ⟨.refl _, rfl⟩
    · exact ih _ _ _ _ _
    · exact ⟨hmark.trans (ih _ _ _ _ ⟨_, _⟩).1, (ih _ _ _ _ ⟨_, _⟩).2⟩
    · exact ⟨hmark.trans (ih _ _ _ _ ⟨_, _⟩).1, (ih _ _ _ _ ⟨_, _⟩).2.trans hread⟩
    · exact ⟨.refl _, hread⟩
    · exact ⟨(ih _ _ _ _ ⟨_, _⟩).1, (ih _ _ _ _ ⟨_, _⟩).2.trans hread⟩

theorem tryLoadLoop_short {stop : ℕ} {start' : Option ℕ} {data' : Bytes}
    (hshort : n * g.blkSize < remain) :
    (tryLoadLoop g flt n ba start remain data s).2 ≠ some (stop, start', 0, data') := by
  intro h
  induction n generalizing ba start remain data s with
  | zero =>
    simp only [tryLoadLoop, Option.some_inj, Prod.mk.injEq] at h
    omega
  | succ n ih =>
    have hskip : n * g.blkSize < remain := by
      rw [Nat.succ_mul] at hshort
      omega
    have hnext : n * g.blkSize < remain - min remain g.blkSize := by
      rw [Nat.succ_mul] at hshort
      omega
    unfold tryLoadLoop at h
    dsimp only at h
    split_ifs at h
    · omega
    · exact ih hskip h
    · exact ih hskip h
    · exact ih hskip h
    · exact ih hnext h

/-- When just enough blocks are left, the next one is read: a block that is skipped
leaves too few. -/
theorem tryLoadLoop_next {stop : ℕ} {start' : Option ℕ} {data' : Bytes}
    (hlo : n * g.blkSize < remain)
    (h : (tryLoadLoop g flt (n + 1) ba start remain data s).2 = some (stop, start', 0, data')) :
    (start = none →
      checkInfoTableHeader s.ni (blockBytes g s.chip ba (min remain g.blkSize)) = true) ∧
    ∃ chip, chip.pages = s.chip.pages ∧
      (tryLoadLoop g flt n (ba + 1) (some (start.getD ba)) (remain - min remain g.blkSize)
        (data ++ blockBytes g s.chip ba (min remain g.blkSize)) ⟨s.ni, chip⟩).2 =
          some (stop, start', 0, data') := by
  unfold tryLoadLoop at h
  dsimp only at h
  split_ifs at h with hremain hstate hbad hread hheader
  · omega
  · exact absurd h (tryLoadLoop_short hlo)
  · exact absurd h (tryLoadLoop_short hlo)
  · exact absurd h (tryLoadLoop_short hlo)
  · have hblock : blockBytes g (checkBadPhysBlock flt ba s.chip).1 ba (min remain g.blkSize) =
        blockBytes g s.chip ba (min remain g.blkSize) :=
      pageRange_congr (congrFun (checkBadPhysBlock_pages ba s.chip) ba) _ _ _
    have hdata := (readData_ok (Int.not_lt.mp hread)).trans hblock
    rw [hdata] at h hheader
    refine ⟨fun hnone => by simpa [hnone] using hheader, _, ?_, h⟩
    rw [readData_pages, checkBadPhysBlock_pages]

/-- A table that is read completely fills adjacent blocks. -/
theorem tryLoadLoop_full {stop : ℕ} {start' : Option ℕ} {data' : Bytes}
    (hlo : n * g.blkSize < remain) (hhi : remain ≤ (n + 1) * g.blkSize)
    (h : (tryLoadLoop g flt (n + 1) ba start remain data s).2 = some (stop, start', 0, data')) :
    stop = ba + (n + 1) ∧ start' = some (start.getD ba) ∧
      data' = data ++ tableData g s.chip (n + 1) ba remain ∧
      (start = none →
        checkInfoTableHeader s.ni (blockBytes g s.chip ba (min remain g.blkSize)) = true) := by
  induction n generalizing ba start remain data s with
  | zero =>
    obtain ⟨hheader, chip, -, hrest⟩ := tryLoadLoop_next hlo h
    simp only [tryLoadLoop, Option.some_inj, Prod.mk.injEq] at hrest
    obtain ⟨rfl, rfl, -, rfl⟩ := hrest
    exact ⟨rfl, rfl, by simp [tableData], hheader⟩
  | succ n ih =>
    obtain ⟨hheader, chip, hpages, hrest⟩ := tryLoadLoop_next hlo h
    have hfull : min remain g.blkSize = g.blkSize := by
      rw [Nat.succ_mul] at hlo
      omega
    rw [Nat.succ_mul] at hlo hhi
    obtain ⟨rfl, rfl, rfl, -⟩ := ih (by omega) (by omega) hrest
    refine ⟨by omega, rfl, ?_, hheader⟩
    rw [tableData_congr hpages, List.append_assoc]
    rfl

theorem size2blk_eq {size : ℕ} (hpos : 0 < size) :
    ∃ n, size2blk g size = n + 1 ∧ n * g.blkSize < size ∧ size ≤ (n + 1) * g.blkSize := by
  have hblk := g.blkSize_pos
  refine ⟨(size - 1) / g.blkSize, ?_, ?_, ?_⟩
  · rw [size2blk, show size + g.blkSize - 1 = size - 1 + g.blkSize by omega,
      Nat.add_div_right _ hblk]
  · have hle := Nat.div_mul_le_self (size - 1) g.blkSize
    omega
  · have hlt : size - 1 < (size - 1) / g.blkSize * g.blkSize + g.blkSize :=
      Nat.lt_div_mul_add hblk
    rw [Nat.succ_mul]
    omega

/-- What the checks of a table that ends at `stop` establish about its mapping: no target
is the signature, and `top` is right below the lowest target behind the table. -/
structure Fits (mapping : ℕ → ℤ) (count stop sig top : ℕ) : Prop where
  ne_sig : ∀ lb < count, mapping lb ≠ sig
  above : ∀ lb < count, (stop : ℤ) ≤ mapping lb → (top : ℤ) < mapping lb
  top_lt : top < sig
  top_eq : top + 1 = sig ∨ stop ≤ top + 1 ∧ ∃ lb < count, mapping lb = (top + 1 : ℕ)

theorem minimumMappingPb_spec (stop low : ℕ) (targets : List ℕ) :
    minimumMappingPb stop targets low ≤ low ∧
    (∀ m ∈ targets, stop ≤ m → minimumMappingPb stop targets low ≤ m) ∧
    (minimumMappingPb stop targets low = low ∨ stop ≤ minimumMappingPb stop targets low ∧
      minimumMappingPb stop targets low ∈ targets) := by
  induction targets generalizing low with
  | nil => simp [minimumMappingPb]
  | cons a targets ih =>
    have hcons : minimumMappingPb stop (a :: targets) low =
        minimumMappingPb stop targets (if stop ≤ a ∧ a < low then a else low) := rfl
    obtain ⟨hle, hall, hmem⟩ := ih (if stop ≤ a ∧ a < low then a else low)
    rw [hcons]
    generalize minimumMappingPb stop targets _ = lowest at hle hall hmem ⊢
    refine ⟨?_, fun m hm hstop => ?_, ?_⟩
    · split_ifs at hle <;> omega
    · obtain rfl | hm := List.mem_cons.mp hm
      · split_ifs at hle <;> omega
      · exact hall m hm hstop
    · obtain heq | ⟨hstop, hmem⟩ := hmem
      · split_ifs at heq with ha
        · exact .inr ⟨heq ▸ ha.1, heq ▸ List.mem_cons_self ..⟩
        · exact .inl heq
      · exact .inr ⟨hstop, List.mem_cons_of_mem a hmem⟩

theorem tableMapping_bounds (ni : Ni) (data : Bytes) (lb : ℕ) :
    -2147483648 ≤ (tableMapping ni data).getD lb (-1) ∧
      (tableMapping ni data).getD lb (-1) < 2147483648 := by
  unfold tableMapping unpackMapping
  rw [List.getD_eq_getElem?_getD]
  by_cases hlb : lb < ni.blockCount
  · simpa [hlb] using getI32_bounds _ _
  · simp [hlb]

theorem toU32_eq {m : ℤ} (hlo : -2147483648 ≤ m) (hhi : m < 2147483648) :
    0 ≤ m ∧ (toU32 m : ℤ) = m ∨ m < 0 ∧ 2147483648 ≤ toU32 m := by
  unfold toU32
  omega

theorem checkInfoTable_fits {start stop top : ℕ} (hsig : ni.signatureBa < 65536)
    (hpos : 0 < ni.signatureBa) (hstop : 0 < stop) (hcount : ni.dataBlockCount ≤ ni.blockCount)
    (h : checkInfoTable ni start stop data = some top) :
    Fits (fun lb => (tableMapping ni data).getD lb (-1)) ni.dataBlockCount stop ni.signatureBa
      top := by
  unfold checkInfoTable at h
  dsimp only at h
  split_ifs at h with hbad hstate
  have htop := Option.some_inj.mp h
  have hlen : (tableMapping ni data).length = ni.blockCount := by
    simp [tableMapping, unpackMapping]
  generalize htargets : ((tableMapping ni data).take ni.dataBlockCount).map toU32 = targets
    at hbad htop
  obtain ⟨hle, hall, hlow⟩ := minimumMappingPb_spec stop ni.signatureBa targets
  generalize minimumMappingPb stop targets ni.signatureBa = low at htop hle hall hlow
  have hbad' : ∀ m ∈ targets, m ≠ ni.signatureBa := by
    intro m hm heq
    exact hbad (List.any_eq_true.mpr ⟨m, hm, by simp [heq]⟩)
  have hlowpos : 0 < low := by omega
  rw [u32Sub_of_le hlowpos] at htop
  -- every target is among those that were checked
  have hmem : ∀ lb < ni.dataBlockCount,
      toU32 ((tableMapping ni data).getD lb (-1)) ∈ targets := by
    intro lb hlb
    rw [← htargets]
    apply List.mem_map_of_mem
    rw [List.getD_eq_getElem _ _ (by omega)]
    exact List.mem_take_iff_getElem.mpr ⟨lb, by omega, rfl⟩
  refine ⟨fun lb hlb heq => ?_, fun lb hlb hge => ?_, by omega, ?_⟩
  · have hbounds := tableMapping_bounds ni data lb
    have hvalue := toU32_eq hbounds.1 hbounds.2
    exact hbad' _ (hmem lb hlb) (by omega)
  · have hbounds := tableMapping_bounds ni data lb
    have hvalue := toU32_eq hbounds.1 hbounds.2
    have hlower := hall _ (hmem lb hlb)
    omega
  · obtain heq | ⟨hge, hin⟩ := hlow
    · exact .inl (by omega)
    · refine .inr ⟨by omega, ?_⟩
      rw [← htargets] at hin
      obtain ⟨m, hm, hmlow⟩ := List.mem_map.mp hin
      obtain ⟨lb, hlb, hget⟩ := List.mem_take_iff_getElem.mp hm
      have hbounds := tableMapping_bounds ni data lb
      rw [List.getD_eq_getElem _ _ (by omega), hget] at hbounds
      have hvalue := toU32_eq hbounds.1 hbounds.2
      refine ⟨lb, by omega, ?_⟩
      rw [List.getD_eq_getElem _ _ (by omega), hget]
      omega

/-- The instance with the parts replaced that loading a table changes. -/
def Ni.withLoad (ni : Ni) (states : List BlockState) (changed : ℕ) (cache : Bytes)
    (table : InfoTableHeader) (mapping : List ℤ) : Ni :=
  { ni with
    blockState := states
    blockStateChanged := changed
    infoTableCache := cache
    infoTable := table
    blockMapping := mapping }

/-- A block was looked at, and nothing taken over. -/
def Probed (s s' : Sys) : Prop :=
  s'.chip.pages = s.chip.pages ∧ ∃ states changed cache,
    s'.ni = s.ni.withLoad states changed cache s.ni.infoTable s.ni.blockMapping

variable (g) in
/-- The table at a block was taken over. -/
def Adopted (ba : ℕ) (s s' : Sys) : Prop :=
  s'.chip.pages = s.chip.pages ∧ ∃ changed cache,
    s'.ni = s.ni.withLoad (tableStates s.ni (tableAt g s.ni s.chip ba)) changed cache
      (.ofBytes (tableAt g s.ni s.chip ba)) (tableMapping s.ni (tableAt g s.ni s.chip ba))

variable (g) in
/-- What is found out about a table on the chip. -/
structure Found (ni : Ni) (c : Chip) (ba : ℕ) (l : Loaded) : Prop where
  holds : HoldsTable g ni c ba
  stop : l.stop = ba + size2blk g ni.infoTableSize
  count : l.writeCount = (InfoTableHeader.ofBytes (tableAt g ni c ba)).writeCount
  fits : Fits (targetAt g ni c ba) ni.dataBlockCount l.stop ni.signatureBa l.top

/-- The sizes and boundaries of an instance that loads tables. -/
structure Searching (ni : Ni) : Prop where
  size_pos : 0 < ni.infoTableSize
  signature_pos : 0 < ni.signatureBa
  signature_lt : ni.signatureBa < ni.blockCount
  blocks_lt : ni.blockCount < 65536
  count_le : ni.dataBlockCount ≤ ni.blockCount

theorem Probed.refl (s : Sys) : Probed s s := ⟨rfl, _, _, _, rfl⟩

theorem Probed.trans {s'' : Sys} (h : Probed s s') (h' : Probed s' s'') : Probed s s'' := by
  obtain ⟨hpages, states, changed, cache, hni⟩ := h
  obtain ⟨hpages', states', changed', cache', hni'⟩ := h'
  refine ⟨hpages'.trans hpages, states', changed', cache', ?_⟩
  rw [hni', hni]
  rfl

theorem Searching.probed (h : Searching s.ni) (hprobed : Probed s s') : Searching s'.ni := by
  obtain ⟨-, states, changed, cache, hni⟩ := hprobed
  rw [hni]
  exact ⟨h.size_pos, h.signature_pos, h.signature_lt, h.blocks_lt, h.count_le⟩

/-- A table that was read is refused, taken over, or older than the one there is. -/
theorem acceptTable_cases {loaded : Bool} {start stop : ℕ} {o : Option Loaded} {ni' : Ni}
    (hs : Searching ni) (hstop : 0 < stop) (h : acceptTable loaded start stop data ni = (ni', o)) :
    o = none ∧ ni' = ni ∨
    ∃ top, o = some ⟨stop, (InfoTableHeader.ofBytes data).writeCount, top⟩ ∧
      checkHeader data ni.infoTableSize = true ∧
      Fits (fun lb => (tableMapping ni data).getD lb (-1)) ni.dataBlockCount stop ni.signatureBa
        top ∧
      (ni' = ni.adopt data ∧ (loaded = true →
          ni.infoTable.writeCount < (InfoTableHeader.ofBytes data).writeCount) ∨
        ni' = ni ∧ loaded = true ∧
          (InfoTableHeader.ofBytes data).writeCount ≤ ni.infoTable.writeCount) := by
  unfold acceptTable at h
  by_cases hheader : checkHeader data ni.infoTableSize = true
  · rw [if_neg (by simp [hheader])] at h
    split at h
    next =>
      obtain ⟨rfl, rfl⟩ := Prod.mk.inj h
      exact .inl ⟨rfl, rfl⟩
    next top hcheck =>
      obtain ⟨rfl, rfl⟩ := Prod.mk.inj h
      refine .inr ⟨top, rfl, hheader, checkInfoTable_fits (hs.signature_lt.trans hs.blocks_lt)
        hs.signature_pos hstop hs.count_le hcheck, ?_⟩
      split_ifs with hadopt
      · exact .inl ⟨rfl, fun hloaded => by simpa [hloaded] using hadopt⟩
      · exact .inr ⟨rfl, by simpa using hadopt⟩
  · rw [if_pos (by simp [hheader])] at h
    obtain ⟨rfl, rfl⟩ := Prod.mk.inj h
    exact .inl ⟨rfl, rfl⟩

theorem tryLoadInfoTable_cases {loaded : Bool} {o : Option Loaded} (hs : Searching s.ni)
    (h : tryLoadInfoTable g flt ba loaded s = (s', o)) :
    o = none ∧ Probed s s' ∨ ∃ l, o = some l ∧ Found g s.ni s.chip ba l ∧
      (Adopted g ba s s' ∧ (loaded = true → s.ni.infoTable.writeCount < l.writeCount) ∨
        Probed s s' ∧ loaded = true ∧ l.writeCount ≤ s.ni.infoTable.writeCount) := by
  obtain ⟨n, hn, hlo, hhi⟩ := @size2blk_eq g _ hs.size_pos
  obtain ⟨⟨states, changed, hni⟩, hpages⟩ := @tryLoadLoop_same g flt
    (size2blk g s.ni.infoTableSize) ba none s.ni.infoTableSize [] s
  unfold tryLoadInfoTable at h
  dsimp only at h
  split at h
  next hnone =>
    obtain ⟨rfl, rfl⟩ := Prod.mk.inj h
    exact .inl ⟨rfl, hpages, states, changed, s.ni.infoTableCache, hni⟩
  next stop start remain data hsome =>
    rw [hni] at h
    have hprobed : Probed s ⟨(s.ni.withStates states changed).cacheRead data, _⟩ :=
      ⟨hpages, states, changed, _, rfl⟩
    split_ifs at h with hremain
    · obtain ⟨rfl, rfl⟩ := Prod.mk.inj h
      exact .inl ⟨rfl, hprobed⟩
    · -- all of the table was read, so it lies in adjacent blocks
      obtain rfl : remain = 0 := not_not.mp hremain
      rw [hn] at hsome
      obtain ⟨rfl, rfl, rfl, hfirst⟩ := tryLoadLoop_full hlo hhi hsome
      have hdata : [] ++ tableData g s.chip (n + 1) ba s.ni.infoTableSize =
          tableAt g s.ni s.chip ba := by
        rw [tableAt, hn, List.nil_append]
      rw [hdata] at h hprobed
      generalize haccept : acceptTable loaded _ _ _ _ = a at h
      obtain ⟨ni, o⟩ := a
      obtain ⟨rfl, rfl⟩ := Prod.mk.inj h
      obtain ⟨rfl, rfl⟩ | ⟨top, hsome', hheader, hfits, hchoice⟩ :=
        acceptTable_cases (hs.probed hprobed) (show 0 < ba + (n + 1) by omega) haccept
      · exact .inl ⟨rfl, hprobed⟩
      · have hfound : Found g s.ni s.chip ba ⟨ba + (n + 1),
            (InfoTableHeader.ofBytes (tableAt g s.ni s.chip ba)).writeCount, top⟩ :=
          ⟨⟨hfirst rfl, hheader⟩, by rw [hn], rfl, hfits⟩
        refine .inr ⟨_, hsome', hfound, ?_⟩
        obtain ⟨rfl, hnewer⟩ | ⟨rfl, hloaded, holder⟩ := hchoice
        · exact .inl ⟨⟨hpages, changed, _, rfl⟩, hnewer⟩
        · exact .inr ⟨hprobed, hloaded, holder⟩

theorem Found.congr {ni' : Ni} {l : Loaded} (hfound : Found g ni c ba l)
    (h : ni'.sizes = ni.sizes) (hcount : ni'.dataBlockCount = ni.dataBlockCount)
    (hpages : c'.pages = c.pages) : Found g ni' c' ba l := by
  have hsize : ni'.infoTableSize = ni.infoTableSize := congrArg Sizes.infoTableSize h
  have hsig : ni'.signatureBa = ni.signatureBa := congrArg Sizes.signatureBa h
  refine ⟨(holdsTable_congr h hpages ba).mpr hfound.holds, ?_, ?_, ?_⟩
  · rw [hfound.stop, hsize]
  · rw [hfound.count, tableAt_congr h hpages]
  · rw [show targetAt g ni' c' ba = targetAt g ni c ba from funext (targetAt_congr h hpages ba),
      hcount, hsig]
    exact hfound.fits

theorem Probed.sizes (h : Probed s s') : s'.ni.sizes = s.ni.sizes := by
  obtain ⟨-, states, changed, cache, hni⟩ := h
  rw [hni]
  rfl

theorem Probed.found {l : Loaded} (h : Probed s s') (hfound : Found g s'.ni s'.chip ba l) :
    Found g s.ni s.chip ba l := by
  apply hfound.congr h.sizes.symm _ h.1.symm
  obtain ⟨-, states, changed, cache, hni⟩ := h
  rw [hni]
  rfl

theorem Probed.adopted {s'' : Sys} (h : Probed s s') (hadopted : Adopted g ba s' s'') :
    Adopted g ba s s'' := by
  obtain ⟨hpages', changed', cache', hni'⟩ := hadopted
  rw [tableAt_congr h.sizes h.1] at hni'
  obtain ⟨hpages, states, changed, cache, hni⟩ := h
  refine ⟨hpages'.trans hpages, changed', cache', ?_⟩
  rw [hni', hni]
  rfl

/-- A search ends without a table, or at the first one that is accepted. -/
theorem searchLoop_cases {loaded : Bool} {o : Option (ℕ × Loaded)} (hs : Searching s.ni)
    (h : searchLoop g flt loaded n ba s = (s', o)) :
    o = none ∧ Probed s s' ∨ ∃ ba' l, o = some (ba', l) ∧ ba ≤ ba' ∧ ba' < ba + n ∧
      Found g s.ni s.chip ba' l ∧
      (Adopted g ba' s s' ∧ (loaded = true → s.ni.infoTable.writeCount < l.writeCount) ∨
        Probed s s' ∧ loaded = true ∧ l.writeCount ≤ s.ni.infoTable.writeCount) := by
  induction n generalizing ba s with
  | zero =>
    obtain ⟨rfl, rfl⟩ := Prod.mk.inj h
    exact .inl ⟨rfl, .refl s⟩
  | succ n ih =>
    unfold searchLoop at h
    dsimp only at h
    generalize htry : tryLoadInfoTable g flt ba loaded s = t at h
    obtain ⟨t, o'⟩ := t
    obtain ⟨rfl, hprobed⟩ | ⟨l, rfl, hfound, hchoice⟩ := tryLoadInfoTable_cases hs htry
    · obtain ⟨rfl, hprobed'⟩ | ⟨ba', l, rfl, hlo, hhi, hfound, hchoice⟩ :=
        ih (hs.probed hprobed) h
      · exact .inl ⟨rfl, hprobed.trans hprobed'⟩
      · have hcount : t.ni.infoTable.writeCount = s.ni.infoTable.writeCount := by
          obtain ⟨-, states, changed, cache, hni⟩ := hprobed
          rw [hni]
          rfl
        rw [hcount] at hchoice
        exact .inr ⟨ba', l, rfl, by omega, by omega, hprobed.found hfound,
          hchoice.imp (And.imp_left hprobed.adopted) (And.imp_left hprobed.trans)⟩
    · obtain ⟨rfl, rfl⟩ := Prod.mk.inj h
      exact .inr ⟨ba, l, rfl, le_refl ba, by omega, hfound, hchoice⟩

/-- The tables that were found, one behind the other. -/
structure Located (ni : Ni) (main : Loaded) (backup : Option Loaded) : Prop where
  main_ge : ni.mgmtStartBa ≤ ni.mainTableBa
  main_lt : ni.mainTableBa < main.stop
  mainBlocks : ∀ b ∈ ni.mainBlocks, ni.mainTableBa ≤ b ∧ b < main.stop
  single : backup = none → ni.backupTableBa = 0 ∧ ni.backupBlocks = []
  both : ∀ b, backup = some b → main.stop ≤ ni.backupTableBa ∧ ni.backupTableBa < b.stop ∧
    ∀ blk ∈ ni.backupBlocks, ni.backupTableBa ≤ blk ∧ blk < b.stop

/-- The end of the tables that were found. -/
def lastStop (main : Loaded) (backup : Option Loaded) : ℕ := (backup.map Loaded.stop).getD main.stop

/-- The boundary of the free spare blocks by the newer table. -/
def newerTop (main : Loaded) : Option Loaded → ℕ
  | none => main.top
  | some b => if b.writeCount ≤ main.writeCount then main.top else b.top

variable {main : Loaded} {backup : Option Loaded}

@[simp] theorem settle_mappingBlocksBa (ni : Ni) :
    (ni.settle main backup).mappingBlocksBa = lastStop main backup := by
  cases backup <;> rfl

@[simp] theorem settle_mappingBlocksTopBa (ni : Ni) :
    (ni.settle main backup).mappingBlocksTopBa = newerTop main backup := by
  cases backup <;> rfl

section Settle

variable (ni : Ni)

@[simp] theorem settle_mgmtStartBa : (ni.settle main backup).mgmtStartBa = ni.mgmtStartBa := by
  cases backup <;> rfl

@[simp] theorem settle_signatureBa : (ni.settle main backup).signatureBa = ni.signatureBa := by
  cases backup <;> rfl

@[simp] theorem settle_blockCount : (ni.settle main backup).blockCount = ni.blockCount := by
  cases backup <;> rfl

@[simp] theorem settle_mainTableBa : (ni.settle main backup).mainTableBa = ni.mainTableBa := by
  cases backup <;> rfl

@[simp] theorem settle_mainBlocks : (ni.settle main backup).mainBlocks = ni.mainBlocks := by
  cases backup <;> rfl

@[simp] theorem settle_backupTableBa : (ni.settle main backup).backupTableBa = ni.backupTableBa := by
  cases backup <;> rfl

@[simp] theorem settle_backupBlocks : (ni.settle main backup).backupBlocks = ni.backupBlocks := by
  cases backup <;> rfl

@[simp] theorem settle_blockMapping : (ni.settle main backup).blockMapping = ni.blockMapping := by
  cases backup <;> rfl

@[simp] theorem settle_mapping (lb : ℕ) : (ni.settle main backup).mapping lb = ni.mapping lb := by
  cases backup <;> rfl

theorem settle_cache_ne_nil : (ni.settle main backup).infoTableCache ≠ [] := by
  cases backup <;> exact generateInfoTableCache_ne_nil _

theorem countMapped_le {m dflt : ℕ} (h : dflt ≤ m) (n : ℕ) (hn : n ≤ m) :
    countMapped ni n dflt ≤ m := by
  induction n with
  | zero => exact h
  | succ n ih =>
    unfold countMapped
    split_ifs
    · exact hn
    · exact ih (by omega)

theorem settle_dataBlockCount_le (hcount : ni.dataBlockCount ≤ ni.signature.mgmtStartPb) :
    (ni.settle main backup).dataBlockCount ≤ ni.signature.mgmtStartPb := by
  cases backup <;> exact countMapped_le _ hcount _ (le_refl _)

end Settle

theorem settle_area (hsig : ni.signatureBa < ni.blockCount)
    (hmgmt : ni.mgmtStartBa ≤ newerTop main backup)
    (htop : newerTop main backup < ni.signatureBa) : Area (ni.settle main backup) := by
  refine ⟨settle_cache_ne_nil ni, ?_, ?_, ?_⟩
  · rwa [settle_mgmtStartBa, settle_mappingBlocksTopBa]
  · rwa [settle_mappingBlocksTopBa, settle_signatureBa]
  · rwa [settle_signatureBa, settle_blockCount]

/-- The boundaries that the tables give are a layout. -/
theorem Located.layout (h : Located ni main backup) (hsig : ni.signatureBa < ni.blockCount)
    (hstop : lastStop main backup ≤ newerTop main backup)
    (htop : newerTop main backup < ni.signatureBa) : Layout (ni.settle main backup) := by
  have hge := h.main_ge
  have hlt := h.main_lt
  cases backup with
  | none =>
    obtain ⟨hzero, hnil⟩ := h.single rfl
    have hstop' : main.stop ≤ newerTop main none := hstop
    have hlimit : (ni.settle main none).mainLimit = main.stop := if_pos hzero
    refine ⟨settle_area hsig (by omega) htop, ?_, ?_, .inr ?_, fun b hb => ?_, .inl hzero,
      fun b hb => ?_⟩
    · rw [settle_mgmtStartBa, settle_mappingBlocksBa]
      exact hge.trans hlt.le
    · rwa [settle_mappingBlocksBa, settle_mappingBlocksTopBa]
    · rw [hlimit, settle_mgmtStartBa, settle_mainTableBa]
      exact ⟨hge, hlt.le⟩
    · rw [settle_mainBlocks] at hb
      have hblock := h.mainBlocks b hb
      rw [hlimit, settle_mgmtStartBa, settle_mainTableBa]
      exact ⟨hge.trans hblock.1, hblock⟩
    · rw [settle_backupBlocks, hnil] at hb
      exact absurd hb List.not_mem_nil
  | some b =>
    obtain ⟨hbehind, hblt, hblocks⟩ := h.both b rfl
    have hstop' : b.stop ≤ newerTop main (some b) := hstop
    have hsome : ni.backupTableBa ≠ 0 := by omega
    have hlimit : (ni.settle main (some b)).mainLimit = ni.backupTableBa := if_neg hsome
    refine ⟨settle_area hsig (by omega) htop, ?_, ?_, .inr ?_, fun blk hblk => ?_, .inr ?_,
      fun blk hblk => ?_⟩
    · rw [settle_mgmtStartBa, settle_mappingBlocksBa]
      change ni.mgmtStartBa ≤ b.stop
      omega
    · rwa [settle_mappingBlocksBa, settle_mappingBlocksTopBa]
    · rw [hlimit, settle_mgmtStartBa, settle_mainTableBa]
      omega
    · rw [settle_mainBlocks] at hblk
      have hblock := h.mainBlocks blk hblk
      rw [hlimit, settle_mgmtStartBa, settle_mainTableBa]
      omega
    · rw [settle_mgmtStartBa, settle_backupTableBa, settle_mappingBlocksBa]
      change ni.mgmtStartBa ≤ ni.backupTableBa ∧ ni.backupTableBa ≤ b.stop
      omega
    · rw [settle_backupBlocks] at hblk
      rw [settle_backupTableBa, settle_mappingBlocksBa]
      exact ⟨hsome, hblocks blk hblk⟩

variable (g) in
/-- A place where the search can accept a table. -/
def Candidate (ni : Ni) (c : Chip) (ba : ℕ) : Prop :=
  ni.mgmtStartBa ≤ ba ∧ ba + size2blk g ni.infoTableSize < ni.signatureBa ∧ HoldsTable g ni c ba

variable (g) in
/-- The tables on the chip have distinct targets, which lie below the management area or
above all of them, and a table is not larger than the chip up to the signature. -/
structure TablesOk (ni : Ni) (c : Chip) : Prop where
  room : size2blk g ni.infoTableSize ≤ ni.signatureBa
  injective : ∀ ba, Candidate g ni c ba → ∀ lb < ni.mgmtStartBa, ∀ lb' < ni.mgmtStartBa,
    0 ≤ targetAt g ni c ba lb → targetAt g ni c ba lb = targetAt g ni c ba lb' → lb = lb'
  apart : ∀ ba ba', Candidate g ni c ba → Candidate g ni c ba' → ∀ lb < ni.mgmtStartBa,
    0 ≤ targetAt g ni c ba lb → targetAt g ni c ba lb < ni.mgmtStartBa ∨
      (ba' + size2blk g ni.infoTableSize : ℕ) < targetAt g ni c ba lb

theorem Candidate.congr {ni' : Ni} (hba : Candidate g ni c ba) (h : ni'.sizes = ni.sizes)
    (hpages : c'.pages = c.pages) : Candidate g ni' c' ba := by
  refine ⟨?_, ?_, (holdsTable_congr h hpages ba).mpr hba.2.2⟩
  · rw [show ni'.mgmtStartBa = ni.mgmtStartBa from congrArg Sizes.mgmtStartBa h]
    exact hba.1
  · rw [show ni'.infoTableSize = ni.infoTableSize from congrArg Sizes.infoTableSize h,
      show ni'.signatureBa = ni.signatureBa from congrArg Sizes.signatureBa h]
    exact hba.2.1

theorem TablesOk.congr {ni' : Ni} (htables : TablesOk g ni c) (h : ni'.sizes = ni.sizes)
    (hpages : c'.pages = c.pages) : TablesOk g ni' c' := by
  have hsize : ni'.infoTableSize = ni.infoTableSize := congrArg Sizes.infoTableSize h
  have hmgmt : ni'.mgmtStartBa = ni.mgmtStartBa := congrArg Sizes.mgmtStartBa h
  have hback : ∀ ba, Candidate g ni' c' ba → Candidate g ni c ba :=
    fun ba hba => hba.congr h.symm hpages.symm
  constructor
  · rw [hsize, show ni'.signatureBa = ni.signatureBa from congrArg Sizes.signatureBa h]
    exact htables.room
  · intro ba hba lb hlb lb' hlb'
    rw [hmgmt] at hlb hlb'
    rw [targetAt_congr h hpages, targetAt_congr h hpages]
    exact htables.injective ba (hback ba hba) lb hlb lb' hlb'
  · intro ba ba' hba hba' lb hlb
    rw [hmgmt] at hlb
    rw [targetAt_congr h hpages, hmgmt, hsize]
    exact htables.apart ba ba' (hback ba hba) (hback ba' hba') lb hlb

section Found

variable {l : Loaded} {ba' : ℕ}

/-- The free spare blocks by one table end behind every other one. -/
theorem Found.stop_le_top (h : Found g ni c ba l) (htables : TablesOk g ni c)
    (hcount : ni.dataBlockCount = ni.mgmtStartBa) (hba : Candidate g ni c ba)
    (hba' : Candidate g ni c ba') : ba' + size2blk g ni.infoTableSize ≤ l.top := by
  have hlt := hba'.2.1
  obtain heq | ⟨hstop, lb, hlb, heq⟩ := h.fits.top_eq
  · omega
  · rw [hcount] at hlb
    have hapart := htables.apart ba ba' hba hba' lb hlb (by omega)
    have hge := hba.1
    rw [h.stop] at hstop
    omega

/-- The targets of a table lie below the management area or above the free spare blocks. -/
theorem Found.target (h : Found g ni c ba l) (htables : TablesOk g ni c)
    (hcount : ni.dataBlockCount = ni.mgmtStartBa) (hba : Candidate g ni c ba) {lb : ℕ}
    (hlb : lb < ni.mgmtStartBa) (hpos : 0 ≤ targetAt g ni c ba lb) :
    targetAt g ni c ba lb < ni.mgmtStartBa ∨ (l.top : ℤ) < targetAt g ni c ba lb ∧
      targetAt g ni c ba lb ≠ ni.signatureBa := by
  obtain hlow | hhigh := htables.apart ba ba hba hba lb hlb hpos
  · exact .inl hlow
  · rw [← h.stop] at hhigh
    rw [← hcount] at hlb
    exact .inr ⟨h.fits.above lb hlb (Int.le_of_lt hhigh), h.fits.ne_sig lb hlb⟩

end Found

variable (g) in
/-- The instance took over the table at a block, whose boundary is the one of the newer
table. -/
structure Chosen (ni : Ni) (c : Chip) (main : Loaded) (backup : Option Loaded) (ba : ℕ) : Prop where
  mapping : ni.blockMapping = tableMapping ni (tableAt g ni c ba)
  candidate : Candidate g ni c ba
  found : ∃ l, Found g ni c ba l ∧ newerTop main backup = l.top

/-- An instance that took over one of the tables is settled. -/
theorem Located.settled (h : Located ni main backup) (htables : TablesOk g ni c)
    (hchosen : Chosen g ni c main backup ba) (hsig : ni.signatureBa < ni.blockCount)
    (hcount : ni.dataBlockCount = ni.mgmtStartBa)
    (hpb : ni.signature.mgmtStartPb = ni.mgmtStartBa)
    (hstop : ∃ ba', Candidate g ni c ba' ∧
      lastStop main backup = ba' + size2blk g ni.infoTableSize) :
    Settled (ni.settle main backup) := by
  obtain ⟨l, hfound, htop⟩ := hchosen.found
  obtain ⟨ba', hba', hlast⟩ := hstop
  have hmapping : ∀ lb, ni.mapping lb = targetAt g ni c ba lb := fun lb => by
    rw [Ni.mapping, hchosen.mapping, targetAt]
  have hle : ni.mgmtStartBa ≤ ni.blockMapping.length := by
    have hba := hchosen.candidate
    have hroom : ni.mgmtStartBa < ni.signatureBa :=
      hba.1.trans_lt ((Nat.le_add_right ba _).trans_lt hba.2.1)
    rw [hchosen.mapping, show (tableMapping ni (tableAt g ni c ba)).length = ni.blockCount by
      simp [tableMapping, unpackMapping]]
    omega
  have hdata : (ni.settle main backup).dataBlockCount ≤ ni.mgmtStartBa :=
    hpb ▸ settle_dataBlockCount_le ni (by rw [hcount, hpb])
  refine ⟨h.layout hsig ?_ ?_, ?_, ?_, fun lb hlb hpos => ?_, fun lb hlb lb' hlb' hpos heq => ?_⟩
  · rw [hlast, htop]
    exact hfound.stop_le_top htables hcount hchosen.candidate hba'
  · rw [htop]
    exact hfound.fits.top_lt
  · rwa [settle_mgmtStartBa]
  · rwa [settle_mgmtStartBa, settle_blockMapping]
  · rw [settle_mapping, hmapping] at hpos ⊢
    rw [settle_mgmtStartBa, settle_mappingBlocksTopBa, settle_signatureBa, htop]
    exact hfound.target htables hcount hchosen.candidate (hlb.trans_le hdata) hpos
  · rw [settle_mapping, hmapping] at hpos heq
    rw [settle_mapping, hmapping] at heq
    exact htables.injective ba hchosen.candidate lb (hlb.trans_le hdata) lb'
      (hlb'.trans_le hdata) hpos heq

theorem Settled.markTablesChanged (h : Settled ni) : Settled ni.markTablesChanged :=
  ⟨⟨⟨h.layout.cache, h.layout.mgmt_le_top, h.layout.top_lt, h.layout.signature_lt⟩,
    h.layout.mgmt_le, h.layout.le_top, h.layout.main, h.layout.mainBlocks, h.layout.backup,
    h.layout.backupBlocks⟩, h.mapped.of_fixed rfl⟩

theorem Settled.protectIf (h : Settled ni) (b : Bool) : Settled (ni.protectIf b) :=
  ⟨h.layout.protect _, h.mapped.of_fixed (fixed_protect ni _)⟩

theorem repairTables_settled (h : Located ni main backup) (hs : Settled (ni.settle main backup))
    (c : Chip) :
    Settled (repairTables g flt main backup ⟨ni.settle main backup, c⟩).1.ni := by
  unfold repairTables
  cases backup with
  | none =>
    have hzero : (ni.settle main none).backupTableBa = 0 := (h.single rfl).1
    have hpos : 0 < (ni.settle main none).mappingBlocksBa := by
      rw [settle_mappingBlocksBa]
      exact Nat.zero_lt_of_lt h.main_lt
    exact (rescueSingleInfoTable_updated g flt hs.layout hzero hpos).settled hs
  | some b =>
    dsimp only
    split_ifs
    · obtain ⟨hbehind, -, -⟩ := h.both b rfl
      have hlt := h.main_lt
      have hmain : (ni.settle main (some b)).mgmtStartBa ≤ (ni.settle main (some b)).mainTableBa := by
        rw [settle_mgmtStartBa, settle_mainTableBa]
        exact h.main_ge
      have hsome : (ni.settle main (some b)).backupTableBa ≠ 0 := by
        rw [settle_backupTableBa]
        omega
      have hchanged := hs.markTablesChanged
      exact (updateSingleInfoTable_updated g flt hchanged.layout hmain hsome).settled hchanged
    · exact hs

/-- The search for a table, in terms of the places it can be accepted at. -/
theorem searchInfoTable_cases {loaded : Bool} {o : Option (ℕ × Loaded)} (hs : Searching s.ni)
    (hroom : size2blk g s.ni.infoTableSize ≤ s.ni.signatureBa) (hba : s.ni.mgmtStartBa ≤ ba)
    (h : searchInfoTable g flt ba s.ni.signatureBa loaded s = (s', o)) :
    o = none ∧ Probed s s' ∨ ∃ ba' l, o = some (ba', l) ∧ ba ≤ ba' ∧
      Candidate g s.ni s.chip ba' ∧ Found g s.ni s.chip ba' l ∧
      (Adopted g ba' s s' ∧ (loaded = true → s.ni.infoTable.writeCount < l.writeCount) ∨
        Probed s s' ∧ loaded = true ∧ l.writeCount ≤ s.ni.infoTable.writeCount) := by
  have hsig := hs.signature_lt
  have hblocks := hs.blocks_lt
  have hlimit := u32Sub_of_le hroom
  unfold searchInfoTable at h
  rw [hlimit] at h
  refine (searchLoop_cases hs h).imp_right ?_
  rintro ⟨ba', l, ho, hlo, hhi, hfound, hchoice⟩
  exact ⟨ba', l, ho, hlo, ⟨hba.trans hlo, by omega, hfound.holds⟩, hfound, hchoice⟩

variable (g) in
/-- The instance after the first search, with the table it found as its main table. -/
structure MainLoaded (ni : Ni) (c : Chip) (mainBa : ℕ) (main : Loaded) : Prop where
  searching : Searching ni
  tables : TablesOk g ni c
  count_eq : ni.dataBlockCount = ni.mgmtStartBa
  mgmtStartPb : ni.signature.mgmtStartPb = ni.mgmtStartBa
  candidate : Candidate g ni c mainBa
  found : Found g ni c mainBa main
  mapping : ni.blockMapping = tableMapping ni (tableAt g ni c mainBa)
  writeCount : ni.infoTable.writeCount = main.writeCount
  mainTableBa : ni.mainTableBa = mainBa
  mainBlocks : ni.mainBlocks = (main.placed mainBa).blocks
  single : ni.backupTableBa = 0 ∧ ni.backupBlocks = []

theorem Loaded.mem_placed {l : Loaded} {b : ℕ} (h : b ∈ (l.placed ba).blocks) (hlt : ba < l.stop) :
    ba ≤ b ∧ b < l.stop := by
  have hmem := List.mem_range'_1.mp h
  omega

theorem Found.lt_stop {l : Loaded} (h : Found g ni c ba l) (hsize : 0 < ni.infoTableSize) :
    ba < l.stop := by
  obtain ⟨n, hn, -, -⟩ := @size2blk_eq g _ hsize
  rw [h.stop, hn]
  omega

theorem MainLoaded.located {mainBa : ℕ} (h : MainLoaded g ni c mainBa main) :
    Located ni main none := by
  have hlt := h.found.lt_stop h.searching.size_pos
  refine ⟨?_, ?_, fun b hb => ?_, fun _ => h.single, by simp⟩
  · rw [h.mainTableBa]
    exact h.candidate.1
  · rwa [h.mainTableBa]
  · rw [h.mainBlocks] at hb
    rw [h.mainTableBa]
    exact Loaded.mem_placed hb hlt

/-- Without a second table, the first one is taken. -/
theorem MainLoaded.settled_single {mainBa : ℕ} (h : MainLoaded g ni c mainBa main) :
    Settled (ni.settle main none) :=
  h.located.settled h.tables ⟨h.mapping, h.candidate, main, h.found, rfl⟩ h.searching.signature_lt
    h.count_eq h.mgmtStartPb ⟨mainBa, h.candidate, h.found.stop⟩

theorem MainLoaded.probed {mainBa : ℕ} (h : MainLoaded g s.ni s.chip mainBa main)
    (hprobed : Probed s s') : MainLoaded g s'.ni s'.chip mainBa main := by
  have hsizes := hprobed.sizes
  have hsearching := h.searching.probed hprobed
  obtain ⟨hpages, states, changed, cache, hni⟩ := hprobed
  have hcount : s'.ni.dataBlockCount = s.ni.dataBlockCount := by
    rw [hni]
    rfl
  have htable : tableMapping s'.ni (tableAt g s'.ni s'.chip mainBa) =
      tableMapping s.ni (tableAt g s.ni s.chip mainBa) := by
    rw [tableMapping_congr hsizes, tableAt_congr hsizes hpages]
  refine ⟨hsearching, h.tables.congr hsizes hpages, ?_, ?_, h.candidate.congr hsizes hpages,
    h.found.congr hsizes hcount hpages, ?_, ?_, ?_, ?_, ?_⟩
  · rw [hni]
    exact h.count_eq
  · rw [hni]
    exact h.mgmtStartPb
  · rw [htable, hni]
    exact h.mapping
  all_goals rw [hni]
  · exact h.writeCount
  · exact h.mainTableBa
  · exact h.mainBlocks
  · exact h.single

section Both

variable {mainBa backupBa : ℕ} {l : Loaded} (states : List BlockState) (changed : ℕ)
  (cache : Bytes) (table : InfoTableHeader) (mapping : List ℤ)

theorem MainLoaded.located_both (h : MainLoaded g ni c mainBa main) (hbehind : main.stop ≤ backupBa)
    (hfound : Found g ni c backupBa l) :
    Located ((ni.withLoad states changed cache table mapping).placeBackup (l.placed backupBa)) main
      (some l) := by
  have hmain := h.located
  have hlt := hfound.lt_stop h.searching.size_pos
  refine ⟨hmain.main_ge, hmain.main_lt, hmain.mainBlocks, by simp, fun b hb => ?_⟩
  obtain rfl := Option.some_inj.mp hb
  exact ⟨hbehind, hlt, fun blk hblk => Loaded.mem_placed hblk hlt⟩

/-- With a second table, the newer one is taken. -/
theorem MainLoaded.settled_both {chosenBa : ℕ} (h : MainLoaded g ni c mainBa main)
    (hbehind : main.stop ≤ backupBa) (hcandidate : Candidate g ni c backupBa)
    (hfound : Found g ni c backupBa l)
    (hmapping : mapping = tableMapping ni (tableAt g ni c chosenBa))
    (hchosen : chosenBa = mainBa ∧ l.writeCount ≤ main.writeCount ∨
      chosenBa = backupBa ∧ main.writeCount < l.writeCount) :
    Settled (((ni.withLoad states changed cache table mapping).placeBackup
      (l.placed backupBa)).settle main (some l)) := by
  have hlocated := h.located_both states changed cache table mapping hbehind hfound
  generalize hni : (ni.withLoad states changed cache table mapping).placeBackup
    (l.placed backupBa) = ni' at hlocated ⊢
  have hsizes : ni'.sizes = ni.sizes := hni ▸ rfl
  have hcount : ni'.dataBlockCount = ni.dataBlockCount := hni ▸ rfl
  have hmgmt : ni'.mgmtStartBa = ni.mgmtStartBa := hni ▸ rfl
  have hsig : ni'.signatureBa < ni'.blockCount := hni ▸ h.searching.signature_lt
  have hpb : ni'.signature.mgmtStartPb = ni'.mgmtStartBa := hni ▸ h.mgmtStartPb
  have htable : ni'.blockMapping = tableMapping ni' (tableAt g ni' c chosenBa) := by
    rw [tableMapping_congr hsizes, tableAt_congr hsizes rfl, ← hmapping, ← hni]
    rfl
  have hbackup := hfound.congr hsizes hcount rfl
  have hchosen' : Chosen g ni' c main (some l) chosenBa := by
    obtain ⟨rfl, hle⟩ | ⟨rfl, hlt⟩ := hchosen
    · exact ⟨htable, h.candidate.congr hsizes rfl, main, h.found.congr hsizes hcount rfl, if_pos hle⟩
    · exact ⟨htable, hcandidate.congr hsizes rfl, l, hbackup, if_neg (Nat.not_le_of_lt hlt)⟩
  exact hlocated.settled (h.tables.congr hsizes rfl) hchosen' hsig
    (hcount.trans (h.count_eq.trans hmgmt.symm)) hpb
    ⟨backupBa, hcandidate.congr hsizes rfl, hbackup.stop⟩

theorem MainLoaded.finish_both {chosenBa : ℕ} (h : MainLoaded g ni c mainBa main)
    (hbehind : main.stop ≤ backupBa) (hcandidate : Candidate g ni c backupBa)
    (hfound : Found g ni c backupBa l)
    (hni : s.ni = ni.withLoad states changed cache table mapping)
    (hmapping : mapping = tableMapping ni (tableAt g ni c chosenBa))
    (hchosen : chosenBa = mainBa ∧ l.writeCount ≤ main.writeCount ∨
      chosenBa = backupBa ∧ main.writeCount < l.writeCount) :
    Settled (finishLoad g flt main (some (backupBa, l)) s).ni := by
  have hlocated := h.located_both states changed cache table mapping hbehind hfound
  have hsettled := h.settled_both states changed cache table mapping hbehind hcandidate hfound
    hmapping hchosen
  rw [← hni] at hlocated hsettled
  exact (repairTables_settled hlocated hsettled s.chip).protectIf _

end Both

/-- The second search and the choice between the tables leave a settled instance. -/
theorem MainLoaded.finish {mainBa limit : ℕ} {o : Option (ℕ × Loaded)}
    (h : MainLoaded g s.ni s.chip mainBa main) (hlimit : limit = s.ni.signatureBa)
    (hrun : searchInfoTable g flt main.stop limit true s = (s', o)) :
    Settled (finishLoad g flt main o s').ni := by
  subst hlimit
  have hstop : s.ni.mgmtStartBa ≤ main.stop :=
    h.candidate.1.trans (h.found.lt_stop h.searching.size_pos).le
  obtain ⟨rfl, hprobed⟩ | ⟨backupBa, l, rfl, hbehind, hcandidate, hfound, hchoice⟩ :=
    searchInfoTable_cases h.searching h.tables.room hstop hrun
  · have hmain := h.probed hprobed
    exact (repairTables_settled hmain.located hmain.settled_single s'.chip).protectIf _
  · obtain ⟨⟨-, changed, cache, hni⟩, hnewer⟩ | ⟨⟨-, states, changed, cache, hni⟩, -, holder⟩ :=
      hchoice
    · rw [h.writeCount] at hnewer
      exact h.finish_both _ _ _ _ _ hbehind hcandidate hfound hni rfl (.inr ⟨rfl, hnewer rfl⟩)
    · rw [h.writeCount] at holder
      exact h.finish_both _ _ _ _ _ hbehind hcandidate hfound hni h.mapping (.inl ⟨rfl, holder⟩)

/-- A search in an empty range finds nothing. -/
theorem searchInfoTable_empty {loaded : Bool} {limit : ℕ}
    (hroom : size2blk g s.ni.infoTableSize ≤ limit)
    (hempty : limit - size2blk g s.ni.infoTableSize ≤ ba) :
    searchInfoTable g flt ba limit loaded s = (s, none) := by
  unfold searchInfoTable
  rw [u32Sub_of_le hroom, show limit - size2blk g s.ni.infoTableSize - ba = 0 by omega]
  rfl

/-- A first search that finds a table takes it over. -/
theorem beginLoad_mainLoaded {mainBa : ℕ} (hsize : 0 < s.ni.infoTableSize)
    (hsig : s.ni.signatureBa ≤ s.ni.blockCount - 1) (hblocks : s.ni.blockCount < 65536)
    (hpb : s.ni.signature.mgmtStartPb = s.ni.mgmtStartBa) (htables : TablesOk g s.ni s.chip)
    (hrun : searchInfoTable g flt s.ni.mgmtStartBa s.ni.signatureBa false
      ⟨s.ni.beginLoad, s.chip⟩ = (s', some (mainBa, main))) :
    s'.ni.signatureBa = s.ni.signatureBa ∧
      MainLoaded g (s'.ni.placeMain (main.placed mainBa)) s'.chip mainBa main := by
  have hroom := htables.room
  obtain ⟨n, hn, -, -⟩ := @size2blk_eq g _ hsize
  have hsome : s.ni.mgmtStartBa < s.ni.signatureBa - size2blk g s.ni.infoTableSize := by
    by_contra hempty
    rw [@searchInfoTable_empty g flt ⟨s.ni.beginLoad, s.chip⟩ s.ni.mgmtStartBa false
      s.ni.signatureBa hroom (Nat.le_of_not_lt hempty)] at hrun
    simp at hrun
  have hsearching : Searching s.ni.beginLoad := by
    refine ⟨hsize, ?_, ?_, hblocks, ?_⟩
    · change 0 < s.ni.signatureBa
      omega
    · change s.ni.signatureBa < s.ni.blockCount
      omega
    · change s.ni.signature.mgmtStartPb ≤ s.ni.blockCount
      omega
  obtain ⟨hnone, -⟩ | ⟨ba, l, heq, hge, hcandidate, hfound, hchoice⟩ :=
    @searchInfoTable_cases g flt ⟨s.ni.beginLoad, s.chip⟩ s' s.ni.mgmtStartBa false _ hsearching
      hroom (le_refl s.ni.mgmtStartBa) hrun
  · simp at hnone
  · obtain ⟨rfl, rfl⟩ := Prod.mk.inj (Option.some_inj.mp heq)
    obtain ⟨⟨hpages, changed, cache, hni⟩, -⟩ | ⟨-, hloaded, -⟩ := hchoice
    · refine ⟨by rw [hni]; rfl, ?_⟩
      generalize hni' : s'.ni.placeMain (main.placed mainBa) = ni'
      have hsizes : ni'.sizes = s.ni.beginLoad.sizes := by
        rw [← hni', hni]
        rfl
      have hcount : ni'.dataBlockCount = s.ni.beginLoad.dataBlockCount := by
        rw [← hni', hni]
        rfl
      have htable : tableMapping ni' (tableAt g ni' s'.chip mainBa) =
          tableMapping s.ni.beginLoad (tableAt g s.ni.beginLoad s.chip mainBa) := by
        rw [tableMapping_congr hsizes, tableAt_congr hsizes hpages]
      refine ⟨?_, htables.congr hsizes hpages, ?_, ?_, hcandidate.congr hsizes hpages,
        hfound.congr hsizes hcount hpages, ?_, ?_, ?_, ?_, ?_⟩
      · rw [← hni', hni]
        exact ⟨hsearching.size_pos, hsearching.signature_pos, hsearching.signature_lt,
          hsearching.blocks_lt, hsearching.count_le⟩
      · rw [hcount, show ni'.mgmtStartBa = s.ni.mgmtStartBa from congrArg Sizes.mgmtStartBa hsizes]
        exact hpb
      · rw [← hni', hni]
        exact hpb
      · rw [htable, ← hni', hni]
        rfl
      · rw [← hni', hni]
        exact hfound.count.symm
      · rw [← hni']
        rfl
      · rw [← hni']
        rfl
      · rw [← hni', hni]
        exact ⟨rfl, rfl⟩
    · simp at hloaded

theorem loadInfoTable_some {limit : ℕ} (h : loadInfoTable g flt ba limit s = (s', true)) :
    ∃ t mainBa main, searchInfoTable g flt ba limit false ⟨s.ni.beginLoad, s.chip⟩ =
      (t, some (mainBa, main)) ∧ s' = loadSecond g flt limit mainBa main t := by
  unfold loadInfoTable at h
  generalize searchInfoTable g flt ba limit false ⟨s.ni.beginLoad, s.chip⟩ = m at h ⊢
  obtain ⟨t, o⟩ := m
  dsimp only at h
  split at h
  · simp at h
  next mainBa main => exact ⟨t, mainBa, main, rfl, (Prod.mk.inj h).1.symm⟩

/-- An instance that loads its tables is settled. -/
theorem loadInfoTable_settled (hsize : 0 < s.ni.infoTableSize)
    (hsig : s.ni.signatureBa ≤ s.ni.blockCount - 1) (hblocks : s.ni.blockCount < 65536)
    (hpb : s.ni.signature.mgmtStartPb = s.ni.mgmtStartBa) (htables : TablesOk g s.ni s.chip)
    (hrun : loadInfoTable g flt s.ni.mgmtStartBa s.ni.signatureBa s = (s', true)) :
    Settled s'.ni := by
  obtain ⟨t, mainBa, main, hsearch, rfl⟩ := loadInfoTable_some hrun
  obtain ⟨hlimit, hmain⟩ := beginLoad_mainLoaded hsize hsig hblocks hpb htables hsearch
  have hlimit' : s.ni.signatureBa = (t.ni.placeMain (main.placed mainBa)).signatureBa :=
    hlimit.symm
  exact @MainLoaded.finish g flt ⟨_, t.chip⟩ _ main mainBa _ _ hmain hlimit' rfl

theorem findInPages_pages (ba n page : ℕ) (c : Chip) :
    (findInPages g flt ba n page c).1.pages = c.pages := by
  induction n generalizing page c with
  | zero => rfl
  | succ n ih =>
    unfold findInPages
    dsimp only
    split_ifs
    · exact readData_pages _ _ _ _
    · rw [ih, readData_pages]

/-- The search for the signature changes no contents and ends below its start. -/
theorem findLoop_spec (n ba : ℕ) (c : Chip) :
    (findLoop g flt n ba c).1.pages = c.pages ∧
      ∀ sig ba', (findLoop g flt n ba c).2 = some (sig, ba') → ba' ≤ ba - 1 := by
  induction n generalizing ba c with
  | zero => exact ⟨rfl, by simp [findLoop]⟩
  | succ n ih =>
    have hfind : (findInPages g flt (ba - 1) (pagesPerBlock g) 0
        (checkBadPhysBlock flt (ba - 1) c).1).1.pages = c.pages := by
      rw [findInPages_pages, checkBadPhysBlock_pages]
    have hskip : ∀ c' : Chip, c'.pages = c.pages →
        (findLoop g flt n (ba - 1) c').1.pages = c.pages ∧
          ∀ sig ba', (findLoop g flt n (ba - 1) c').2 = some (sig, ba') → ba' ≤ ba - 1 := by
      intro c' hc'
      obtain ⟨hpages, hle⟩ := ih (ba - 1) c'
      exact ⟨hpages.trans hc', fun sig ba' h => (hle sig ba' h).trans (by omega)⟩
    unfold findLoop
    dsimp only
    split_ifs
    · exact hskip _ (checkBadPhysBlock_pages _ _)
    · split
      · refine ⟨hfind, fun sig ba' h => ?_⟩
        exact (Prod.mk.inj (Option.some_inj.mp h)).2.ge
      · exact hskip _ hfind

variable (g flt) in
/-- The tables fit together on every chip that a signature is found on. -/
def LoadOk (cfg : Config) (chip : Chip) : Prop :=
  ∀ sig ba, (findSignature g flt ⟨initStructure g cfg, chip⟩).2 = some (sig, ba) →
    TablesOk g { initStructure g cfg with
      signature := sig, signatureBa := ba, mgmtStartBa := sig.mgmtStartPb } chip

theorem initStructure_size_pos (cfg : Config) : 0 < (initStructure g cfg).infoTableSize := by
  have hpage := g.pgSize_pos
  have halign : 0 < align infoTableHeaderSize g.pgSize := by
    refine Nat.mul_pos (Nat.div_pos ?_ hpage) hpage
    unfold infoTableHeaderSize
    omega
  change 0 < align infoTableHeaderSize g.pgSize + _ + _
  omega

theorem acceptTable_sizes (loaded : Bool) (start stop : ℕ) (data : Bytes) (ni : Ni) :
    (acceptTable loaded start stop data ni).1.sizes = ni.sizes := by
  unfold acceptTable
  split_ifs
  · rfl
  · split
    · rfl
    · dsimp only
      split_ifs <;> rfl

theorem tryLoadInfoTable_sizes (ba : ℕ) (loaded : Bool) (s : Sys) :
    (tryLoadInfoTable g flt ba loaded s).1.ni.sizes = s.ni.sizes := by
  obtain ⟨⟨states, changed, hni⟩, -⟩ := @tryLoadLoop_same g flt
    (size2blk g s.ni.infoTableSize) ba none s.ni.infoTableSize [] s
  unfold tryLoadInfoTable
  dsimp only
  split
  · rw [hni]
    rfl
  · rw [hni]
    split_ifs
    · rfl
    · exact acceptTable_sizes _ _ _ _ _

theorem searchLoop_sizes (loaded : Bool) (n ba : ℕ) (s : Sys) :
    (searchLoop g flt loaded n ba s).1.ni.sizes = s.ni.sizes := by
  induction n generalizing ba s with
  | zero => rfl
  | succ n ih =>
    have htry := @tryLoadInfoTable_sizes g flt ba loaded s
    unfold searchLoop
    dsimp only
    split
    · exact htry
    · exact (ih _ _).trans htry

/-- A failed search for a table leaves the boundaries. -/
theorem loadInfoTable_none {limit : ℕ} (h : loadInfoTable g flt ba limit s = (s', false)) :
    s'.ni.sizes = s.ni.sizes := by
  unfold loadInfoTable searchInfoTable at h
  have hsizes := @searchLoop_sizes g flt false
    (u32Sub limit (size2blk g s.ni.beginLoad.infoTableSize) - ba) ba ⟨s.ni.beginLoad, s.chip⟩
  generalize searchLoop g flt false _ ba ⟨s.ni.beginLoad, s.chip⟩ = m at h hsizes
  obtain ⟨t, o⟩ := m
  dsimp only at h
  split at h
  · obtain ⟨rfl, -⟩ := Prod.mk.inj h
    exact hsizes
  · simp at h

/-- An existing chip is loaded, or gets new tables. -/
theorem loadExisting_cases (hsize : 0 < s.ni.infoTableSize)
    (hsig : s.ni.signatureBa ≤ s.ni.blockCount - 1) (hblocks : s.ni.blockCount < 65536)
    (htables : TablesOk g { s.ni with mgmtStartBa := s.ni.signature.mgmtStartPb } s.chip) :
    (∀ t, loadExisting g flt s = .attached t → Settled t.ni) ∧
      ∀ t, loadExisting g flt s = .creating t → Built t.ni := by
  unfold loadExisting
  dsimp only
  generalize hl : loadInfoTable g flt _ _ _ = l
  obtain ⟨t, b⟩ := l
  cases b with
  | true =>
    refine ⟨fun t' ht => ?_, fun t' ht => ?_⟩
    · obtain rfl := Started.attached.inj ht
      exact @loadInfoTable_settled g flt ⟨{ s.ni with mgmtStartBa := s.ni.signature.mgmtStartPb },
        s.chip⟩ _ hsize hsig hblocks rfl htables hl
    · exact Started.noConfusion ht
  | false =>
    have hsizes := loadInfoTable_none hl
    dsimp only
    rw [if_neg Bool.false_ne_true]
    split_ifs
    · exact ⟨fun t' ht => ht.elim, fun t' ht => ht.elim⟩
    · refine ⟨fun t' ht => ht.elim, fun t' ht => ?_⟩
      obtain rfl := Started.creating.inj ht
      obtain ⟨states, changed, hni⟩ := scanBadblocks_sameButStates flt t
      apply buildMappingTable_built
      rw [hni]
      have hsig' : t.ni.signatureBa = s.ni.signatureBa := congrArg Sizes.signatureBa hsizes
      have hcount : t.ni.blockCount = s.ni.blockCount := congrArg Sizes.blockCount hsizes
      change t.ni.signatureBa ≤ t.ni.blockCount - 1
      omega

/-- Attaching to a chip ends with a settled instance, or with a built one that creates its
tables. -/
theorem attachStart_cases {cfg : Config} {chip : Chip} (hload : LoadOk g flt cfg chip) :
    (∀ s, attachStart g flt cfg chip = .attached s → Settled s.ni) ∧
      ∀ s, attachStart g flt cfg chip = .creating s → Built s.ni := by
  have hfind := @findLoop_spec g flt ((initStructure g cfg).blockCount + 1 -
    signatureLimit (initStructure g cfg)) (initStructure g cfg).blockCount chip
  unfold LoadOk findSignature at hload
  unfold attachStart findSignature
  dsimp only at hload ⊢
  generalize findLoop g flt _ _ chip = f at hload hfind ⊢
  obtain ⟨c, o⟩ := f
  cases o with
  | none =>
    dsimp only
    generalize hnew : createNewStart g flt _ = n
    obtain ⟨t, b⟩ := n
    split_ifs with hforce hcreated
    · exact ⟨fun t' ht => ht.elim, fun t' ht => ht.elim⟩
    · refine ⟨fun t' ht => ht.elim, fun t' ht => ?_⟩
      obtain rfl := Started.creating.inj ht
      obtain rfl : b = true := hcreated
      exact createNewStart_built g flt hnew (Nat.zero_le _)
    · exact ⟨fun t' ht => ht.elim, fun t' ht => ht.elim⟩
  | some found =>
    obtain ⟨sig, ba⟩ := found
    dsimp only
    split_ifs
    · exact ⟨fun t' ht => ht.elim, fun t' ht => ht.elim⟩
    · exact ⟨fun t' ht => ht.elim, fun t' ht => ht.elim⟩
    · exact loadExisting_cases (initStructure_size_pos cfg) (hfind.2 sig ba rfl) g.totalBlks_lt
        ((hload sig ba rfl).congr rfl hfind.1)

end NeonWrt.Nmbm
