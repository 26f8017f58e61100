import NeonWrt.Mikrotik.Dynparts
import NeonWrt.Mikrotik.SoftConfig

/-!
# RouterBOOT partitions

`routerboot_partitions_parse` over the children of a device tree node and what the
scan of the flash has left of the well-known partitions. Offsets and sizes are kept
as the source has them, a `size_t` in the loop and 64 bits in a partition; whether
anything has wrapped is noted on the side.

The sum that is compared with the size of the device is a `size_t`, so that it can
wrap to a small number.
-/

namespace NeonWrt.Mikrotik.Partitions

open Lib Dynparts

/-- `-ENOMEM`. -/
def eNoMem : ℤ := -12

/-- `MTD_WRITEABLE`. -/
def mtdWriteable : ℕ := 0x400

/-- `MTD_POWERUP_LOCK`. -/
def mtdPowerupLock : ℕ := 0x2000

/-- A child of the device tree node of the master device, with the properties that are read. -/
structure Node where
  pathName : String
  label : Option String
  name : Option String
  reg : Option Bytes
  size : Option Bytes
  readOnly : Bool
  lock : Bool
  deriving DecidableEq, Repr

/-- The name of the partition: the label, the deprecated name, or the name of the node. -/
def Node.partname (pp : Node) : String := pp.label.getD (pp.name.getD pp.pathName)

/-- The flags a partition masks. -/
def Node.maskFlags (pp : Node) : ℕ :=
  (if pp.readOnly then mtdWriteable else 0) ||| if pp.lock then mtdPowerupLock else 0

/-- `struct mtd_partition`. -/
structure Part where
  name : String
  offset : ℕ
  size : ℕ
  maskFlags : ℕ
  ofNode : Node
  deriving DecidableEq, Repr

/-- What `of_read_number` reads from some cells, without a width. -/
def ofReadNumber (cells : Bytes) (size : ℕ) : ℕ :=
  (cells.take (4 * size)).foldl (fun r c => 256 * r + c.toNat) 0

/-- A number of the device tree, which `of_read_number` gives as 64 bits, as a `size_t`. -/
def sizeT (w n : ℕ) : ℕ := n % 2 ^ 64 % 2 ^ w

/-- `ALIGN(x, RB_BLOCK_SIZE)`, without a width. -/
def align (x : ℕ) : ℕ := (x + 4095) / rbBlockSize * rbBlockSize

section

variable (w total aCells sCells : ℕ) (dynparts : List Dynpart)

/-- The offset and the size of a partition, as they are read or known. -/
def resolve (masterOfs : ℕ) (pp : Node) : Except ℤ (ℕ × ℕ) :=
  match pp.reg with
  | some reg =>
    -- a fixed partition
    if reg.length / 4 ≠ aCells + sCells then .error eInval
    else .ok (ofReadNumber reg aCells, ofReadNumber (reg.drop (4 * aCells)) sCells)
  | none =>
    let known := dynparts.find? fun d => pp.partname == d.name && d.found
    let offset := (known.map Dynpart.offset).getD masterOfs
    match pp.size with
    | some sz =>
      if sz.length / 4 ≠ sCells then .error eInval else .ok (offset, ofReadNumber sz sCells)
    | none => .ok (offset, (known.map Dynpart.size).getD 0)

/-- The partitions so far, the last one first, the offset behind them, and whether a number or a
sum did not fit its type. -/
structure Parsed where
  parts : List Part
  masterOfs : ℕ
  wrapped : Bool
  deriving DecidableEq, Repr

/-- The end of the previous partition, without a width. -/
def prevEnd : List Part → ℕ
  | [] => 0
  | prev :: _ => prev.offset + prev.size

/-- A previous partition without a size ends where the next one begins. -/
def fixEnd (offset : ℕ) : List Part → List Part
  | [] => []
  | prev :: rest =>
    (if prev.size = 0 then { prev with size := offset - prev.offset } else prev) :: rest

/-- The checks of a partition against the one before and the end of the device. -/
def place (st : Parsed) (pp : Node) (o s : ℕ) : Except ℤ Parsed :=
  let offset := sizeT w o
  let size := sizeT w s
  if offset < prevEnd st.parts % 2 ^ 64 then .error eInval
  else if total < (offset + size) % 2 ^ w then .error eInval
  else
    .ok
      { parts := ⟨pp.partname, offset, size, pp.maskFlags, pp⟩ :: fixEnd offset st.parts
        masterOfs := ((offset + size) % 2 ^ w + 4095) % 2 ^ w / rbBlockSize * rbBlockSize
        wrapped := st.wrapped || decide (2 ^ w ≤ o) || decide (2 ^ w ≤ s) ||
          decide (2 ^ 64 ≤ prevEnd st.parts) || decide (2 ^ w ≤ offset + size) ||
          decide (2 ^ w ≤ (offset + size) % 2 ^ w + 4095) }

/-- One round of the loop over the children. -/
def parseNode (st : Parsed) (pp : Node) : Except ℤ Parsed := do
  let (o, s) ← resolve aCells sCells dynparts st.masterOfs pp
  place w total st pp o s

/-- `routerboot_partitions_parse`, with the children of the device tree node, if there is one,
whether memory can be had, and the well-known partitions as `routerboot_find_dynparts` has left
them. The number of partitions is that of `parts`. -/
def routerbootPartitionsParse (memory : Bool) (nodes : Option (List Node)) : Except ℤ Parsed :=
  -- without a node, or without children, there is nothing to do
  if (nodes.getD []).isEmpty then .ok ⟨[], 0, false⟩
  else if memory then
    (nodes.getD []).foldlM (parseNode w total aCells sCells dynparts) ⟨[], 0, false⟩
  else .error eNoMem

/-- Partitions in ascending order, each behind the one before, inside a device. -/
structure Layout (parts : List Part) : Prop where
  ordered : parts.Pairwise fun p q => p.offset + p.size ≤ q.offset
  inside : ∀ p ∈ parts, p.offset + p.size ≤ total

/-- The offsets and sizes of the partitions from an offset on, without a width. -/
def extents (masterOfs : ℕ) : List Node → List (ℕ × ℕ)
  | [] => []
  | pp :: rest =>
    match resolve aCells sCells dynparts masterOfs pp with
    | .error _ => []
    | .ok (o, s) => (o, s) :: extents (align (o + s)) rest

/-- All sums, rounded up to a block, fit in a `size_t`. -/
def Fits (l : List (ℕ × ℕ)) : Prop := ∀ x ∈ l, x.1 + x.2 + 4095 < 2 ^ w

end

variable {w total aCells sCells masterOfs o s : ℕ} {dynparts : List Dynpart} {nodes : List Node}
  {st st' : Parsed} {pp : Node}

theorem sizeT_of_lt (hw : w ≤ 64) (h : o < 2 ^ w) : sizeT w o = o := by
  have hlt : o < 2 ^ 64 := lt_of_lt_of_le h (Nat.pow_le_pow_right (by decide) hw)
  rw [sizeT, Nat.mod_eq_of_lt hlt, Nat.mod_eq_of_lt h]

theorem place_ok (h : place w total st pp o s = .ok st') :
    prevEnd st.parts % 2 ^ 64 ≤ sizeT w o ∧ (sizeT w o + sizeT w s) % 2 ^ w ≤ total ∧
      st' =
        { parts := ⟨pp.partname, sizeT w o, sizeT w s, pp.maskFlags, pp⟩ ::
            fixEnd (sizeT w o) st.parts
          masterOfs := ((sizeT w o + sizeT w s) % 2 ^ w + 4095) % 2 ^ w / rbBlockSize * rbBlockSize
          wrapped := st.wrapped || decide (2 ^ w ≤ o) || decide (2 ^ w ≤ s) ||
            decide (2 ^ 64 ≤ prevEnd st.parts) || decide (2 ^ w ≤ sizeT w o + sizeT w s) ||
            decide (2 ^ w ≤ (sizeT w o + sizeT w s) % 2 ^ w + 4095) } := by
  rw [place] at h
  split_ifs at h with hoverlap hend
  exact ⟨Nat.le_of_not_lt hoverlap, Nat.le_of_not_lt hend, (Except.ok.inj h).symm⟩

theorem parseNode_ok (h : parseNode w total aCells sCells dynparts st pp = .ok st') :
    ∃ o s, resolve aCells sCells dynparts st.masterOfs pp = .ok (o, s) ∧
      place w total st pp o s = .ok st' := by
  rw [parseNode] at h
  cases hres : resolve aCells sCells dynparts st.masterOfs pp with
  | error e =>
    rw [hres] at h
    cases h
  | ok x =>
    rw [hres] at h
    exact ⟨x.1, x.2, rfl, h⟩

theorem foldlM_cons_ok {nodes : List Node}
    (h : (pp :: nodes).foldlM (parseNode w total aCells sCells dynparts) st = .ok st') :
    ∃ st₁, parseNode w total aCells sCells dynparts st pp = .ok st₁ ∧
      nodes.foldlM (parseNode w total aCells sCells dynparts) st₁ = .ok st' := by
  rw [List.foldlM_cons] at h
  cases hnode : parseNode w total aCells sCells dynparts st pp with
  | error e =>
    rw [hnode] at h
    cases h
  | ok st₁ =>
    rw [hnode] at h
    exact ⟨st₁, rfl, h⟩

/-- What a round computes if nothing wraps in it. -/
theorem place_exact (hw : w ≤ 64) (h : place w total st pp o s = .ok st')
    (hwrapped : st'.wrapped = false) :
    st.wrapped = false ∧ o + s + 4095 < 2 ^ w ∧ st'.masterOfs = align (o + s) := by
  obtain ⟨-, -, rfl⟩ := place_ok h
  simp only [Bool.or_eq_false_iff, decide_eq_false_iff_not, Nat.not_le] at hwrapped
  obtain ⟨⟨⟨⟨⟨hst, ho⟩, hs⟩, -⟩, hsum⟩, hblock⟩ := hwrapped
  rw [sizeT_of_lt hw ho, sizeT_of_lt hw hs] at hsum hblock ⊢
  rw [Nat.mod_eq_of_lt hsum] at hblock
  refine ⟨hst, hblock, ?_⟩
  dsimp only
  rw [Nat.mod_eq_of_lt hsum, Nat.mod_eq_of_lt hblock, align]

/-- If nothing has wrapped, then all sums fit. -/
theorem fits_of_not_wrapped (hw : w ≤ 64)
    (h : nodes.foldlM (parseNode w total aCells sCells dynparts) st = .ok st')
    (hwrapped : st'.wrapped = false) :
    st.wrapped = false ∧ Fits w (extents aCells sCells dynparts st.masterOfs nodes) := by
  induction nodes generalizing st with
  | nil =>
    obtain rfl := Except.ok.inj h
    exact ⟨hwrapped, by simp [extents, Fits]⟩
  | cons pp nodes ih =>
    obtain ⟨st₁, hnode, hrest⟩ := foldlM_cons_ok h
    obtain ⟨o, s, hres, hplace⟩ := parseNode_ok hnode
    obtain ⟨hwrapped₁, hfits⟩ := ih hrest
    obtain ⟨hst, hlt, hofs⟩ := place_exact hw hplace hwrapped₁
    refine ⟨hst, ?_⟩
    rw [extents, hres, Fits, List.forall_mem_cons]
    rw [hofs] at hfits
    exact ⟨hlt, hfits⟩

/-- The partitions so far are a layout, behind each other from the last one on, and nothing has
wrapped. -/
structure Kept (w total : ℕ) (st : Parsed) : Prop where
  ordered : st.parts.Pairwise fun q p => p.offset + p.size ≤ q.offset
  inside : ∀ p ∈ st.parts, p.offset + p.size ≤ total
  small : prevEnd st.parts < 2 ^ w
  exact' : st.wrapped = false

/-- What is behind the last partition stays so when its end is fixed. -/
theorem fixEnd_end_le {offset : ℕ} {parts : List Part}
    (hordered : parts.Pairwise fun q p => p.offset + p.size ≤ q.offset)
    (hprev : prevEnd parts ≤ offset) : ∀ p ∈ fixEnd offset parts, p.offset + p.size ≤ offset := by
  cases parts with
  | nil => simp [fixEnd]
  | cons prev rest =>
    obtain ⟨hhead, -⟩ := List.pairwise_cons.mp hordered
    have hle : prev.offset + prev.size ≤ offset := hprev
    refine List.forall_mem_cons.mpr ⟨?_, fun p hp => ?_⟩
    · split_ifs
      · change prev.offset + (offset - prev.offset) ≤ offset
        omega
      · exact hle
    · have hbefore := hhead p hp
      omega

theorem fixEnd_ordered {offset : ℕ} {parts : List Part}
    (hordered : parts.Pairwise fun q p => p.offset + p.size ≤ q.offset) :
    (fixEnd offset parts).Pairwise fun q p => p.offset + p.size ≤ q.offset := by
  cases parts with
  | nil => exact hordered
  | cons prev rest =>
    obtain ⟨hhead, hrest⟩ := List.pairwise_cons.mp hordered
    refine List.pairwise_cons.mpr ⟨fun p hp => ?_, hrest⟩
    -- only the size of the last partition changes
    split_ifs
    · exact hhead p hp
    · exact hhead p hp

theorem Kept.place (hw : w ≤ 64) (hst : Kept w total st) (hlt : o + s + 4095 < 2 ^ w)
    (h : place w total st pp o s = .ok st') :
    Kept w total st' ∧ st'.masterOfs = align (o + s) := by
  obtain ⟨hoverlap, hend, rfl⟩ := place_ok h
  have hprev : prevEnd st.parts < 2 ^ 64 :=
    lt_of_lt_of_le hst.small (Nat.pow_le_pow_right (by decide) hw)
  rw [sizeT_of_lt hw (show o < 2 ^ w by omega), Nat.mod_eq_of_lt hprev] at hoverlap
  rw [sizeT_of_lt hw (show o < 2 ^ w by omega), sizeT_of_lt hw (show s < 2 ^ w by omega),
    Nat.mod_eq_of_lt (show o + s < 2 ^ w by omega)] at hend ⊢
  have hbefore := fixEnd_end_le hst.ordered hoverlap
  refine ⟨⟨?_, ?_, ?_, ?_⟩, ?_⟩
  · exact List.pairwise_cons.mpr ⟨hbefore, fixEnd_ordered hst.ordered⟩
  · refine List.forall_mem_cons.mpr ⟨hend, fun p hp => ?_⟩
    have hle := hbefore p hp
    omega
  · change o + s < 2 ^ w
    omega
  · simp only [hst.exact', Bool.false_or, Bool.or_eq_false_iff, decide_eq_false_iff_not,
      Nat.not_le]
    exact ⟨⟨⟨⟨by omega, by omega⟩, hprev⟩, by omega⟩, hlt⟩
  · dsimp only
    rw [Nat.mod_eq_of_lt hlt, align]

/-- If all sums fit, then a parse that succeeds gives a layout. -/
theorem Kept.parse (hw : w ≤ 64) (hst : Kept w total st)
    (hfits : Fits w (extents aCells sCells dynparts st.masterOfs nodes))
    (h : nodes.foldlM (parseNode w total aCells sCells dynparts) st = .ok st') :
    Kept w total st' := by
  induction nodes generalizing st with
  | nil =>
    obtain rfl := Except.ok.inj h
    exact hst
  | cons pp nodes ih =>
    obtain ⟨st₁, hnode, hrest⟩ := foldlM_cons_ok h
    obtain ⟨o, s, hres, hplace⟩ := parseNode_ok hnode
    rw [extents, hres, Fits, List.forall_mem_cons] at hfits
    obtain ⟨hst₁, hofs⟩ := hst.place hw hfits.1 hplace
    refine ih hst₁ ?_ hrest
    rw [hofs]
    exact hfits.2

theorem Kept.init : Kept w total ⟨[], 0, false⟩ :=
  ⟨.nil, by simp, Nat.two_pow_pos w, rfl⟩

theorem Kept.layout (h : Kept w total st) : Layout total st.parts.reverse :=
  ⟨List.pairwise_reverse.mpr h.ordered, fun p hp => h.inside p (List.mem_reverse.mp hp)⟩

/-- The partitions of a parse that succeeds are in order, apart and inside the device, without any
wrap, if and only if all sums fit in a `size_t`. -/
theorem layout_iff (hw : w ≤ 64) (memory : Bool) (nodes : Option (List Node))
    (h : routerbootPartitionsParse w total aCells sCells dynparts memory nodes = .ok st) :
    (Layout total st.parts.reverse ∧ st.wrapped = false) ↔
      Fits w (extents aCells sCells dynparts 0 (nodes.getD [])) := by
  rw [routerbootPartitionsParse] at h
  split_ifs at h with hempty
  · obtain rfl := Except.ok.inj h
    rw [List.isEmpty_iff.mp hempty]
    exact iff_of_true ⟨Kept.init.layout (w := w), rfl⟩ (by simp [extents, Fits])
  · constructor
    · exact fun hok => (fits_of_not_wrapped hw h hok.2).2
    · intro hfits
      have hkept := Kept.init.parse hw hfits h
      exact ⟨hkept.layout, hkept.exact'⟩

/-- A fixed partition with one cell for its offset and one for its size. -/
def fixedNode (reg : Bytes) : Node := ⟨"partition", none, none, some reg, none, false, false⟩

/-- Two partitions on a device of 16 MiB, the first of which extends up to the second. -/
def twoNodes : List Node :=
  [fixedNode [0, 0, 0, 0, 0, 0, 0, 0], fixedNode [0, 2, 0, 0, 0, 14, 0, 0]]

theorem layout_twoNodes :
    (Layout 0x1000000 [⟨"partition", 0, 0x20000, 0, fixedNode [0, 0, 0, 0, 0, 0, 0, 0]⟩,
        ⟨"partition", 0x20000, 0xe0000, 0, fixedNode [0, 2, 0, 0, 0, 14, 0, 0]⟩] ∧ false = false) ↔
      Fits 32 (extents 1 1 (rbDynparts .little) 0 ((some twoNodes).getD [])) :=
  layout_iff (by decide) true (some twoNodes)
    (show routerbootPartitionsParse 32 0x1000000 1 1 (rbDynparts .little) true (some twoNodes) =
      .ok ⟨[⟨"partition", 0x20000, 0xe0000, 0, fixedNode [0, 2, 0, 0, 0, 14, 0, 0]⟩,
        ⟨"partition", 0, 0x20000, 0, fixedNode [0, 0, 0, 0, 0, 0, 0, 0]⟩], 0x100000, false⟩
      by decide +kernel)

/-- A partition whose end wraps to zero is accepted. -/
theorem not_layout_of_ok : ¬ ∀ (w total aCells sCells : ℕ) (dynparts : List Dynpart)
    (memory : Bool) (nodes : Option (List Node)) (st : Parsed), w ≤ 64 →
    routerbootPartitionsParse w total aCells sCells dynparts memory nodes = .ok st →
    Layout total st.parts.reverse ∧ st.wrapped = false := by
  intro h
  have hlayout := h 32 0x1000000 1 1 (rbDynparts .little) true
    (some [fixedNode [0, 0, 16, 0, 255, 255, 240, 0]])
    ⟨[⟨"partition", 0x1000, 0xfffff000, 0, fixedNode [0, 0, 16, 0, 255, 255, 240, 0]⟩], 0, true⟩
    (by decide) (by decide +kernel)
  exact absurd (hlayout.1.inside _ (List.mem_singleton_self _)) (by decide)

end NeonWrt.Mikrotik.Partitions
