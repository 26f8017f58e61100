import Mathlib.Data.List.Nodup
import NeonWrt.Nmbm.Mapping

/-!
# Creation

On a new chip the logical blocks are mapped to the good data blocks in order, so
that the mapping is injective to begin with, and the tables are built between the
data area and the first good block below the signature.
-/

namespace NeonWrt.Nmbm

open Lib

variable (g : Geometry) (flt : Faults) {s s' : Sys} {ni ni' : Ni} {ba nba n count limit : ℕ}

/-- A descending walk that skips a good block ends below its start. -/
theorem walkDescLoop_lt (h : walkDescLoop ni n ba (count + 1) = some nba) (hn : n ≤ ba) :
    nba < ba := by
  induction n generalizing ba with
  | zero => simp [walkDescLoop] at h
  | succ n ih =>
    unfold walkDescLoop at h
    split_ifs at h
    · have hbounds := walkDescLoop_bounds h (by omega)
      omega
    · have hlt := ih h (by omega)
      omega

/-- The walk for the first spare block ends between the data area and the signature. -/
theorem walkDesc_spare (hsig : ni.signatureBa ≤ ni.blockCount - 1)
    (h : walkDesc ni ni.signatureBa 1 ni.mgmtStartBa = some nba) :
    ni.mgmtStartBa < nba ∧ nba < ni.signatureBa ∧ ni.signatureBa < ni.blockCount := by
  have hlt : nba < ni.signatureBa := walkDescLoop_lt h (by omega)
  have hlimit := (walkDesc_bounds h).2
  unfold walkLimit at hlimit
  split_ifs at hlimit <;> omega

/-- The logical blocks are mapped to data blocks in ascending order, and there is room
for a signature above them. -/
structure Built (ni : Ni) : Prop where
  signature_le : ni.signatureBa ≤ ni.blockCount - 1
  mapping : ∃ blocks : List ℕ, blocks.Sublist (List.range ni.mgmtStartBa) ∧
    ni.dataBlockCount = blocks.length ∧
    ni.blockMapping = blocks.map (fun pb : ℕ => (pb : ℤ)) ++
      List.replicate (ni.blockCount - blocks.length) (-1)

theorem buildMappingTable_built (hsig : ni.signatureBa ≤ ni.blockCount - 1) :
    Built (buildMappingTable ni) :=
  ⟨hsig, dataBlocks ni, List.filter_sublist, rfl, rfl⟩

/-- The first mapping stays within the data area. -/
theorem Built.mapped (h : Built ni) (hmgmt : ni.mgmtStartBa < ni.blockCount) : Mapped ni := by
  obtain ⟨blocks, hsub, hcount, htable⟩ := h.mapping
  have hle : blocks.length ≤ ni.mgmtStartBa := by simpa using hsub.length_le
  have hmapping : ∀ lb (hlb : lb < blocks.length), ni.mapping lb = (blocks.get ⟨lb, hlb⟩ : ℕ) := by
    intro lb hlb
    simp [Ni.mapping, htable, List.getD_eq_getElem?_getD, List.getElem?_append_left, hlb]
  refine ⟨hcount ▸ hle, ?_, fun lb hlb _ => ?_, fun lb hlb lb' hlb' _ heq => ?_⟩
  · rw [htable, List.length_append, List.length_map, List.length_replicate]
    omega
  · rw [hcount] at hlb
    have hmem := List.mem_range.mp (hsub.subset (List.get_mem blocks ⟨lb, hlb⟩))
    rw [hmapping lb hlb]
    exact .inl (by exact_mod_cast hmem)
  · rw [hcount] at hlb hlb'
    rw [hmapping lb hlb, hmapping lb' hlb'] at heq
    have hnodup : blocks.Nodup := hsub.nodup List.nodup_range
    exact hnodup.getElem_inj_iff.mp (Int.ofNat_inj.mp heq)

theorem scanLoop_sameButStates (n ba : ℕ) (s : Sys) :
    SameButStates s.ni (scanLoop flt n ba s).ni := by
  induction n generalizing ba s with
  | zero => exact .refl _
  | succ n ih =>
    refine SameButStates.trans ?_ (ih (ba + 1) _)
    dsimp only
    split_ifs
    · exact sameButStates_setState _ _ _
    · exact .refl _

theorem scanBadblocks_sameButStates (s : Sys) : SameButStates s.ni (scanBadblocks flt s).ni :=
  scanLoop_sameButStates flt _ _ s

theorem writeSignatureLoop_sameButStates (data : Bytes) (n ba : ℕ) (s : Sys) :
    SameButStates s.ni (writeSignatureLoop g flt data n ba s).1.ni := by
  induction n generalizing ba s with
  | zero => exact .refl _
  | succ n ih =>
    have hprep := (prepareBlock_touched g flt ba s).ni
    unfold writeSignatureLoop
    dsimp only
    split_ifs
    · exact hprep.trans (ih _ _)
    · exact hprep
    · exact (hprep.trans (sameButStates_setState _ ba .bad)).trans (ih _ ⟨_, _⟩)

theorem writeSignatureLoop_le {data : Bytes}
    (h : (writeSignatureLoop g flt data n ba s).2 = some nba) : nba ≤ ba := by
  induction n generalizing ba s with
  | zero => simp [writeSignatureLoop] at h
  | succ n ih =>
    unfold writeSignatureLoop at h
    dsimp only at h
    split_ifs at h
    · exact (ih h).trans (Nat.sub_le ba 1)
    · exact (Option.some_inj.mp h).ge
    · exact (ih h).trans (Nat.sub_le ba 1)

theorem writeSignature_built {sig : Signature} (h : Built s.ni)
    (hba : (writeSignature g flt limit sig s).2 = some ba) :
    Built { (writeSignature g flt limit sig s).1.ni with signatureBa := ba } := by
  have hle := writeSignatureLoop_le g flt hba
  obtain ⟨states, changed, hni⟩ := writeSignatureLoop_sameButStates g flt sig.bytes
    (s.ni.blockCount - 1 - limit) (s.ni.blockCount - 1) s
  unfold writeSignature
  dsimp only
  rw [hni]
  exact ⟨hle, h.mapping⟩

theorem createNewStart_built (h : createNewStart g flt s = (s', true))
    (hsig : s.ni.signatureBa ≤ s.ni.blockCount - 1) : Built s'.ni := by
  obtain ⟨states, changed, hni⟩ :=
    scanBadblocks_sameButStates flt ⟨{ s.ni with mgmtStartBa := mgmtStart s.ni }, s.chip⟩
  unfold createNewStart at h
  dsimp only at h
  split at h
  · simp at h
  next ba hba =>
    obtain ⟨rfl, -⟩ := Prod.mk.inj h
    apply writeSignature_built g flt _ hba
    rw [hni]
    have hbuilt := @buildMappingTable_built
      ({ s.ni with mgmtStartBa := mgmtStart s.ni }.withStates states changed) hsig
    exact ⟨hbuilt.signature_le, hbuilt.mapping⟩

theorem createInfoTableStart_settled (h : Built s.ni)
    (hrun : createInfoTableStart g flt s = (s', true)) : Settled s'.ni := by
  unfold createInfoTableStart at hrun
  split at hrun
  · simp at hrun
  next top hwalk =>
    obtain ⟨hmgmt, htop, hsig⟩ := walkDesc_spare h.signature_le hwalk
    have hbuilt : Built { s.ni with mappingBlocksTopBa := top } := ⟨h.signature_le, h.mapping⟩
    have hmapped := hbuilt.mapped (hmgmt.trans (htop.trans hsig))
    have harea : Area (generateInfoTableCache { s.ni with mappingBlocksTopBa := top }).1 :=
      ⟨generateInfoTableCache_ne_nil _, hmgmt.le, htop, hsig⟩
    have hupdated := @rebuildInfoTable_updated g flt ⟨_, s.chip⟩ harea
    rw [hrun] at hupdated
    exact ⟨hupdated.layout, (hmapped.of_fixed (fixed_generate _)).of_fixed hupdated.fixed⟩

end NeonWrt.Nmbm
