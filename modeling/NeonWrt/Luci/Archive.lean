import NeonWrt.Lib.Binary
import NeonWrt.Lib.BinarySearch
import NeonWrt.Luci.Lmo

/-!
# Translation archives

An archive of `lmo.c` has the translations one after the other, then the index sorted by
the hashes of the keys, and at its end the offset of the index. All numbers are in network
byte order. It is mapped to memory and searched there.

A function gives nothing where the code reads outside of the mapping.
-/

namespace NeonWrt.Luci

open Lib

/-- `lmo_entry_t` -/
structure LmoEntry where
  keyId : BitVec 32
  valId : BitVec 32
  offset : BitVec 32
  length : BitVec 32
  deriving DecidableEq

/-- The four bytes of `htonl(x)`. -/
def be32 (x : BitVec 32) : Bytes := Endian.big.u32 x.toNat

@[simp] theorem length_be32 (x : BitVec 32) : (be32 x).length = 4 := rfl

/-- An entry of the index. -/
def LmoEntry.bytes (e : LmoEntry) : Bytes :=
  be32 e.keyId ++ be32 e.valId ++ be32 e.offset ++ be32 e.length

@[simp] theorem LmoEntry.length_bytes (e : LmoEntry) : e.bytes.length = 16 := rfl

/-- The entries one after the other. -/
def indexBytes (es : List LmoEntry) : Bytes := es.flatMap LmoEntry.bytes

theorem indexBytes_cons (e : LmoEntry) (es : List LmoEntry) :
    indexBytes (e :: es) = e.bytes ++ indexBytes es := List.flatMap_cons

theorem indexBytes_append (es es' : List LmoEntry) :
    indexBytes (es ++ es') = indexBytes es ++ indexBytes es' := List.flatMap_append

@[simp] theorem length_indexBytes (es : List LmoEntry) : (indexBytes es).length = 16 * es.length := by
  induction es with
  | nil => rfl
  | cons e es ih =>
    rw [indexBytes_cons, List.length_append, ih, LmoEntry.length_bytes, List.length_cons]
    omega

/-- The file with some data and an index. -/
def lmoFile (data : Bytes) (es : List LmoEntry) : Bytes :=
  data ++ (indexBytes es ++ be32 (BitVec.ofNat 32 data.length))

theorem length_lmoFile (data : Bytes) (es : List LmoEntry) :
    (lmoFile data es).length = data.length + 16 * es.length + 4 := by
  simp [lmoFile, Nat.add_assoc]

/-- `lmo_archive_t`: the mapping, the offset of the index in it, and the number of entries. -/
structure Archive where
  mmap : Bytes
  index : ℕ
  length : ℤ

/-- `ntohl(*(const uint32_t *)p)` -/
def readU32 (b : Bytes) (off : ℕ) : Option (BitVec 32) :=
  if off + 4 ≤ b.length then some (BitVec.ofNat 32 (Endian.big.getU32 b off)) else none

/-- The conversion to `int`. -/
def toInt32 (n : ℕ) : ℤ := (BitVec.ofNat 32 n).toInt

/-- `(size - idx_offset - sizeof(uint32_t)) / sizeof(lmo_entry_t)` with a `size_t` of `w` bits -/
def entryCount (w size idxOffset : ℕ) : ℤ :=
  toInt32 (((size - idxOffset) + (2 ^ w - 4)) % 2 ^ w / 16)

/-- `lmo_open` of a file. The size is kept in 32 bits, and an empty mapping fails. -/
def lmoOpen (w : ℕ) (file : Bytes) : Option (Option Archive) :=
  let size := file.length % 4294967296
  let mmap := file.take size
  if size = 0 then some none
  else if size < 4 then none
  else
    (readU32 mmap (size - 4)).map fun idxOffset =>
      if size ≤ idxOffset.toNat then none
      else some
        { mmap := mmap
          index := idxOffset.toNat
          length := entryCount w size idxOffset.toNat }

/-- The archives that `lmo_load_catalog` opens, from the files with names for the language. -/
def lmoLoadCatalog (w : ℕ) (files : List Bytes) : Option (List Archive) :=
  files.foldlM (fun archives file => (lmoOpen w file).map fun ar => ar.toList ++ archives) []

/-- `ntohl(ar->index[m].key_id)` -/
def Archive.keyId (ar : Archive) (m : ℕ) : Option ℕ :=
  (readU32 ar.mmap (ar.index + 16 * m)).map BitVec.toNat

/-- `lmo_find_entry`: the number of the entry. An archive without entries starts with the largest
`unsigned int` as its bound. -/
def lmoFindEntry (ar : Archive) (hash : BitVec 32) : Option (Option ℕ) :=
  binarySearch ar.keyId hash.toNat 0 ((ar.length - 1) % 4294967296).toNat

/-- What a translation function returns: an error, or zero with the memory from `*out` on and
`*outlen`. -/
inductive Answer
  | error (code : ℤ)
  | text (mem : Bytes) (len : ℤ)
  deriving DecidableEq

/-- The memory and the length that an entry is for. -/
def Archive.text (ar : Archive) (m : ℕ) : Option (Bytes × ℤ) :=
  (readU32 ar.mmap (ar.index + 16 * m + 8)).bind fun offset =>
    (readU32 ar.mmap (ar.index + 16 * m + 12)).map fun length =>
      (ar.mmap.drop offset.toNat, length.toInt)

/-- The loop over the archives of a catalogue. -/
def lmoLookup (hash : BitVec 32) : List Archive → Option (Option (Bytes × ℤ))
  | [] => some none
  | ar :: rest =>
    match lmoFindEntry ar hash with
    | none => none
    | some none => lmoLookup hash rest
    | some (some m) => (ar.text m).map some

/-- `lmo_translate_ctxt` with the archives of the active catalogue, if there is one. -/
def lmoTranslateCtxt (active : Option (List Archive)) (key : Bytes) (ctx : Option Bytes) :
    Option Answer :=
  match active with
  | none => some (.error (-2))
  | some archives =>
    let hash := lmoCanonHash key ctx (-1)
    if hash = 0 then some (.error (-1))
    else
      (lmoLookup hash archives).map fun found =>
        match found with
        | some (mem, len) => .text mem len
        | none => .error (-1)

/-- The index of the plural form for a number: what the first formula of the catalogue gives, or
the one of English. `evalPlural` is `lmo_eval_plural` of the memory from the formula on. -/
def pluralId (evalPlural : Bytes → ℤ → ℤ → ℤ) (archives : List Archive) (n : ℤ) : Option ℤ :=
  (lmoLookup 0 archives).map fun found =>
    let pid := match found with
      | some (mem, len) => evalPlural mem len n
      | none => -1
    if pid = -1 then if n ≠ 1 then 1 else 0 else pid

/-- `lmo_translate_plural_ctxt`. What is not in the catalogue stays as it was given. -/
def lmoTranslatePluralCtxt (evalPlural : Bytes → ℤ → ℤ → ℤ) (active : Option (List Archive))
    (n : ℤ) (skey pkey : Bytes) (ctx : Option Bytes) : Option Answer :=
  match active with
  | none => some (.error (-2))
  | some archives =>
    (pluralId evalPlural archives n).bind fun pid =>
      let hash := lmoCanonHash skey ctx pid
      if hash = 0 then some (.error (-1))
      else
        (lmoLookup hash archives).map fun found =>
          match found with
          | some (mem, len) => .text mem len
          | none => if n ≠ 1 then .text pkey pkey.length else .text skey skey.length

section Reading

variable {b data : Bytes} {es : List LmoEntry} {off m w : ℕ}

theorem readU32_of_hasAt {x : BitVec 32} (h : HasAt b off (be32 x)) : readU32 b off = some x := by
  have hle := h.le_length (by simp [be32, Endian.u32, u32le])
  rw [length_be32] at hle
  rw [readU32, if_pos hle, h.endian, Nat.mod_eq_of_lt x.isLt, BitVec.ofNat_toNat, BitVec.setWidth_eq]

/-- An archive has an index at its place, with the keys in increasing order. -/
structure Archive.Indexes (ar : Archive) (es : List LmoEntry) : Prop where
  length : ar.length = es.length
  entries : HasAt ar.mmap ar.index (indexBytes es)
  sorted : es.Pairwise fun e e' => e.keyId < e'.keyId

variable {ar : Archive}

/-- Each entry of the index is at its place. -/
theorem Archive.Indexes.entry (h : ar.Indexes es) (hm : m < es.length) :
    HasAt ar.mmap (ar.index + 16 * m) es[m].bytes := by
  have hsplit : indexBytes es =
      indexBytes (es.take m) ++ (es[m].bytes ++ indexBytes (es.drop (m + 1))) := by
    rw [← indexBytes_cons, ← List.drop_eq_getElem_cons hm, ← indexBytes_append,
      List.take_append_drop]
  have hat := h.entries
  rw [hsplit, HasAt.append_iff, HasAt.append_iff] at hat
  have hfront := hat.2.1
  rwa [length_indexBytes, List.length_take_of_le hm.le] at hfront

theorem Archive.Indexes.keyId (h : ar.Indexes es) (hm : m < es.length) :
    ar.keyId m = some es[m].keyId.toNat := by
  have hat := h.entry hm
  rw [LmoEntry.bytes, List.append_assoc, List.append_assoc, HasAt.append_iff] at hat
  rw [Archive.keyId, readU32_of_hasAt hat.1]
  rfl

theorem Archive.Indexes.text (h : ar.Indexes es) (hm : m < es.length) :
    ar.text m = some (ar.mmap.drop es[m].offset.toNat, es[m].length.toInt) := by
  have hat := h.entry hm
  rw [LmoEntry.bytes, HasAt.append_iff, HasAt.append_iff] at hat
  have hoffset : HasAt ar.mmap (ar.index + 16 * m + 8) (be32 es[m].offset) := hat.1.2
  have hlength : HasAt ar.mmap (ar.index + 16 * m + 12) (be32 es[m].length) := hat.2
  rw [Archive.text, readU32_of_hasAt hoffset, Option.bind_some, readU32_of_hasAt hlength]
  rfl

/-- The keys as a function, for the search. -/
def keyAt (es : List LmoEntry) (m : ℕ) : ℕ := (es[m]?.map fun e => e.keyId.toNat).getD 0

theorem Archive.Indexes.keyId_eq_keyAt (h : ar.Indexes es) (hm : m < es.length) :
    ar.keyId m = some (keyAt es m) := by
  rw [h.keyId hm, keyAt, List.getElem?_eq_getElem hm]
  rfl

theorem Archive.Indexes.strictMonoOn (h : ar.Indexes es) :
    StrictMonoOn (keyAt es) (Set.Iio es.length) := by
  intro i hi j hj hij
  rw [keyAt, keyAt, List.getElem?_eq_getElem hi, List.getElem?_eq_getElem hj]
  exact List.pairwise_iff_getElem.mp h.sorted i j hi hj hij

theorem Archive.Indexes.bound (h : ar.Indexes es) (hne : es ≠ []) (hlen : es.length ≤ 2 ^ 32) :
    ((ar.length - 1) % 4294967296).toNat = es.length - 1 := by
  have hpos : 0 < es.length := List.length_pos_iff.mpr hne
  rw [h.length]
  omega

theorem Archive.Indexes.find_of_mem (h : ar.Indexes es) (hlen : es.length ≤ 2 ^ 32)
    (hm : m < es.length) : lmoFindEntry ar es[m].keyId = some (some m) := by
  have hne : es ≠ [] := List.ne_nil_of_length_pos (by omega)
  rw [lmoFindEntry, h.bound hne hlen]
  apply binarySearch_of_mem (fun j hj => h.keyId_eq_keyAt hj) h.strictMonoOn
  · omega
  · omega
  · omega
  · rw [keyAt, List.getElem?_eq_getElem hm]
    rfl

theorem Archive.Indexes.find_of_ne (h : ar.Indexes es) (hne : es ≠ []) (hlen : es.length ≤ 2 ^ 32)
    {hash : BitVec 32} (hhash : ∀ e ∈ es, e.keyId ≠ hash) :
    lmoFindEntry ar hash = some none := by
  have hpos : 0 < es.length := List.length_pos_iff.mpr hne
  rw [lmoFindEntry, h.bound hne hlen]
  apply binarySearch_of_forall_ne (fun j hj => h.keyId_eq_keyAt hj)
  · omega
  · intro i _ hi heq
    have hlt : i < es.length := by omega
    rw [keyAt, List.getElem?_eq_getElem hlt] at heq
    exact hhash es[i] (List.getElem_mem hlt) (BitVec.eq_of_toNat_eq heq)

/-- The size of the file leaves the number of entries. -/
theorem entryCount_eq {size idxOffset n : ℕ} (hw : 32 ≤ w) (hsize : size = idxOffset + 16 * n + 4)
    (hlt : size < 2 ^ 32) : entryCount w size idxOffset = n := by
  have hpow : 2 ^ 32 ≤ 2 ^ w := Nat.pow_le_pow_right (by decide) hw
  have hsub : size - idxOffset + (2 ^ w - 4) = 16 * n + 2 ^ w := by omega
  have hmod : 16 * n % 2 ^ w = 16 * n := Nat.mod_eq_of_lt (by omega)
  rw [entryCount, hsub, Nat.add_mod_right, hmod, Nat.mul_div_cancel_left n (by decide), toInt32,
    BitVec.toInt_ofNat']
  exact Int.bmod_eq_of_le_mul_two (by omega) (by omega)

theorem lmoOpen_lmoFile {data : Bytes} (hw : 32 ≤ w) (hsize : (lmoFile data es).length < 2 ^ 32)
    (hsorted : es.Pairwise fun e e' => e.keyId < e'.keyId) :
    ∃ ar : Archive, lmoOpen w (lmoFile data es) = some (some ar) ∧ ar.Indexes es ∧
      ar.mmap = lmoFile data es := by
  have hlen := length_lmoFile data es
  have hmod : (lmoFile data es).length % 4294967296 = (lmoFile data es).length :=
    Nat.mod_eq_of_lt hsize
  have hlast : readU32 (lmoFile data es) ((lmoFile data es).length - 4) =
      some (BitVec.ofNat 32 data.length) := by
    apply readU32_of_hasAt
    have hmiddle := hasAt_middle (data ++ indexBytes es) (be32 (BitVec.ofNat 32 data.length)) []
    rw [List.append_nil, List.append_assoc, List.length_append, length_indexBytes] at hmiddle
    rw [hlen]
    exact hmiddle
  have hoffset : (BitVec.ofNat 32 data.length).toNat = data.length := by
    rw [BitVec.toNat_ofNat]
    exact Nat.mod_eq_of_lt (by omega)
  refine ⟨⟨lmoFile data es, data.length, entryCount w (lmoFile data es).length data.length⟩,
    ?_, ⟨?_, ?_, hsorted⟩, rfl⟩
  · unfold lmoOpen
    simp only [hmod, List.take_length, hlast, Option.map_some, hoffset]
    rw [if_neg (by omega), if_neg (by omega), if_neg (by omega)]
  · exact entryCount_eq hw hlen hsize
  · exact hasAt_middle data (indexBytes es) _

end Reading

end NeonWrt.Luci
