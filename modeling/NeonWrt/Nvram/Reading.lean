import NeonWrt.Nvram.Commit

/-!
# Reading a partition

The strings of a text that was written are read back as the variables that they
are, up to the NUL after the last one. The header is found where the first magic
number is, so that it stays where it was if nothing before it changes.
-/

namespace NeonWrt.Nvram

open Lib

theorem readName_append (acc : Bytes) {name : Bytes} (rest : Bytes) (hnul : 0 ∉ name)
    (hplain : 61 ∉ name) : readName acc (name ++ 61 :: rest) = readValue (acc ++ name) [] rest := by
  induction name generalizing acc with
  | nil => simp [readName]
  | cons c name ih =>
    rw [List.mem_cons, not_or] at hnul hplain
    rw [List.cons_append, readName, if_neg (Ne.symm hnul.1), if_neg (Ne.symm hplain.1),
      ih _ hnul.2 hplain.2, List.append_assoc, List.singleton_append]

theorem readValue_append (name acc : Bytes) {value : Bytes} (rest : Bytes) (hnul : 0 ∉ value) :
    readValue name acc (value ++ 0 :: rest) =
      (readName [] rest).map (⟨CStr.ofBytes name, CStr.ofBytes (acc ++ value)⟩ :: ·) := by
  induction value generalizing acc with
  | nil => simp [readValue]
  | cons c value ih =>
    rw [List.mem_cons, not_or] at hnul
    rw [List.cons_append, readValue, if_neg (Ne.symm hnul.1), ih _ hnul.2, List.append_assoc,
      List.singleton_append]

theorem readName_text {t : Tuple} (hplain : 61 ∉ t.name.bytes) (rest : Bytes) :
    readName [] (t.text ++ rest) = (readName [] rest).map (t :: ·) := by
  have htext : t.text ++ rest = t.name.bytes ++ 61 :: (t.value.bytes ++ 0 :: rest) := by
    simp only [Tuple.text, List.append_assoc, List.cons_append, List.nil_append]
  rw [htext, readName_append [] _ t.name.noNul hplain, readValue_append _ [] _ t.value.noNul,
    List.nil_append, List.nil_append, CStr.ofBytes_bytes, CStr.ofBytes_bytes]

/-- So are all of them, up to the NUL after the last one. -/
theorem readName_texts {ts : List Tuple} (hplain : ∀ t ∈ ts, 61 ∉ t.name.bytes) (rest : Bytes) :
    readName [] (texts ts ++ 0 :: rest) = some ts := by
  induction ts with
  | nil => simp [readName]
  | cons t ts ih =>
    rw [texts_cons, List.append_assoc, readName_text (hplain t List.mem_cons_self),
      ih fun u hu => hplain u (List.mem_cons_of_mem _ hu)]
    rfl

theorem not_mem_ofBytes {b : Bytes} {c : UInt8} (h : c ∉ b) : c ∉ (CStr.ofBytes b).bytes :=
  fun hc => h (List.takeWhile_subset _ hc)

mutual

theorem readName_plain {name text : Bytes} {ts : List Tuple} (hname : 61 ∉ name)
    (h : readName name text = some ts) : ∀ t ∈ ts, 61 ∉ t.name.bytes := by
  cases text with
  | nil => exact absurd h (by simp [readName])
  | cons c text =>
    rw [readName] at h
    split_ifs at h with hnul heq
    · obtain rfl := Option.some.inj h
      exact fun t ht => absurd ht List.not_mem_nil
    -- the equals sign ends the name, and the value does not matter
    · exact readValue_plain hname h
    · exact readName_plain (by simpa [Ne.symm heq] using hname) h

theorem readValue_plain {name value text : Bytes} {ts : List Tuple} (hname : 61 ∉ name)
    (h : readValue name value text = some ts) : ∀ t ∈ ts, 61 ∉ t.name.bytes := by
  cases text with
  | nil => exact absurd h (by simp [readValue])
  | cons c text =>
    rw [readValue] at h
    split_ifs at h with hnul
    · obtain ⟨us, hus, rfl⟩ := Option.map_eq_some_iff.mp h
      intro t ht
      rcases List.mem_cons.mp ht with rfl | ht
      · exact not_mem_ofBytes hname
      · exact readName_plain List.not_mem_nil hus t ht
    · exact readValue_plain hname h

end

/-- The names of the special parameters. -/
def sdramNames : List CStr := (sdramParams 0 0 0).map (·.name)

theorem map_name_sdramParams (a b c : ℕ) : (sdramParams a b c).map (·.name) = sdramNames := rfl

theorem sdramNames_nodup : sdramNames.Nodup := by decide

theorem sdramNames_plain {n : CStr} (hn : n ∈ sdramNames) : 61 ∉ n.bytes := by
  revert n
  decide

theorem length_hexPad (k n : ℕ) : (hexPad k n).length = k := by
  induction k generalizing n with
  | zero => rfl
  | succ k ih => rw [hexPad, List.length_append, ih, List.length_singleton]

theorem length_value_sdramParams {a b c : ℕ} {t : Tuple} (ht : t ∈ sdramParams a b c) :
    t.value.bytes.length ≤ 10 := by
  have hshort : ∀ k n, k ≤ 8 → (CStr.ofBytes (ascii "0x" ++ hexPad k n)).bytes.length ≤ 10 := by
    intro k n hk
    refine (List.takeWhile_sublist _).length_le.trans ?_
    rw [List.length_append, length_hexPad]
    change 2 + k ≤ 10
    omega
  rw [sdramParams] at ht
  simp only [List.mem_cons, List.not_mem_nil, or_false] at ht
  rcases ht with rfl | rfl | rfl | rfl
  · exact hshort 4 _ (by decide)
  · exact hshort 4 _ (by decide)
  · exact hshort 4 _ (by decide)
  · exact hshort 8 _ (by decide)

theorem placed_empty {h : Handle} : ({ h with nvramHash := fun _ => [] } : Handle).Placed :=
  ⟨fun _ => List.nodup_nil, fun _ _ ht => absurd ht List.not_mem_nil,
    fun _ _ ht => absurd ht List.not_mem_nil⟩

theorem Handle.Placed.foldl {h : Handle} (hp : h.Placed) {ts : List Tuple}
    (hplain : ∀ t ∈ ts, 61 ∉ t.name.bytes) :
    (ts.foldl (fun h t => (Nvram.nvramSet h t.name t.value).1) h).Placed := by
  induction ts generalizing h with
  | nil => exact hp
  | cons t ts ih =>
    exact ih (hp.nvramSet t.value (hplain t List.mem_cons_self)) fun u hu =>
      hplain u (List.mem_cons_of_mem _ hu)

theorem Handle.Placed.setMissing {h : Handle} (hp : h.Placed) {ts : List Tuple}
    (hplain : ∀ t ∈ ts, 61 ∉ t.name.bytes) : (ts.foldl Nvram.setMissing h).Placed := by
  induction ts generalizing h with
  | nil => exact hp
  | cons t ts ih =>
    refine ih ?_ fun u hu => hplain u (List.mem_cons_of_mem _ hu)
    rw [Nvram.setMissing]
    split_ifs
    · exact hp.nvramSet t.value (hplain t List.mem_cons_self)
    · exact hp

theorem sameMapping_foldl_setMissing (ts : List Tuple) (h : Handle) :
    SameMapping h (ts.foldl setMissing h) := by
  induction ts generalizing h with
  | nil => exact .refl h
  | cons t ts ih => exact (sameMapping_setMissing h t).trans (ih _)

/-- A table that is read has its variables in place. -/
theorem rehash_placed {h h' : Handle} (hrehash : rehash h = some h') :
    SameMapping h h' ∧ h'.Placed ∧ h.offset + 21 ≤ h.mmap.length := by
  obtain ⟨ts, hts, rfl⟩ := Option.map_eq_some_iff.mp hrehash
  dsimp only
  refine ⟨?_, ?_, ?_⟩
  · have hfirst := sameMapping_foldl ts { h with nvramHash := fun _ => [] }
    exact SameMapping.trans ⟨hfirst.addr, hfirst.mmap, hfirst.offset, hfirst.shared⟩
      (sameMapping_foldl_setMissing _ _)
  · refine (placed_empty.foldl (readName_plain List.not_mem_nil hts)).setMissing fun t ht => ?_
    have hname := List.mem_map_of_mem (f := Tuple.name) ht
    rw [map_name_sdramParams] at hname
    exact sdramNames_plain hname
  -- a partition that ends with its header has no text to read
  · by_contra hshort
    rw [List.drop_of_length_le (by rw [headerSize]; omega), readName] at hts
    cases hts

/-- What is read from a text of distinct variables, and from a header. -/
theorem rehash_texts {h : Handle} {ts : List Tuple} {rest : Bytes} {a b c : ℕ}
    (htext : h.mmap.drop (h.offset + 20) = texts ts ++ 0 :: rest)
    (hplain : ∀ t ∈ ts, 61 ∉ t.name.bytes) (hnodup : (ts.map (·.name)).Nodup)
    (hfit : ∀ t ∈ ts, t.value.bytes.length < h.space) (hspace : 11 ≤ h.space)
    (hparams : sdramParams (getU32 h.mmap (h.offset + 8)) (getU32 h.mmap (h.offset + 12))
      (getU32 h.mmap (h.offset + 16)) = sdramParams a b c) :
    ∃ h', rehash h = some h' ∧ SameMapping h h' ∧
      ∀ n, nvramGet h' n = (lookup ts n).or (lookup (sdramParams a b c) n) := by
  have hread : readName [] (h.mmap.drop (h.offset + headerSize)) = some ts := by
    rw [headerSize, htext]
    exact readName_texts hplain rest
  have hsome : rehash h = some ((sdramParams a b c).foldl setMissing
      (ts.foldl (fun h t => (nvramSet h t.name t.value).1) { h with nvramHash := fun _ => [] })) := by
    have hsame := sameMapping_foldl ts { h with nvramHash := fun _ => [] }
    rw [rehash, hread, Option.map_some]
    dsimp only
    rw [hsame.mmap, hsame.offset, hparams]
  refine ⟨_, hsome, (rehash_placed hsome).1, fun n => ?_⟩
  have hsame := sameMapping_foldl ts { h with nvramHash := fun _ => [] }
  -- first the variables of the text, then the parameters that these lack
  rw [nvramGet_foldl_setMissing, nvramGet_foldl hnodup]
  · congr 1
    exact Option.or_none
  · exact hfit
  · intro t ht
    rw [hsame.space]
    exact lt_of_le_of_lt (length_value_sdramParams ht) hspace

/-- Another mapping of the same bytes. -/
def Handle.remap (h : Handle) (addr : ℕ) (shared : Bool) : Handle :=
  { h with addr := addr, shared := shared }

theorem nvramSet_remap (h : Handle) (addr : ℕ) (shared : Bool) (name value : CStr) :
    (nvramSet (h.remap addr shared) name value).1 = (nvramSet h name value).1.remap addr shared := by
  have hspace : (h.remap addr shared).space = h.space := rfl
  have hchains : (h.remap addr shared).nvramHash = h.nvramHash := rfl
  rw [nvramSet, nvramSet, hspace, hchains]
  split_ifs <;> rfl

theorem setMissing_remap (h : Handle) (addr : ℕ) (shared : Bool) (t : Tuple) :
    setMissing (h.remap addr shared) t = (setMissing h t).remap addr shared := by
  have hget : nvramGet (h.remap addr shared) t.name = nvramGet h t.name := rfl
  rw [setMissing, setMissing, hget, nvramSet_remap]
  split_ifs <;> rfl

/-- The table depends on the bytes of the mapping alone. -/
theorem rehash_remap (h : Handle) (addr : ℕ) (shared : Bool) :
    rehash (h.remap addr shared) = (rehash h).map (·.remap addr shared) := by
  have hfold : ∀ (ts : List Tuple) (h : Handle),
      ts.foldl (fun h t => (nvramSet h t.name t.value).1) (h.remap addr shared) =
        (ts.foldl (fun h t => (nvramSet h t.name t.value).1) h).remap addr shared := by
    intro ts
    induction ts with
    | nil => exact fun _ => rfl
    | cons t ts ih => exact fun h => by rw [List.foldl_cons, nvramSet_remap, ih, List.foldl_cons]
  have hmissing : ∀ (ts : List Tuple) (h : Handle),
      ts.foldl setMissing (h.remap addr shared) = (ts.foldl setMissing h).remap addr shared := by
    intro ts
    induction ts with
    | nil => exact fun _ => rfl
    | cons t ts ih => exact fun h => by rw [List.foldl_cons, setMissing_remap, ih, List.foldl_cons]
  -- the text is read from the same bytes, and setting looks at nothing else
  rw [rehash, rehash, Option.map_map]
  refine congrArg (Option.map · _) (funext fun ts => ?_)
  have hempty : ({ h.remap addr shared with nvramHash := fun _ => [] } : Handle) =
      ({ h with nvramHash := fun _ => [] } : Handle).remap addr shared := rfl
  rw [hempty, hfold]
  exact hmissing _ _

theorem findMagic_eq_some {part : Bytes} {offset : ℕ} :
    findMagic part = some offset ↔ ∃ i, offset = 4 * i ∧ i < part.length / 4 ∧
      ((part.length < nvramMinSpace || i ≤ (part.length - nvramMinSpace) / 4) &&
        getU32 part (4 * i) = nvramMagic) = true ∧
      ∀ j < i, ((part.length < nvramMinSpace || j ≤ (part.length - nvramMinSpace) / 4) &&
        getU32 part (4 * j) = nvramMagic) = false := by
  rw [findMagic, Option.map_eq_some_iff]
  simp only [List.find?_range_eq_some, List.mem_range]
  constructor
  · rintro ⟨i, ⟨htest, hi, hfirst⟩, rfl⟩
    exact ⟨i, rfl, hi, htest, fun j hj => (Bool.not_eq_true' _).mp (hfirst j hj)⟩
  · rintro ⟨i, rfl, hi, htest, hfirst⟩
    exact ⟨i, ⟨htest, hi, fun j hj => (Bool.not_eq_true' _).mpr (hfirst j hj)⟩, rfl⟩

theorem getU32_congr {b b' : Bytes} {off : ℕ} (h : ∀ i < 4, b'[off + i]? = b[off + i]?) :
    getU32 b' off = getU32 b off := by
  have hbyte : ∀ i < 4, b'.getD (off + i) 0 = b.getD (off + i) 0 := by
    intro i hi
    rw [List.getD_eq_getElem?_getD, List.getD_eq_getElem?_getD, h i hi]
  have h₀ := hbyte 0 (by decide)
  rw [Nat.add_zero] at h₀
  rw [getU32, getU32, h₀, hbyte 1 (by decide), hbyte 2 (by decide), hbyte 3 (by decide)]

/-- A commit does not move the header: there is nothing before it that looks like one. -/
theorem findMagic_of_front {part part' : Bytes} {offset : ℕ} (h : findMagic part = some offset)
    (hlen : part'.length = part.length) (hfront : ∀ k < offset, part'[k]? = part[k]?)
    (hmagic : getU32 part' offset = nvramMagic) : findMagic part' = some offset := by
  obtain ⟨i, rfl, hi, htest, hfirst⟩ := findMagic_eq_some.mp h
  refine findMagic_eq_some.mpr ⟨i, rfl, hlen ▸ hi, ?_, fun j hj => ?_⟩
  · rw [hlen, hmagic]
    rw [Bool.and_eq_true] at htest ⊢
    exact ⟨htest.1, decide_eq_true rfl⟩
  -- every earlier word lies before the header, where nothing has changed
  · have hword : getU32 part' (4 * j) = getU32 part (4 * j) :=
      getU32_congr fun k hk => hfront _ (by omega)
    rw [hlen, hword]
    exact hfirst j hj

theorem nvramOpen_eq_some {addr : ℕ} {part : Bytes} {rdonly : Bool} {h : Handle} :
    nvramOpen addr part rdonly = some h ↔ ∃ offset, findMagic part = some offset ∧
      (rdonly = true ∨ getU32 part (offset + 4) < part.length - offset) ∧
      rehash ⟨addr, part, offset, fun _ => [], !rdonly⟩ = some h := by
  rw [nvramOpen]
  cases hmagic : findMagic part with
  | none => simp
  | some offset =>
    -- that the magic number was found makes the first check of the header hold
    obtain ⟨i, rfl, -, htest, -⟩ := findMagic_eq_some.mp hmagic
    rw [Bool.and_eq_true, decide_eq_true_eq] at htest
    dsimp only
    constructor
    · intro h
      split_ifs at h with hcheck
      exact ⟨4 * i, rfl, hcheck.2, h⟩
    · rintro ⟨offset, heq, hcheck, h⟩
      obtain rfl := Option.some.inj heq
      rw [if_pos ⟨htest.2, hcheck⟩, h]

theorem rehash_again {addr addr' : ℕ} {part : Bytes} {offset : ℕ} {shared shared' : Bool} {h₀ : Handle}
    (h : rehash ⟨addr, part, offset, fun _ => [], shared⟩ = some h₀) :
    rehash ⟨addr', part, offset, fun _ => [], shared'⟩ = some (h₀.remap addr' shared') := by
  have hremap := rehash_remap ⟨addr, part, offset, fun _ => [], shared⟩ addr' shared'
  rw [h] at hremap
  exact hremap

end NeonWrt.Nvram
