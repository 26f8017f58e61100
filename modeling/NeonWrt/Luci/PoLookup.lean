import NeonWrt.Luci.PoCompile

/-!
# Translations of a compiled catalogue

A catalogue that was compiled and loaded answers each message with its translation. The
program and the library build their keys apart, with buffers of the same size; they agree
on canonical ids and contexts whenever the key is hashed at all and fits both.
-/

namespace NeonWrt.Luci.Po2lmo

open Lib

/-- A text is in some data, and an entry says where. -/
structure Located (data : Bytes) (e : LmoEntry) (r : Record) : Prop where
  keyId : e.keyId = r.keyId
  length : e.length = BitVec.ofNat 32 r.text.length
  offset : ∃ off, e.offset = BitVec.ofNat 32 off ∧ HasAt data off r.text

theorem Located.append {data : Bytes} {e : LmoEntry} {r : Record} (h : Located data e r)
    (more : Bytes) : Located (data ++ more) e r := by
  obtain ⟨off, hoff, hat⟩ := h.offset
  refine ⟨h.keyId, h.length, off, hoff, fun i hi => ?_⟩
  have hget := hat i hi
  have hlt : off + i < data.length := by
    by_contra hge
    rw [List.getElem?_eq_none (by omega), List.getElem?_eq_getElem hi] at hget
    cases hget
  rw [List.getElem?_append_left hlt]
  exact hget

theorem located_outOf (rs : List Record) :
    List.Forall₂ (Located (outOf rs).data) (outOf rs).array rs := by
  induction rs using List.reverseRecOn with
  | nil => exact .nil
  | append_singleton rs r ih =>
    have hout : outOf (rs ++ [r]) = (outOf rs).add r := by
      rw [outOf, List.foldl_append]
      rfl
    rw [hout]
    refine List.rel_append ?_ ?_
    · exact ih.imp fun e r h => h.append _
    · refine .cons ⟨rfl, rfl, (outOf rs).data.length, rfl, ?_⟩ .nil
      exact hasAt_middle (outOf rs).data r.text _

theorem map_keyId_outOf (rs : List Record) :
    (outOf rs).array.map LmoEntry.keyId = rs.map Record.keyId := by
  have hkeys : List.Forall₂ (fun (e : LmoEntry) (r : Record) => e.keyId = r.keyId)
      (outOf rs).array rs := (located_outOf rs).imp fun _ _ h => h.keyId
  generalize (outOf rs).array = es at hkeys
  induction hkeys with
  | nil => rfl
  | cons h _ ih => rw [List.map_cons, List.map_cons, h, ih]

theorem exists_located {rs : List Record} {r : Record} (hr : r ∈ rs) :
    ∃ e ∈ (outOf rs).array, Located (outOf rs).data e r := by
  obtain ⟨hlen, hget⟩ := List.forall₂_iff_get.mp (located_outOf rs)
  obtain ⟨i, hi, rfl⟩ := List.getElem_of_mem hr
  exact ⟨_, List.getElem_mem (hlen ▸ hi), hget i (hlen ▸ hi) hi⟩

/-- The index in the order of its keys. -/
def indexOf (rs : List Record) : List LmoEntry :=
  sortOn (fun e : LmoEntry => e.keyId.toNat) (outOf rs).array

theorem mem_indexOf {rs : List Record} {e : LmoEntry} :
    e ∈ indexOf rs ↔ e ∈ (outOf rs).array := sortOn_perm.mem_iff

theorem pairwise_indexOf {rs : List Record} (h : (rs.map Record.keyId).Nodup) :
    (indexOf rs).Pairwise fun e e' => e.keyId < e'.keyId := by
  have hnodup : ((indexOf rs).map LmoEntry.keyId).Nodup := by
    rw [indexOf, ((sortOn_perm).map LmoEntry.keyId).nodup_iff, map_keyId_outOf]
    exact h
  rw [List.Nodup, List.pairwise_map] at hnodup
  have hsorted : (indexOf rs).Pairwise fun e e' => e.keyId.toNat ≤ e'.keyId.toNat :=
    pairwise_sortOn
  refine hsorted.imp₂ (fun e e' hle hne => ?_) hnodup
  exact lt_of_le_of_ne hle fun heq => hne (BitVec.eq_of_toNat_eq heq)

/-- What the archives of a catalogue give for some records: their texts, and nothing else. -/
structure Answers (archives : List Archive) (rs : List Record) : Prop where
  found : ∀ r ∈ rs, ∃ rest, lmoLookup r.keyId archives =
    some (some (r.text ++ rest, (BitVec.ofNat 32 r.text.length).toInt))
  missing : ∀ hash, (∀ r ∈ rs, r.keyId ≠ hash) → lmoLookup hash archives = some none

theorem answers_lmoFile {w : ℕ} (hw : 32 ≤ w) {rs : List Record} (hne : rs ≠ [])
    (htexts : ∀ r ∈ rs, r.text ≠ []) (hnodup : (rs.map Record.keyId).Nodup)
    (hsize : (lmoFile (outOf rs).data (indexOf rs)).length < 2 ^ 32) :
    ∃ ar, lmoOpen w (lmoFile (outOf rs).data (indexOf rs)) = some (some ar) ∧
      Answers [ar] rs := by
  obtain ⟨ar, hopen, hindexes, hmmap⟩ := lmoOpen_lmoFile hw hsize (pairwise_indexOf hnodup)
  have hlength := length_lmoFile (outOf rs).data (indexOf rs)
  have hcount : (indexOf rs).length ≤ 2 ^ 32 := by omega
  refine ⟨ar, hopen, fun r hr => ?_, fun hash hhash => ?_⟩
  · -- the entry of the record is at some place in the index
    obtain ⟨e, he, hloc⟩ := exists_located hr
    obtain ⟨m, hm, hget⟩ := List.getElem_of_mem (mem_indexOf.mpr he)
    have hfind := hindexes.find_of_mem hcount hm
    have htext := hindexes.text hm
    rw [hget, hloc.keyId] at hfind
    rw [hget, hloc.length, hmmap] at htext
    obtain ⟨off, hoff, hat⟩ := (hloc.append
      (indexBytes (indexOf rs) ++ be32 (BitVec.ofNat 32 (outOf rs).data.length))).offset
    have hle := hat.le_length (htexts r hr)
    rw [← lmoFile] at hat hle
    have hoffset : e.offset.toNat = off := by
      rw [hoff, BitVec.toNat_ofNat]
      exact Nat.mod_eq_of_lt (by omega)
    have hdrop : (lmoFile (outOf rs).data (indexOf rs)).drop e.offset.toNat =
        r.text ++ (lmoFile (outOf rs).data (indexOf rs)).drop (e.offset.toNat + r.text.length) := by
      have hslice := hat.slice
      rw [hoffset, ← List.drop_drop]
      exact (List.take_append_drop r.text.length _).symm.trans (by rw [hslice])
    refine ⟨(lmoFile (outOf rs).data (indexOf rs)).drop (e.offset.toNat + r.text.length), ?_⟩
    rw [lmoLookup, hfind]
    simp only [htext, Option.map_some, hdrop]
  · have hindex : indexOf rs ≠ [] := by
      intro hnil
      have hlen := map_keyId_outOf rs
      rw [← List.length_eq_zero_iff, indexOf, sortOn_perm.length_eq] at hnil
      rw [List.length_eq_zero_iff.mp hnil, List.map_nil, eq_comm, List.map_eq_nil_iff] at hlen
      exact hne hlen
    have hmissing : lmoFindEntry ar hash = some none := by
      refine hindexes.find_of_ne hindex hcount fun e he heq => ?_
      have hmem := List.mem_map_of_mem (f := LmoEntry.keyId) (mem_indexOf.mp he)
      rw [map_keyId_outOf] at hmem
      obtain ⟨r, hr, hkey⟩ := List.mem_map.mp hmem
      exact hhash r hr (hkey.trans heq)
    rw [lmoLookup, hmissing]
    rfl

/-- The file of some records is loaded, also if there are none and it is removed. -/
theorem answers_fileOf {w : ℕ} (hw : 32 ≤ w) {rs : List Record} (htexts : ∀ r ∈ rs, r.text ≠ [])
    (hnodup : (rs.map Record.keyId).Nodup)
    (hsize : ∀ file, fileOf rs = some file → file.length < 2 ^ 32) :
    ∃ archives, lmoLoadCatalog w (fileOf rs).toList = some archives ∧ Answers archives rs := by
  by_cases hne : rs = []
  · subst hne
    exact ⟨[], rfl, ⟨fun r hr => (List.not_mem_nil hr).elim, fun hash _ => rfl⟩⟩
  · have hpos : 0 < (outOf rs).data.length := by
      obtain ⟨r, hr⟩ := List.exists_mem_of_ne_nil rs hne
      obtain ⟨e, -, hloc⟩ := exists_located hr
      obtain ⟨off, -, hat⟩ := hloc.offset
      have hle := hat.le_length (htexts r hr)
      have htext := List.length_pos_iff.mpr (htexts r hr)
      omega
    have hfile : fileOf rs = some (lmoFile (outOf rs).data (indexOf rs)) := if_pos hpos
    obtain ⟨ar, hopen, hanswers⟩ := answers_lmoFile hw hne htexts hnodup (hsize _ hfile)
    refine ⟨[ar], ?_, hanswers⟩
    rw [hfile, lmoLoadCatalog, Option.toList_some, List.foldlM_cons, hopen]
    rfl

/-- The index that a form is looked up with: none for a message without plural forms. -/
def Message.index (m : Message) (i : ℕ) : ℤ :=
  match m.body with
  | .single _ => -1
  | .plural _ _ => i

/-- The key of a form, as it is looked up. -/
def Message.hash (m : Message) (i : ℕ) : BitVec 32 :=
  lmoCanonHash m.id.value m.context (m.index i)

/-- The keys of a message. -/
def Message.hashes (m : Message) : List (BitVec 32) := (List.range m.forms.length).map m.hash

/-- The id and the context are canonical, and the key of both fits its buffer. -/
structure Message.Canonical (m : Message) : Prop where
  id : canon m.id.value = m.id.value
  context : ∀ ctx, m.context = some ctx → canon ctx = ctx
  key : (canonContext m.context ++ m.id.value).length < 4096

theorem pluralSuffix_eq {i : ℕ} (hi : i < 10) : pluralSuffix i = 2 :: fmtInt i := by
  have hdigit : fmtInt i = [hexDigit 55 i] := by
    rw [fmtInt, if_neg (by omega), Int.natAbs_natCast, dec_of_lt hi]
  rw [pluralSuffix, hdigit]
  rfl

/-- What both programs hash. -/
def Message.form (m : Message) (i : ℕ) : Bytes :=
  canonContext m.context ++ m.id.value ++ if -1 < m.index i then pluralSuffix (m.index i) else []

/-- The key of the compiler, if it fits its buffer. -/
theorem key_eq_form {m : Message} (hm : m.Complete) (hcanon : m.Canonical) {i : ℕ}
    (hi : i < m.forms.length) (hlen : (m.form i).length < 4096) : m.key i = m.form i := by
  have hcontext : canonContext m.context = m.context.elim [] fun ctx => ctx ++ [1] := by
    cases hctx : m.context with
    | none => rfl
    | some ctx => rw [canonContext, Option.elim_some, Option.elim_some, hcanon.context ctx hctx]
  have hkey : m.key i = snprintf 4096 (m.form i) := by
    have hfields : m.fields.ctxt = m.context := rfl
    have hplural : m.fields.idPlural = m.idPlural := rfl
    unfold Message.key msgKey Message.form Message.index
    rw [hfields, hplural, hcontext, Message.idPlural]
    cases hbody : m.body with
    | single str => cases m.context <;> simp
    | plural p strs =>
      have hsuffix := pluralSuffix_eq (lt_of_lt_of_le hi hm.count)
      have hpos : (-1 : ℤ) < i := by omega
      simp only [nonNull_of_ne (hm.idPlural p strs hbody), hsuffix, if_pos hpos]
      cases m.context <;> simp
  rw [hkey, snprintf_of_length_lt hlen]

/-- Both programs have the same keys, if the library has one at all. -/
theorem hashOf_key {m : Message} (hm : m.Complete) (hcanon : m.Canonical) {i : ℕ}
    (hi : i < m.forms.length) (hne : m.hash i ≠ 0) : hashOf (m.key i) = m.hash i := by
  cases hform : lmoCanon m.id.value m.context (m.index i) with
  | none => exact absurd (by rw [Message.hash, lmoCanonHash, hform]) hne
  | some form =>
    have heq : form = m.form i := by
      rw [lmoCanon_eq hform, hcanon.id]
      rfl
    have hlen : (m.form i).length < 4096 := by
      by_cases hindex : -1 < m.index i
      · have hroom := length_lmoCanon hform hindex
        have hsuffix : (pluralSuffix (m.index i)).length = 2 := by
          have hi' : m.index i = i := by
            unfold Message.index at hindex ⊢
            cases hbody : m.body with
            | single str => simp [hbody] at hindex
            | plural p strs => rfl
          rw [hi', pluralSuffix_eq (lt_of_lt_of_le hi hm.count), fmtInt, if_neg (by omega),
            Int.natAbs_natCast, dec_of_lt (lt_of_lt_of_le hi hm.count)]
          rfl
        rw [← heq]
        omega
      · rw [Message.form, if_neg hindex, List.append_nil]
        exact hcanon.key
    rw [key_eq_form hm hcanon hi hlen, ← heq, Message.hash, lmoCanonHash, hform]
    rfl

/-- A record of a message has the key of one of its forms. -/
theorem Message.keyId_of_record {m : Message} (hm : m.Complete) (hcanon : m.Canonical)
    (hnonzero : 0 ∉ m.hashes) {i : ℕ} (hi : i < m.forms.length) {r : Record}
    (hr : m.record i = some r) : r.keyId = m.hash i := by
  have hne : m.hash i ≠ 0 := by
    intro h0
    exact hnonzero (h0 ▸ List.mem_map_of_mem (List.mem_range.mpr hi))
  obtain ⟨text, -, h⟩ := Option.bind_eq_some_iff.mp hr
  obtain ⟨-, h⟩ := Option.ite_none_right_eq_some.mp h
  rw [← Option.some.inj h]
  exact hashOf_key hm hcanon hi hne

theorem Message.exists_of_mem_records {m : Message} {r : Record} (hr : r ∈ m.records) :
    ∃ i < m.forms.length, m.record i = some r := by
  unfold Message.records at hr
  split_ifs at hr
  · cases hr
  · obtain ⟨i, hi, hrecord⟩ := List.mem_filterMap.mp hr
    exact ⟨i, List.mem_range.mp hi, hrecord⟩

/-- The keys of what is written are some of the keys, in order. -/
theorem Message.sublist_hashes {m : Message} (hm : m.Complete) (hcanon : m.Canonical)
    (hnonzero : 0 ∉ m.hashes) : (m.records.map Record.keyId).Sublist m.hashes := by
  have hforms : ∀ is : List ℕ, (∀ i ∈ is, i < m.forms.length) →
      ((is.filterMap m.record).map Record.keyId).Sublist (is.map m.hash) := by
    intro is his
    induction is with
    | nil => exact List.Sublist.slnil
    | cons i is ih =>
      have hrest := ih fun j hj => his j (by simp [hj])
      rw [List.filterMap_cons]
      cases hrecord : m.record i with
      | none => exact hrest.cons _
      | some r =>
        rw [List.map_cons, List.map_cons,
          m.keyId_of_record hm hcanon hnonzero (his i (by simp)) hrecord]
        exact hrest.cons_cons _
  unfold Message.records
  split_ifs
  · exact List.nil_sublist _
  · exact hforms _ fun i hi => List.mem_range.mp hi

/-- The conditions on a catalogue: complete messages with canonical ids, and different keys that
are not zero. -/
structure Catalogue.Ordinary (c : Catalogue) : Prop where
  complete : ∀ m ∈ c.messages, m.Complete
  canonical : ∀ m ∈ c.messages, m.Canonical
  distinct : (c.messages.flatMap Message.hashes).Nodup
  nonzero : 0 ∉ c.messages.flatMap Message.hashes
  formula : ∀ formula, c.formula = some formula → formula ≠ [] ∧ formula.length < 2 ^ 31

section Lookup

variable {c : Catalogue} {archives : List Archive} {w : ℕ}

theorem Catalogue.Ordinary.nonzero_message (h : c.Ordinary) {m : Message} (hm : m ∈ c.messages) :
    0 ∉ m.hashes := fun h0 => h.nonzero (List.mem_flatMap.mpr ⟨m, hm, h0⟩)

theorem Catalogue.mem_records {r : Record} (h : r ∈ c.records) :
    r.keyId = 0 ∨ ∃ m ∈ c.messages, r ∈ m.records := by
  rcases List.mem_append.mp h with h | h
  · left
    cases hheader : c.header with
    | none =>
      rw [hheader] at h
      cases h
    | some header =>
      rw [hheader, Option.elim_some, Header.records] at h
      cases hformula : header.formula with
      | none =>
        rw [hformula] at h
        cases h
      | some formula =>
        rw [hformula, Option.elim_some] at h
        rw [List.mem_singleton.mp h]
  · exact Or.inr (List.mem_flatMap.mp h)

theorem Catalogue.Ordinary.text_ne_nil (h : c.Ordinary) : ∀ r ∈ c.records, r.text ≠ [] := by
  intro r hr
  rcases List.mem_append.mp hr with hr | hr
  · cases hheader : c.header with
    | none =>
      rw [hheader] at hr
      cases hr
    | some header =>
      rw [hheader, Option.elim_some, Header.records] at hr
      cases hformula : header.formula with
      | none =>
        rw [hformula] at hr
        cases hr
      | some formula =>
        rw [hformula, Option.elim_some] at hr
        rw [List.mem_singleton.mp hr]
        exact (h.formula formula (by rw [Catalogue.formula, hheader]; exact hformula)).1
  · obtain ⟨m, -, hm⟩ := List.mem_flatMap.mp hr
    obtain ⟨i, -, hrecord⟩ := Message.exists_of_mem_records hm
    exact Message.text_ne_nil_of_record hrecord

theorem Catalogue.Ordinary.nodup_keyId (h : c.Ordinary) : (c.records.map Record.keyId).Nodup := by
  have hsub : ((c.messages.flatMap Message.records).map Record.keyId).Sublist
      (c.messages.flatMap Message.hashes) := by
    have hcomplete := h.complete
    have hcanonical := h.canonical
    have hnonzero := fun m hm => h.nonzero_message (m := m) hm
    generalize c.messages = ms at hcomplete hcanonical hnonzero
    induction ms with
    | nil => exact List.Sublist.slnil
    | cons m ms ih =>
      rw [List.flatMap_cons, List.flatMap_cons, List.map_append]
      exact (Message.sublist_hashes (hcomplete m (by simp)) (hcanonical m (by simp))
        (hnonzero m (by simp))).append (ih (fun m hm => hcomplete m (by simp [hm]))
          (fun m hm => hcanonical m (by simp [hm])) fun m hm => hnonzero m (by simp [hm]))
  have hmessages := h.distinct.sublist hsub
  unfold Catalogue.records
  cases hheader : c.header with
  | none => exact hmessages
  | some header =>
    rw [Option.elim_some, Header.records]
    cases header.formula with
    | none => exact hmessages
    | some formula =>
      rw [Option.elim_some, List.singleton_append, List.map_cons, List.nodup_cons]
      exact ⟨fun h0 => h.nonzero (hsub.subset h0), hmessages⟩

/-- A form that is written: its key is not zero and stands for it. -/
def Catalogue.Translated (c : Catalogue) (hash : BitVec 32) : Prop :=
  ∃ m ∈ c.messages, ∃ i text, m.forms[i]? = some text ∧ text ≠ [] ∧ hash = m.hash i ∧
    hash ≠ hashOf text

/-- A key without a translation is not found. -/
theorem Catalogue.Ordinary.lookup_none (h : c.Ordinary) (hanswers : Answers archives c.records)
    {hash : BitVec 32} (hne : hash ≠ 0) (hmissing : ¬ c.Translated hash) :
    lmoLookup hash archives = some none := by
  refine hanswers.missing hash fun r hr hkey => ?_
  rcases c.mem_records hr with h0 | ⟨m, hm, hr⟩
  · exact hne (hkey.symm.trans h0)
  · obtain ⟨i, hi, hrecord⟩ := Message.exists_of_mem_records hr
    have hhash := Message.keyId_of_record (h.complete m hm) (h.canonical m hm)
      (h.nonzero_message hm) hi hrecord
    obtain ⟨text, htext, hif⟩ := Option.bind_eq_some_iff.mp hrecord
    obtain ⟨hdiffer, hr'⟩ := Option.ite_none_right_eq_some.mp hif
    obtain ⟨v, hv, hnull⟩ := Option.bind_eq_some_iff.mp htext
    have hv' : v ≠ [] ∧ v = text := by
      unfold nonNull at hnull
      split_ifs at hnull with hnil
      exact ⟨hnil, Option.some.inj hnull⟩
    refine hmissing ⟨m, hm, i, v, hv, hv'.1, hkey.symm.trans hhash, ?_⟩
    rw [← hkey, ← Option.some.inj hr', hv'.2]
    exact hdiffer

theorem Catalogue.Ordinary.lookup_form (h : c.Ordinary) (hanswers : Answers archives c.records)
    {m : Message} (hm : m ∈ c.messages) {i : ℕ} {text : Bytes} (htext : m.forms[i]? = some text)
    (hne : text ≠ []) (hfirst : ∀ v, m.forms[0]? = some v → v ≠ [])
    (hdiffer : m.hash i ≠ hashOf text) :
    m.hash i ≠ 0 ∧ ∃ rest, lmoLookup (m.hash i) archives =
      some (some (text ++ rest, (BitVec.ofNat 32 text.length).toInt)) := by
  have hi : i < m.forms.length := (List.getElem?_eq_some_iff.mp htext).1
  have hnonzero : m.hash i ≠ 0 := by
    intro h0
    exact h.nonzero_message hm (h0 ▸ List.mem_map_of_mem (List.mem_range.mpr hi))
  have hkey := hashOf_key (h.complete m hm) (h.canonical m hm) hi hnonzero
  have hrecord : m.record i = some
      { keyId := hashOf (m.key i)
        valId := BitVec.ofInt 32 (m.fields.pluralNum + 1)
        text := text } := by
    rw [Message.record, htext, Option.bind_some, nonNull_of_ne hne, Option.bind_some,
      if_pos (hkey ▸ hdiffer)]
  have hmem : Record.mk (hashOf (m.key i)) (BitVec.ofInt 32 (m.fields.pluralNum + 1)) text ∈
      c.records := by
    apply List.mem_append_right
    refine List.mem_flatMap.mpr ⟨m, hm, ?_⟩
    have hsome : formVal m.forms 0 ≠ none := by
      have hzero : 0 < m.forms.length := by omega
      rw [formVal, List.getElem?_eq_getElem hzero, Option.bind_some,
        nonNull_of_ne (hfirst _ (List.getElem?_eq_getElem hzero))]
      exact Option.some_ne_none _
    rw [Message.records, if_neg hsome]
    exact List.mem_filterMap.mpr ⟨i, List.mem_range.mpr hi, hrecord⟩
  refine ⟨hnonzero, ?_⟩
  have hfound := hanswers.found _ hmem
  rwa [hkey] at hfound

/-- The form for a number, by a formula or by the rule of English. The formula's value must not
depend on what follows it in the file. -/
def Selects (evalPlural : Bytes → ℤ → ℤ → ℤ) (formula : Option Bytes) (n i : ℤ) : Prop :=
  match formula with
  | none => i = if n ≠ 1 then 1 else 0
  | some f => ∀ rest, i = if evalPlural (f ++ rest) f.length n = -1 then if n ≠ 1 then 1 else 0
      else evalPlural (f ++ rest) f.length n

theorem toInt_length {text : Bytes} (h : text.length < 2 ^ 31) :
    (BitVec.ofNat 32 text.length).toInt = text.length := by
  rw [BitVec.toInt_ofNat']
  exact Int.bmod_eq_of_le_mul_two (by omega) (by omega)

/-- The library takes the formula of the catalogue. -/
theorem Catalogue.Ordinary.pluralId_eq (h : c.Ordinary) (hanswers : Answers archives c.records)
    {evalPlural : Bytes → ℤ → ℤ → ℤ} {n i : ℤ} (hselects : Selects evalPlural c.formula n i) :
    pluralId evalPlural archives n = some i := by
  cases hformula : c.formula with
  | none =>
    rw [hformula] at hselects
    have hmissing : lmoLookup 0 archives = some none := by
      refine hanswers.missing 0 fun r hr hkey => ?_
      -- without a formula, all records are of messages
      have hr' : r ∈ c.messages.flatMap Message.records := by
        rcases List.mem_append.mp hr with hr | hr
        · cases hheader : c.header with
          | none =>
            rw [hheader] at hr
            cases hr
          | some header =>
            have hnone : header.formula = none := by
              rwa [Catalogue.formula, hheader] at hformula
            rw [hheader, Option.elim_some, Header.records, hnone] at hr
            cases hr
        · exact hr
      obtain ⟨m, hm, hr⟩ := List.mem_flatMap.mp hr'
      have hsub := Message.sublist_hashes (h.complete m hm) (h.canonical m hm)
        (h.nonzero_message hm)
      have hmem := hsub.subset (List.mem_map_of_mem (f := Record.keyId) hr)
      rw [hkey] at hmem
      exact h.nonzero_message hm hmem
    rw [pluralId, hmissing, hselects]
    rfl
  | some f =>
    have hmem : Record.mk 0 0 f ∈ c.records := by
      apply List.mem_append_left
      cases hheader : c.header with
      | none =>
        rw [Catalogue.formula, hheader] at hformula
        cases hformula
      | some header =>
        have hsome : header.formula = some f := by
          rwa [Catalogue.formula, hheader] at hformula
        rw [Option.elim_some, Header.records, hsome]
        exact List.mem_singleton.mpr rfl
    obtain ⟨rest, hfound⟩ := hanswers.found _ hmem
    rw [hformula] at hselects
    have hi := hselects rest
    rw [pluralId, hfound, Option.map_some]
    dsimp only
    rw [toInt_length (h.formula f hformula).2, ← hi]

/-- A translation function returns a text: the memory at `*out` begins with it, and `*outlen` is its
length. -/
def Gives (a : Answer) (text : Bytes) : Prop := ∃ rest, a = .text (text ++ rest) text.length

/-- What the library answers for a catalogue. -/
structure Catalogue.Answered (c : Catalogue) (evalPlural : Bytes → ℤ → ℤ → ℤ)
    (archives : List Archive) : Prop where
  /-- A message with a translation that has another hash than its key is translated. -/
  single : ∀ m ∈ c.messages, ∀ str, m.body = .single str → str.value ≠ [] →
    str.value.length < 2 ^ 31 →
    lmoCanonHash m.id.value m.context (-1) ≠ hashOf str.value →
    ∃ a, lmoTranslateCtxt (some archives) m.id.value m.context = some a ∧ Gives a str.value
  /-- So is each plural form that the formula selects, unless the first form is empty. -/
  plural : ∀ m ∈ c.messages, ∀ p strs, m.body = .plural p strs →
    (∀ v, m.forms[0]? = some v → v ≠ []) →
    ∀ (n : ℤ) (i : ℕ), Selects evalPlural c.formula n i →
    ∀ text, m.forms[i]? = some text → text ≠ [] → text.length < 2 ^ 31 →
    lmoCanonHash m.id.value m.context i ≠ hashOf text →
    ∃ a, lmoTranslatePluralCtxt evalPlural (some archives) n m.id.value p.value m.context =
      some a ∧ Gives a text
  /-- A key without a translation is not found. -/
  missing : ∀ key ctx, ¬ c.Translated (lmoCanonHash key ctx (-1)) →
    lmoTranslateCtxt (some archives) key ctx = some (.error (-1))
  /-- For plural forms the ids are given back then, unless there is no key at all. -/
  missingPlural : ∀ (n i : ℤ) skey pkey ctx, Selects evalPlural c.formula n i →
    ¬ c.Translated (lmoCanonHash skey ctx i) →
    lmoTranslatePluralCtxt evalPlural (some archives) n skey pkey ctx = some
      (if lmoCanonHash skey ctx i = 0 then .error (-1)
      else if n ≠ 1 then .text pkey pkey.length else .text skey skey.length)

theorem Catalogue.Ordinary.answered (h : c.Ordinary) (hanswers : Answers archives c.records)
    (evalPlural : Bytes → ℤ → ℤ → ℤ) : c.Answered evalPlural archives where
  single m hm str hbody hne hlen hdiffer := by
    have hforms : m.forms = [str.value] := by rw [Message.forms, hbody]
    have hhash : m.hash 0 = lmoCanonHash m.id.value m.context (-1) := by
      rw [Message.hash, Message.index, hbody]
    have htext : m.forms[0]? = some str.value := by
      rw [hforms]
      rfl
    have hfirst : ∀ v, m.forms[0]? = some v → v ≠ [] := by
      intro v hv
      rw [htext] at hv
      exact Option.some.inj hv ▸ hne
    obtain ⟨hnonzero, rest, hfound⟩ := h.lookup_form hanswers hm htext hne hfirst
      (hhash ▸ hdiffer)
    rw [hhash] at hnonzero hfound
    refine ⟨.text (str.value ++ rest) str.value.length, ?_, rest, rfl⟩
    rw [lmoTranslateCtxt]
    simp only [if_neg hnonzero, hfound, toInt_length hlen, Option.map_some]
  plural m hm p strs hbody hfirst n i hselects text htext hne hlen hdiffer := by
    have hhash : m.hash i = lmoCanonHash m.id.value m.context i := by
      rw [Message.hash, Message.index, hbody]
    obtain ⟨hnonzero, rest, hfound⟩ := h.lookup_form hanswers hm htext hne hfirst
      (hhash ▸ hdiffer)
    rw [hhash] at hnonzero hfound
    refine ⟨.text (text ++ rest) text.length, ?_, rest, rfl⟩
    rw [lmoTranslatePluralCtxt]
    simp only [h.pluralId_eq hanswers hselects, Option.bind_some, if_neg hnonzero, hfound,
      toInt_length hlen, Option.map_some]
  missing key ctx hmissing := by
    rw [lmoTranslateCtxt]
    by_cases hzero : lmoCanonHash key ctx (-1) = 0
    · simp only [if_pos hzero]
    · simp only [if_neg hzero, h.lookup_none hanswers hzero hmissing, Option.map_some]
  missingPlural n i skey pkey ctx hselects hmissing := by
    rw [lmoTranslatePluralCtxt]
    simp only [h.pluralId_eq hanswers hselects, Option.bind_some]
    by_cases hzero : lmoCanonHash skey ctx i = 0
    · simp only [if_pos hzero]
    · simp only [if_neg hzero, h.lookup_none hanswers hzero hmissing, Option.map_some]

end Lookup

/-- An ordinary catalogue whose lines fit the buffer is compiled, and the file, if it is less than
4 GiB long, answers its messages. -/
theorem compiled_translations {w : ℕ} (hw : 32 ≤ w) (evalPlural : Bytes → ℤ → ℤ → ℤ)
    (c : Catalogue) (hc : c.Ordinary) (hlines : IsLines c.lines)
    (hlen : ∀ l ∈ c.lines, l.length < 4096) (tmp : Bytes)
    (hsize : ∀ file, po2lmo w tmp c.lines.flatten = some (some file) → file.length < 2 ^ 32) :
    ∃ file archives, po2lmo w tmp c.lines.flatten = some file ∧
      lmoLoadCatalog w file.toList = some archives ∧ c.Answered evalPlural archives := by
  have hformula : c.formula ≠ some [] := fun h => (hc.formula [] h).1 rfl
  have hcompile := po2lmo_eq hw c hlines hlen hc.complete hformula tmp
  obtain ⟨archives, hload, hanswers⟩ := answers_fileOf hw hc.text_ne_nil hc.nodup_keyId
    fun file hfile => hsize file (by rw [hcompile, hfile])
  exact ⟨_, archives, hcompile, hload, hc.answered hanswers evalPlural⟩

/-- A text without escapes, as it is quoted on a line. -/
def quoted (text : String) : Quoted where
  chars := (ascii text).filterMap fun c => if h : c ∉ [0, 10, 34, 92] then some (.plain c h) else none
  tail := [10]
  htail := by decide

/-- A header with a formula, a message with a context, and one with two forms. -/
def leases : Catalogue where
  top := [.noise (ascii "# leases\n") (by decide) (Or.inl rfl)]
  htop := by decide
  header := some
    { id := ⟨quoted "", []⟩
      hid := rfl
      str := ⟨quoted "", [.more [] (by simp)
        ⟨(quoted "Plural-Forms: nplurals=2; plural=n > 1;").chars ++ [.esc 110 (by decide)], [10],
          by decide⟩]⟩ }
  messages :=
    [{ ctxt := some ⟨quoted "network", []⟩
       id := ⟨quoted "Lease", []⟩
       body := .single ⟨quoted "Bail", []⟩ },
     { ctxt := none
       id := ⟨quoted "%d lease", []⟩
       body := .plural ⟨quoted "%d leases", []⟩ [⟨quoted "%d bail", []⟩, ⟨quoted "%d baux", []⟩] }]

theorem leases_ordinary : leases.Ordinary where
  complete m hm := by
    simp only [leases, List.mem_cons, List.not_mem_nil, or_false] at hm
    rcases hm with rfl | rfl
    · exact ⟨by decide +kernel, fun p strs h => (by cases h), by decide +kernel, by decide +kernel⟩
    · refine ⟨by decide +kernel, fun p strs h => ?_, by decide +kernel, by decide +kernel⟩
      obtain ⟨rfl, -⟩ := Forms.plural.inj h
      decide +kernel
  canonical m hm := by
    simp only [leases, List.mem_cons, List.not_mem_nil, or_false] at hm
    rcases hm with rfl | rfl
    · refine ⟨by decide +kernel, fun ctx h => ?_, by decide +kernel⟩
      obtain rfl := Option.some.inj h
      decide +kernel
    · exact ⟨by decide +kernel, fun ctx h => (by cases h), by decide +kernel⟩
  distinct := by decide +kernel
  nonzero := by decide +kernel
  formula f hf := by
    have hformula : leases.formula = some (ascii "nplurals=2; plural=n > 1;") := by decide +kernel
    rw [hformula] at hf
    rw [← Option.some.inj hf]
    decide +kernel

/-- The formula of `leases`. -/
def evalLeases (mem : Bytes) (len n : ℤ) : ℤ :=
  if mem.take len.toNat = ascii "nplurals=2; plural=n > 1;" then if 1 < n then 1 else 0 else -1

theorem compiled_leases :
    ∃ file archives, po2lmo 32 [] leases.lines.flatten = some file ∧
      lmoLoadCatalog 32 file.toList = some archives ∧ leases.Answered evalLeases archives :=
  compiled_translations (by decide) evalLeases leases leases_ordinary (by decide +kernel)
    (by decide +kernel) [] (by
      have hsmall : ((po2lmo 32 [] leases.lines.flatten).all fun file =>
          file.all fun bytes => bytes.length < 2 ^ 32) = true := by decide +kernel
      intro file hfile
      rw [hfile] at hsmall
      simpa using hsmall)

/-- A message with an empty translation, whose hash is not that of its key, is not found; and plural
forms that are not found are answered with their ids. -/
theorem untranslated_not_found :
    (((po2lmo 32 [] (ascii "msgid \"a\"\nmsgstr \"b\"\n\nmsgid \"c\"\nmsgstr \"\"\n")).bind
        fun file => lmoLoadCatalog 32 file.toList).bind
        fun archives => lmoTranslateCtxt (some archives) (ascii "c") none) = some (.error (-1)) ∧
      lmoCanonHash (ascii "c") none (-1) ≠ hashOf [] ∧
    (((po2lmo 32 [] (ascii "msgid \"a\"\nmsgstr \"b\"\n")).bind
        fun file => lmoLoadCatalog 32 file.toList).bind
        fun archives => lmoTranslatePluralCtxt evalLeases (some archives) 2 (ascii "c") (ascii "d")
          none) = some (.text (ascii "d") 1) := by
  decide +kernel

end NeonWrt.Luci.Po2lmo
