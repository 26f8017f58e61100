import NeonWrt.Luci.PoFile

/-!
# What is written for a catalogue

For each message the program writes the translations that are not empty, with the hashes of
their keys, and for the header its formula for plural forms. This file says so for whole
files: each message is written when the next one begins or the file ends.
-/

namespace NeonWrt.Luci.Po2lmo

open Lib

/-- A text with its key, and the value that goes to the index with it. -/
structure Record where
  keyId : BitVec 32
  valId : BitVec 32
  text : Bytes

/-- A text with zeros up to a multiple of four bytes. -/
def padded (text : Bytes) : Bytes := text ++ List.replicate ((4 - text.length % 4) % 4) 0

/-- The output with a record. -/
def Out.add (out : Out) (r : Record) : Out where
  data := out.data ++ padded r.text
  array := out.array ++
    [{ keyId := r.keyId
       valId := r.valId
       offset := BitVec.ofNat 32 out.data.length
       length := BitVec.ofNat 32 r.text.length }]

theorem Out.put_eq_add (out : Out) {r : Record} (h : r.text ≠ []) :
    out.put r.keyId r.valId r.text = some (out.add r) := by
  rw [Out.put, print, if_neg h]
  rfl

/-- The key of a form of a message. -/
def Message.key (m : Message) (i : ℕ) : Bytes := msgKey m.fields m.id.value i

/-- What is written for a form: nothing if it is empty, or has the hash of its key. -/
def Message.record (m : Message) (i : ℕ) : Option Record :=
  (m.forms[i]?.bind nonNull).bind fun text =>
    if hashOf (m.key i) ≠ hashOf text then
      some
        { keyId := hashOf (m.key i)
          valId := BitVec.ofInt 32 (m.fields.pluralNum + 1)
          text := text }
    else none

/-- What is written for a message: nothing if its first form is empty. -/
def Message.records (m : Message) : List Record :=
  if formVal m.forms 0 = none then [] else (List.range m.forms.length).filterMap m.record

/-- The formula of a header. -/
def Header.formula (h : Header) : Option Bytes := pluralForms [] false h.str.value

def Header.records (h : Header) : List Record :=
  h.formula.elim [] fun formula => [{ keyId := 0, valId := 0, text := formula }]

/-- The formula of a catalogue. -/
def Catalogue.formula (c : Catalogue) : Option Bytes := c.header.bind Header.formula

/-- What is written for a catalogue. -/
def Catalogue.records (c : Catalogue) : List Record :=
  c.header.elim [] Header.records ++ c.messages.flatMap Message.records

theorem Message.text_ne_nil_of_record {m : Message} {i : ℕ} {r : Record}
    (h : m.record i = some r) : r.text ≠ [] := by
  obtain ⟨text, htext, h⟩ := Option.bind_eq_some_iff.mp h
  obtain ⟨v, -, hv⟩ := Option.bind_eq_some_iff.mp htext
  obtain ⟨-, hr⟩ := Option.ite_none_right_eq_some.mp h
  obtain rfl := Option.some.inj hr
  rw [nonNull] at hv
  split_ifs at hv with hnil
  exact Option.some.inj hv ▸ hnil

section Writing

variable {w : ℕ} {msg msg' : Msg} {out out' : Out}

theorem printForm_eq (m : Message) (out : Out) (i : ℕ) :
    printForm m.fields m.id.value out i =
      some (((m.record i).toList).foldl Out.add out) := by
  have hval : m.fields.val i = m.forms[i]?.bind nonNull := rfl
  unfold printForm Message.record
  rw [hval]
  cases htext : m.forms[i]?.bind nonNull with
  | none => rfl
  | some text =>
    dsimp only [Option.bind_some]
    by_cases hsame : hashOf (m.key i) ≠ hashOf text
    · have hrecord : m.record i = some
          { keyId := hashOf (m.key i)
            valId := BitVec.ofInt 32 (m.fields.pluralNum + 1)
            text := text } := by
        rw [Message.record, htext, Option.bind_some, if_pos hsame]
      rw [if_pos hsame]
      unfold Message.key at hsame
      rw [if_pos hsame]
      exact Out.put_eq_add out (Message.text_ne_nil_of_record hrecord)
    · rw [if_neg hsame]
      unfold Message.key at hsame
      rw [if_neg hsame]
      rfl

/-- The forms are written one after the other. -/
theorem foldlM_printForm (m : Message) (is : List ℕ) (out : Out) :
    is.foldlM (printForm m.fields m.id.value) out =
      some ((is.filterMap m.record).foldl Out.add out) := by
  induction is generalizing out with
  | nil => rfl
  | cons i is ih =>
    rw [List.foldlM_cons, printForm_eq, List.filterMap_cons]
    cases m.record i with
    | none => exact ih out
    | some r => exact ih (out.add r)

/-- A message is written when the next one begins. -/
theorem Message.closes (m : Message) (hid : m.id.value ≠ []) (out : Out) :
    Closes m.fields out (m.records.foldl Out.add out) := by
  have hname : m.fields.id = some m.id.value := nonNull_of_ne hid
  have hval : m.fields.val 0 = formVal m.forms 0 := rfl
  have hprint : printMsg m.fields out = some (m.records.foldl Out.add out) := by
    unfold printMsg
    rw [hname, hval, Message.records]
    cases hfirst : formVal m.forms 0 with
    | none => rfl
    | some text =>
      have hcount : (m.fields.pluralNum + 1).toNat = m.forms.length := by
        simp [Message.fields, Msg.withForms]
      simp only [reduceCtorEq, if_false]
      rw [hcount]
      exact foldlM_printForm m _ out
  refine ⟨0, fun f hf tmp => ?_⟩
  have hsome : m.fields.id.isSome ∨ (m.fields.val 0).isSome := Or.inl (by rw [hname]; rfl)
  simp only [beginMsg, if_pos hsome, hprint, Option.map_some]
  rcases hf with rfl | rfl <;> rfl

/-- The header is written when the first message begins. -/
theorem Header.closes (h : Header) (hformula : h.formula ≠ some []) (out : Out) :
    Closes (Msg.withForms (.blank 0 none) [h.str.value]) out (h.records.foldl Out.add out) := by
  set msg := Msg.withForms (.blank 0 none) [h.str.value] with hmsg
  by_cases hstr : h.str.value = []
  · -- without text there is nothing to clear
    have hrecords : h.records = [] := by
      rw [Header.records, Header.formula, hstr]
      rfl
    have hblank : msg = .blank 0 (some (.val 0)) := by
      have hval : formVal [[]] = fun _ => none := by
        funext i
        cases i <;> rfl
      rw [hmsg, Msg.withForms, hstr, hval]
      rfl
    rw [hblank, hrecords]
    exact closes_blank 0 _ out
  · have hval : msg.val 0 = some h.str.value := nonNull_of_ne hstr
    have hprint : printMsg msg out = some (h.records.foldl Out.add out) := by
      have hheader := @printMsg_header msg _ rfl hval out
      rw [← Header.formula] at hheader
      rw [hheader, Header.records]
      cases hf : h.formula with
      | none => rfl
      | some formula =>
        have hne : formula ≠ [] := fun hnil => hformula (by rw [hf, hnil])
        exact @Out.put_eq_add out { keyId := 0, valId := 0, text := formula } hne
    refine ⟨0, fun f hf tmp => ?_⟩
    have hsome : msg.id.isSome ∨ (msg.val 0).isSome := Or.inr (by rw [hval]; rfl)
    simp only [beginMsg, if_pos hsome, hprint, Option.map_some]
    rcases hf with rfl | rfl <;> rfl

/-- What a catalogue must have for each of its messages: ids, and up to ten forms. -/
structure Message.Complete (m : Message) : Prop where
  id : m.id.value ≠ []
  idPlural : ∀ p strs, m.body = .plural p strs → p.value ≠ []
  forms : m.forms ≠ []
  count : m.forms.length ≤ 10

/-- Messages are read one after the other, each written by the next. -/
theorem runs_messages (hw : 32 ≤ w) {ms : List Message} (hms : ∀ m ∈ ms, m.Complete)
    (hlen : ∀ l ∈ ms.flatMap Message.lines, l.length < 4096) (hclose : Closes msg out out') :
    ∃ msg₂ out₂, Runs w (ms.flatMap Message.lines) msg out msg₂ out₂ ∧
      Closes msg₂ out₂ ((ms.flatMap Message.records).foldl Out.add out') := by
  induction ms generalizing msg out out' with
  | nil => exact ⟨msg, out, Runs.nil, hclose⟩
  | cons m ms ih =>
    rw [List.flatMap_cons] at hlen
    have hm := hms m (by simp)
    have hfirst := m.runs hw hclose hm.forms hm.count
      fun l hl => hlen l (List.mem_append_left _ hl)
    obtain ⟨msg₂, out₂, hrest, hclose₂⟩ := ih (fun m' hm' => hms m' (by simp [hm']))
      (fun l hl => hlen l (List.mem_append_right _ hl)) (m.closes hm.id out')
    refine ⟨msg₂, out₂, hfirst.append hrest, ?_⟩
    rw [List.flatMap_cons, List.foldl_append]
    exact hclose₂

/-- Lines before the first message are skipped. -/
theorem runs_top (ls : List TextLine) (hcur : msg.cur = none) :
    Runs w (ls.map TextLine.bytes) msg out msg out := by
  induction ls with
  | nil => exact Runs.nil
  | cons l ls ih =>
    have hfirst : Runs w [l.bytes] msg out msg out := by
      apply Runs.single
      intro tmp
      have hkeyword : readKeyword w false l.bytes ⟨msg, out, tmp⟩ = some ⟨msg, out, tmp⟩ :=
        readKeyword_of_not_starts l.not_keyword
      refine ⟨tmp, ?_⟩
      rw [poLine, hkeyword, Option.map_some, readText]
      simp only [hcur]
    exact hfirst.append ih

/-- A catalogue is read, up to the message that is written at the end of the file. -/
theorem Catalogue.runs (c : Catalogue) (hw : 32 ≤ w) (hms : ∀ m ∈ c.messages, m.Complete)
    (hformula : c.formula ≠ some []) (hlen : ∀ l ∈ c.lines, l.length < 4096) :
    ∃ msg out, Runs w c.lines (.blank (-1) none) ⟨[], []⟩ msg out ∧
      Closes msg out (c.records.foldl Out.add ⟨[], []⟩) := by
  have htop : Runs w (c.top.map TextLine.bytes) (.blank (-1) none) ⟨[], []⟩ (.blank (-1) none)
      ⟨[], []⟩ := runs_top c.top rfl
  have hmessages : ∀ l ∈ c.messages.flatMap Message.lines, l.length < 4096 :=
    fun l hl => hlen l (List.mem_append_right _ (List.mem_append_right _ hl))
  cases hheader : c.header with
  | none =>
    obtain ⟨msg, out, hrun, hclose⟩ := runs_messages hw hms hmessages
      (closes_blank (-1) none ⟨[], []⟩)
    refine ⟨msg, out, ?_, ?_⟩
    · rw [Catalogue.lines, hheader]
      exact htop.append hrun
    · rw [Catalogue.records, hheader]
      exact hclose
  | some h =>
    have hlines : c.lines = c.top.map TextLine.bytes ++
        (h.lines ++ c.messages.flatMap Message.lines) := by
      rw [Catalogue.lines, hheader]
      rfl
    have hhead := h.runs (w := w) (closes_blank (-1) none ⟨[], []⟩) fun l hl => by
      apply hlen
      rw [hlines]
      exact List.mem_append_right _ (List.mem_append_left _ hl)
    have hne : h.formula ≠ some [] := by
      rwa [Catalogue.formula, hheader] at hformula
    obtain ⟨msg, out, hrun, hclose⟩ := runs_messages hw hms hmessages (h.closes hne ⟨[], []⟩)
    refine ⟨msg, out, ?_, ?_⟩
    · rw [hlines]
      exact htop.append (hhead.append hrun)
    · rw [Catalogue.records, hheader, List.foldl_append]
      exact hclose

end Writing

theorem Quoted.zero_not_mem_bytes (q : Quoted) : 0 ∉ q.bytes := by
  intro h
  rw [Quoted.bytes, List.mem_cons, List.mem_append, List.mem_cons] at h
  rcases h with h | h | h | h
  · cases h
  · obtain ⟨c, -, hc⟩ := List.mem_flatMap.mp h
    cases c with
    | plain c hno =>
      have hc0 : 0 = c := by simpa [PoChar.raw] using hc
      exact hno (by simp [← hc0])
    | esc c hno =>
      have hc0 : 0 = c := by simpa [PoChar.raw] using hc
      exact hno (by simp [← hc0])
  · cases h
  · exact q.htail h

theorem TextLine.zero_not_mem_bytes (t : TextLine) : 0 ∉ t.bytes := by
  cases t with
  | more lead hlead q =>
    intro h
    rcases List.mem_append.mp h with h | h
    · rcases hlead 0 h with h | h <;> cases h
    · exact q.zero_not_mem_bytes h
  | noise line h0 h => exact h0

theorem PoField.zero_not_mem_lines (p : PoField) {keyword : Bytes} (hkeyword : 0 ∉ keyword) :
    ∀ l ∈ p.lines keyword, 0 ∉ l := by
  intro l hl h0
  rcases List.mem_cons.mp hl with rfl | hl
  · rcases List.mem_append.mp h0 with h0 | h0
    · exact hkeyword h0
    · exact p.first.zero_not_mem_bytes h0
  · obtain ⟨t, -, rfl⟩ := List.mem_map.mp hl
    exact t.zero_not_mem_bytes h0

theorem zero_not_mem_formLines {i : ℕ} {strs : List PoField} :
    ∀ l ∈ formLines i strs, 0 ∉ l := by
  induction strs generalizing i with
  | nil => intro l hl; cases hl
  | cons str strs ih =>
    intro l hl
    rcases List.mem_append.mp hl with hl | hl
    · refine str.zero_not_mem_lines (fun h => ?_) l hl
      rcases List.mem_append.mp h with h | h
      · exact absurd h (by decide)
      · rcases List.mem_append.mp h with h | h
        · exact absurd (isdigit_of_mem_dec h) (by decide)
        · exact absurd h (by decide)
    · exact ih l hl

theorem Message.zero_not_mem_lines (m : Message) : ∀ l ∈ m.lines, 0 ∉ l := by
  intro l hl
  rcases List.mem_append.mp hl with hl | hl
  · cases hctxt : m.ctxt with
    | none =>
      rw [hctxt] at hl
      cases hl
    | some p =>
      rw [hctxt] at hl
      exact p.zero_not_mem_lines (by decide) l hl
  · rcases List.mem_append.mp hl with hl | hl
    · exact m.id.zero_not_mem_lines (by decide) l hl
    · cases hbody : m.body with
      | single str =>
        rw [hbody] at hl
        exact str.zero_not_mem_lines (by decide) l hl
      | plural p strs =>
        rw [hbody] at hl
        rcases List.mem_append.mp hl with hl | hl
        · exact p.zero_not_mem_lines (by decide) l hl
        · exact zero_not_mem_formLines l hl

theorem Catalogue.zero_not_mem_lines (c : Catalogue) : ∀ l ∈ c.lines, 0 ∉ l := by
  intro l hl
  rcases List.mem_append.mp hl with hl | hl
  · obtain ⟨t, -, rfl⟩ := List.mem_map.mp hl
    exact t.zero_not_mem_bytes
  · rcases List.mem_append.mp hl with hl | hl
    · cases hheader : c.header with
      | none =>
        rw [hheader] at hl
        cases hl
      | some h =>
        rw [hheader] at hl
        rcases List.mem_append.mp hl with hl | hl
        · exact h.id.zero_not_mem_lines (by decide) l hl
        · exact h.str.zero_not_mem_lines (by decide) l hl
    · obtain ⟨m, -, hl⟩ := List.mem_flatMap.mp hl
      exact m.zero_not_mem_lines l hl

/-- The output of some records. -/
def outOf (rs : List Record) : Out := rs.foldl Out.add ⟨[], []⟩

/-- The file with some records, which is removed again if there are none. -/
def fileOf (rs : List Record) : Option Bytes :=
  if 0 < (outOf rs).data.length then
    some (lmoFile (outOf rs).data (sortOn (fun e : LmoEntry => e.keyId.toNat) (outOf rs).array))
  else none

/-- The program writes the records of a catalogue. -/
theorem po2lmo_eq {w : ℕ} (hw : 32 ≤ w) (c : Catalogue) (hlines : IsLines c.lines)
    (hlen : ∀ l ∈ c.lines, l.length < 4096) (hms : ∀ m ∈ c.messages, m.Complete)
    (hformula : c.formula ≠ some []) (tmp : Bytes) :
    po2lmo w tmp c.lines.flatten = some (fileOf c.records) := by
  obtain ⟨msg, out, hruns, n, hclose⟩ := c.runs hw hms hformula hlen
  obtain ⟨tmp', hrun⟩ := hruns tmp
  have hcstr : c.lines.map cstr = c.lines := by
    refine (List.map_congr_left fun l hl => ?_).trans c.lines.map_id
    exact cstr_eq_self (c.zero_not_mem_lines l hl)
  have hend : readKeyword w true [] ⟨msg, out, tmp'⟩ =
      some ⟨.blank n (some .id), outOf c.records, tmp'⟩ := hclose .id (Or.inr rfl) tmp'
  rw [po2lmo, fgetsLines_flatten hlines hlen, hcstr, hrun, Option.bind_some, hend]
  rfl

end NeonWrt.Luci.Po2lmo
