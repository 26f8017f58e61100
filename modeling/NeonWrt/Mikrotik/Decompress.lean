import NeonWrt.Mikrotik.Decoding

/-!
# Whole runs of the decompressor

The state of the decoding loop follows the groups of the input: a pass takes
the next group of the format, stops with an error, takes a group for the end
marker, or accesses memory outside a buffer. From what one pass does follow the
two results about whole runs.
-/

namespace NeonWrt.Mikrotik

open Lib

/-- The test for the end marker of a literal group whose header ends at bit `pos`. It compares a
position in bits with a length in bytes. -/
def TakenForEnd (inp : Bytes) (pos n : ℕ) : Prop := n = 12 ∧ inp.length < pos + n * 8

instance (inp : Bytes) (pos n : ℕ) : Decidable (TakenForEnd inp pos n) :=
  inferInstanceAs (Decidable (_ ∧ _))

/-- No literal group of the sequence is taken for the end marker. -/
def NoneTaken (inp : Bytes) (gs : List Group) : Prop :=
  ∀ pre g post, gs = pre ++ g :: post →
    ¬ TakenForEnd inp (encode pre ++ g.header.bits).length g.header.bytes

/-- The groups head the input, mean something, and their output fits the buffer; `o` and `out` are
the offset of their latest match and their output. -/
structure Heads (inp : Bytes) (outLen : ℕ) (gs : List Group) (o : ℕ) (out : Bytes)
    (rest : List Bool) : Prop where
  split : bits inp = encode gs ++ rest
  wellFormed : ∀ g ∈ gs, g.WellFormed
  expand : expand gs = some (o, out)
  room : out.length ≤ outLen

/-- Wherever the decoder comes, the input goes on for the bits that name the instruction, and the
bytes of a literal group are within the input and have room in the output. -/
def AccessesFit (inp : Bytes) (outLen : ℕ) : Prop :=
  ∀ gs o out rest, Heads inp outLen gs o out rest → NoneTaken inp gs →
    rest ≠ [] ∧ rest ≠ [true] ∧
    ∀ hd rest', Header.WellFormed hd → rest = hd.bits ++ rest' →
      ¬ TakenForEnd inp (encode gs ++ hd.bits).length hd.bytes →
      8 * hd.bytes ≤ rest'.length ∧ out.length + hd.bytes ≤ outLen

/-- The variables of the loop behind a sequence of groups. -/
def behind (gs : List Group) (o : ℕ) (out : Bytes) : State := ⟨(encode gs).length, o, out⟩

section Pass

variable {inp : Bytes} {outLen : ℕ} {gs : List Group} {o : ℕ} {out : Bytes} {rest : List Bool}

theorem Heads.length_encode_le (h : Heads inp outLen gs o out rest) :
    (encode gs).length + rest.length = inp.length * 8 := by
  rw [← List.length_append, ← h.split, length_bits, mul_comm]

theorem Heads.nil (inp : Bytes) (outLen : ℕ) : Heads inp outLen [] 0 [] (bits inp) where
  split := rfl
  wellFormed := by simp
  expand := rfl
  room := Nat.zero_le _

theorem Heads.concat {g : Group} {o' : ℕ} {out' : Bytes}
    (h : Heads inp outLen gs o out (g.encode ++ rest)) (hwf : g.WellFormed)
    (happly : g.apply (o, out) = some (o', out')) (hroom : out'.length ≤ outLen) :
    Heads inp outLen (gs ++ [g]) o' out' rest where
  split := by rw [h.split, encode_concat, List.append_assoc]
  wellFormed := by
    intro g' hg'
    rcases List.mem_append.mp hg' with hmem | hmem
    · exact h.wellFormed g' hmem
    · rw [List.mem_singleton.mp hmem]
      exact hwf
  expand := by rw [expand_concat, h.expand, Option.bind_some, happly]
  room := hroom

theorem step_eq (h : Heads inp outLen gs o out rest) :
    step inp outLen (behind gs o out) =
      (decodeInstructionOperators inp (encode gs).length o).bind fun op =>
        execute inp outLen op ⟨(encode gs).length + op.bitsUsed, o, out⟩ := by
  have hlen := h.length_encode_le
  have hroom := h.room
  have hin : ¬ inp.length * 8 < (encode gs).length := by omega
  have hout : ¬ outLen < out.length := by omega
  rw [step, behind, if_neg hout, if_neg hin]
  rfl

theorem step_header {hd : Header} (h : Heads inp outLen gs o out (hd.bits ++ rest))
    (hwf : hd.WellFormed) :
    step inp outLen (behind gs o out) =
      execute inp outLen (hd.opcode o) ⟨(encode gs ++ hd.bits).length, o, out⟩ := by
  have hbits : (hd.opcode o).bitsUsed = hd.bits.length := by cases hd <;> rfl
  rw [step_eq h, decodeInstructionOperators_header hwf h.split, Except.bind, hbits,
    List.length_append]

/-- A literal header is executed as the copy of its bytes. -/
theorem execute_literal {hd : Header} (hd0 : hd.bytes ≠ 0) (pos : ℕ) :
    execute inp outLen (hd.opcode o) ⟨pos, o, out⟩ =
      if TakenForEnd inp pos hd.bytes then .ok (.inr out)
      else (copyLiterals inp outLen hd.bytes pos out).map fun r => .inl ⟨r.1, o, r.2⟩ := by
  have hlit : execute inp outLen (hd.opcode o) ⟨pos, o, out⟩ =
        stepLiterals inp outLen (hd.opcode o) ⟨pos, o, out⟩ ∧
      (hd.opcode o).length = hd.bytes := by
    cases hd with
    | literal => exact ⟨rfl, rfl⟩
    | literals n => exact ⟨rfl, rfl⟩
    | matched _ _ => exact absurd rfl hd0
    | previous _ => exact absurd rfl hd0
  rw [hlit.1, stepLiterals, hlit.2]
  rfl

theorem execute_matched {p n : ℕ} (hp : 0 < p) (s : State) :
    execute inp outLen ((Header.matched p n).opcode o) s =
      stepMatch outLen ((Header.matched p n).opcode o) { s with matchOffset := p } := by
  have hne : ((Header.matched p n).opcode o).offset ≠ 0 := Nat.pos_iff_ne_zero.mp hp
  rw [execute]
  exact if_neg hne

theorem stepMatch_cases (outLen : ℕ) (op : Opcode) (s : State) :
    (0 < op.offset ∧ op.offset ≤ s.out.length ∧ s.out.length + op.length ≤ outLen ∧
      stepMatch outLen op s = .ok (.inl { s with out := copyBack op.offset op.length s.out })) ∨
    ((∃ e, stepMatch outLen op s = .error (.error e)) ∧
      ¬ (0 < op.offset ∧ op.offset ≤ s.out.length ∧ s.out.length + op.length ≤ outLen)) := by
  rw [stepMatch]
  split_ifs with hzero hover hunder
  · exact .inr ⟨⟨_, rfl⟩, by omega⟩
  · exact .inr ⟨⟨_, rfl⟩, by omega⟩
  · exact .inr ⟨⟨_, rfl⟩, by omega⟩
  · refine .inl ⟨by omega, by omega, by omega, ?_⟩
    rw [copyMatch_eq (by omega) (by omega) (by omega) le_rfl]
    rfl

/-- Both kinds of match group are executed as a match at the offset in force behind them. -/
theorem step_match {hd : Header} {p n : ℕ} (h : Heads inp outLen gs o out (hd.bits ++ rest))
    (hwf : hd.WellFormed) (hhd : hd = .matched p n ∨ hd = .previous n ∧ p = o) :
    step inp outLen (behind gs o out) =
      stepMatch outLen (hd.opcode o) ⟨(encode gs ++ hd.bits).length, p, out⟩ ∧
    (hd.opcode o).offset = p ∧ (hd.opcode o).length = n := by
  rw [step_header h hwf]
  rcases hhd with rfl | ⟨rfl, rfl⟩
  · exact ⟨execute_matched hwf.1 _, rfl, rfl⟩
  · exact ⟨rfl, rfl, rfl⟩

theorem step_taken {hd : Header} (h : Heads inp outLen gs o out (hd.bits ++ rest))
    (hwf : hd.WellFormed) (hend : TakenForEnd inp (encode gs ++ hd.bits).length hd.bytes) :
    step inp outLen (behind gs o out) = .ok (.inr out) := by
  rw [step_header h hwf, execute_literal (by rw [hend.1]; decide), if_pos hend]

/-- A literal group that does not fit the buffers is copied nevertheless. -/
theorem step_unfit {hd : Header} (h : Heads inp outLen gs o out (hd.bits ++ rest))
    (hwf : hd.WellFormed) (hend : ¬ TakenForEnd inp (encode gs ++ hd.bits).length hd.bytes)
    (hfit : ¬ (8 * hd.bytes ≤ rest.length ∧ out.length + hd.bytes ≤ outLen)) :
    ∃ f, step inp outLen (behind gs o out) = .error (.fault f) := by
  have hroom := h.room
  have hbytes : hd.bytes ≠ 0 := by
    intro hzero
    rw [hzero] at hfit
    omega
  have hsplit : bits inp = (encode gs ++ hd.bits) ++ rest := by rw [h.split, List.append_assoc]
  obtain ⟨f, hf⟩ := copyLiterals_fault hsplit hfit hroom
  refine ⟨f, ?_⟩
  rw [step_header h hwf, execute_literal hbytes, if_neg hend, hf]
  rfl

theorem step_group {g : Group} {o' : ℕ} {out' : Bytes}
    (h : Heads inp outLen gs o out (g.encode ++ rest)) (hwf : g.WellFormed)
    (hend : ¬ TakenForEnd inp (encode gs ++ g.header.bits).length g.header.bytes)
    (happly : g.apply (o, out) = some (o', out')) (hroom : out'.length ≤ outLen) :
    step inp outLen (behind gs o out) = .ok (.inl (behind (gs ++ [g]) o' out')) := by
  have hhead : Heads inp outLen gs o out (g.header.bits ++ (literalBits g.payload ++ rest)) := by
    rwa [← List.append_assoc]
  have hsplit : bits inp = (encode gs ++ g.header.bits) ++ (literalBits g.payload ++ rest) := by
    rw [hhead.split, List.append_assoc]
  have hlen : (encode (gs ++ [g])).length =
      ((encode gs ++ g.header.bits) ++ literalBits g.payload).length := by
    rw [encode_concat, Group.encode, List.append_assoc]
  have hgrow := Group.apply_length happly
  rw [behind, behind, hlen, ← behind]
  have hliteral : g.header.bytes ≠ 0 → o' = o → out' = out ++ g.payload →
      step inp outLen (behind gs o out) =
        .ok (.inl ⟨((encode gs ++ g.header.bits) ++ literalBits g.payload).length, o', out'⟩) := by
    intro hne ho hout
    subst ho hout
    rw [step_header hhead hwf, execute_literal hne, if_neg hend, ← g.length_payload, copyLiterals_literalBits hsplit
      (by rw [List.length_append] at hroom; omega)]
    rfl
  have hmatch : ∀ {p n : ℕ}, g.header = .matched p n ∨ g.header = .previous n ∧ p = o →
      0 < p ∧ p ≤ out.length ∧ out.length + n ≤ outLen → g.payload = [] →
      step inp outLen (behind gs o out) =
        .ok (.inl ⟨((encode gs ++ g.header.bits) ++ literalBits g.payload).length, p,
          copyBack p n out⟩) := by
    intro p n hhd hfits hpayload
    obtain ⟨hstep, hoff, hlength⟩ := step_match hhead hwf hhd
    rw [← hoff, ← hlength] at hfits
    rw [hstep, hpayload]
    rcases stepMatch_cases outLen (g.header.opcode o)
      ⟨(encode gs ++ g.header.bits).length, p, out⟩ with ⟨-, -, -, hok⟩ | ⟨-, hnot⟩
    · rw [hok, hoff, hlength]
      simp [literalBits]
    · exact absurd hfits hnot
  cases g with
  | literal b =>
    simp only [Group.apply, Option.some.injEq, Prod.mk.injEq] at happly
    exact hliteral Nat.one_ne_zero happly.1.symm happly.2.symm
  | literals bs =>
    simp only [Group.apply, Option.some.injEq, Prod.mk.injEq] at happly
    have hpos : 12 ≤ bs.length := hwf.1
    refine hliteral ?_ happly.1.symm happly.2.symm
    simp only [Group.header, Header.bytes]
    omega
  | matched p n =>
    simp only [Group.apply] at happly
    split_ifs at happly with hback
    simp only [Option.some.injEq, Prod.mk.injEq] at happly
    obtain ⟨rfl, rfl⟩ := happly
    rw [length_copyBack] at hroom
    exact hmatch (.inl rfl) (And.intro hwf.1 (And.intro hback hroom)) rfl
  | previous n =>
    simp only [Group.apply] at happly
    split_ifs at happly with hback
    simp only [Option.some.injEq, Prod.mk.injEq] at happly
    obtain ⟨rfl, rfl⟩ := happly
    rw [length_copyBack] at hroom
    exact hmatch (.inr ⟨rfl, rfl⟩) (And.intro hback.1 (And.intro hback.2 hroom)) rfl

/-- What one pass of the loop can do. -/
inductive Outcome (inp : Bytes) (outLen : ℕ) (gs : List Group) (out : Bytes) (rest : List Bool) :
    Except Stop (State ⊕ Bytes) → Prop
  | short (hrest : rest = [] ∨ rest = [true]) : Outcome inp outLen gs out rest (.error (.fault .inputRead))
  | refused (e : Errno) : Outcome inp outLen gs out rest (.error (.error e))
  | ended : Outcome inp outLen gs out rest (.ok (.inr out))
  | unfit (hd : Header) (rest' : List Bool) (f : Fault) (hwf : hd.WellFormed)
      (hrest : rest = hd.bits ++ rest')
      (hend : ¬ TakenForEnd inp (encode gs ++ hd.bits).length hd.bytes)
      (hfit : ¬ (8 * hd.bytes ≤ rest'.length ∧ out.length + hd.bytes ≤ outLen)) :
      Outcome inp outLen gs out rest (.error (.fault f))
  | taken (g : Group) (rest' : List Bool) (o' : ℕ) (out' : Bytes)
      (hrest : rest = g.encode ++ rest') (hnext : Heads inp outLen (gs ++ [g]) o' out' rest')
      (hend : ¬ TakenForEnd inp (encode gs ++ g.header.bits).length g.header.bytes) :
      Outcome inp outLen gs out rest (.ok (.inl (behind (gs ++ [g]) o' out')))

/-- A literal header is taken for the end, copied within the buffers, or copied beyond them. -/
theorem outcome_literal {hd : Header} (h : Heads inp outLen gs o out (hd.bits ++ rest))
    (hwf : hd.WellFormed) (mk : Bytes → Group)
    (hmk : ∀ bs, bs.length = hd.bytes → (mk bs).header = hd ∧ (mk bs).payload = bs ∧
      (mk bs).apply (o, out) = some (o, out ++ bs)) :
    Outcome inp outLen gs out (hd.bits ++ rest) (step inp outLen (behind gs o out)) := by
  by_cases hend : TakenForEnd inp (encode gs ++ hd.bits).length hd.bytes
  · rw [step_taken h hwf hend]
    exact .ended
  by_cases hfit : 8 * hd.bytes ≤ rest.length ∧ out.length + hd.bytes ≤ outLen
  · obtain ⟨bs, rest', hbs, hrest⟩ := exists_literalBits hfit.1
    obtain ⟨hheader, hpayload, happly⟩ := hmk bs hbs
    have hsplit : hd.bits ++ rest = (mk bs).encode ++ rest' := by
      rw [Group.encode, hheader, hpayload, List.append_assoc, hrest]
    have hroom : (out ++ bs).length ≤ outLen := by
      rw [List.length_append, hbs]
      exact hfit.2
    have hwf' : (mk bs).WellFormed := by rwa [Group.WellFormed, hheader]
    rw [← hheader] at hend
    rw [hsplit] at h ⊢
    rw [step_group h hwf' hend happly hroom]
    exact .taken (mk bs) rest' o (out ++ bs) rfl (h.concat hwf' happly hroom) hend
  · obtain ⟨f, hf⟩ := step_unfit h hwf hend hfit
    rw [hf]
    exact .unfit hd rest f hwf rfl hend hfit

theorem outcome_match {g : Group} {p n : ℕ} (h : Heads inp outLen gs o out (g.encode ++ rest))
    (hwf : g.WellFormed) (hg : g = .matched p n ∨ g = .previous n ∧ p = o) :
    Outcome inp outLen gs out (g.encode ++ rest) (step inp outLen (behind gs o out)) := by
  have hpayload : g.payload = [] := by rcases hg with rfl | ⟨rfl, -⟩ <;> rfl
  have hhd : g.header = .matched p n ∨ g.header = .previous n ∧ p = o := by
    rcases hg with rfl | ⟨rfl, rfl⟩
    · exact .inl rfl
    · exact .inr ⟨rfl, rfl⟩
  have hhead : Heads inp outLen gs o out (g.header.bits ++ rest) := by
    rwa [Group.encode, hpayload, literalBits, List.flatMap_nil, List.append_nil] at h
  obtain ⟨hstep, hoff, hlength⟩ := step_match hhead hwf hhd
  rcases stepMatch_cases outLen (g.header.opcode o)
    ⟨(encode gs ++ g.header.bits).length, p, out⟩ with ⟨hp, hback, hfits, -⟩ | ⟨⟨e, he⟩, -⟩
  · rw [hoff] at hp hback
    rw [hlength] at hfits
    have happly : g.apply (o, out) = some (p, copyBack p n out) := by
      rcases hg with rfl | ⟨rfl, rfl⟩
      · exact if_pos hback
      · exact if_pos ⟨hp, hback⟩
    have hroom : (copyBack p n out).length ≤ outLen := by
      rw [length_copyBack]
      exact hfits
    have hend : ¬ TakenForEnd inp (encode gs ++ g.header.bits).length g.header.bytes := by
      intro hend
      have hbytes := hend.1
      rw [← g.length_payload, hpayload] at hbytes
      cases hbytes
    rw [step_group h hwf hend happly hroom]
    exact .taken g rest p _ rfl (h.concat hwf happly hroom) hend
  · rw [hstep, he]
    exact .refused e

theorem step_outcome (h : Heads inp outLen gs o out rest) :
    Outcome inp outLen gs out rest (step inp outLen (behind gs o out)) := by
  rcases decodeInstructionOperators_cases h.split o with ⟨op, hop⟩ | herr | hshort
  · obtain ⟨hd, rest, hwf, rfl⟩ := decodeInstructionOperators_sound h.split hop
    cases hd with
    | literal =>
      exact outcome_literal h hwf (fun bs => .literal (bs.headD 0)) (by
        intro bs hbs
        obtain ⟨b, rfl⟩ := List.length_eq_one_iff.mp hbs
        exact ⟨rfl, rfl, rfl⟩)
    | literals n =>
      exact outcome_literal h hwf .literals (by
        rintro bs rfl
        exact ⟨rfl, rfl, rfl⟩)
    | matched p n =>
      have hencode : (Header.matched p n).bits = (Group.matched p n).encode :=
        (List.append_nil _).symm
      rw [hencode] at h ⊢
      exact outcome_match h hwf (.inl rfl)
    | previous n =>
      have hencode : (Header.previous n).bits = (Group.previous n).encode :=
        (List.append_nil _).symm
      rw [hencode] at h ⊢
      exact outcome_match h hwf (.inr ⟨rfl, rfl⟩)
  · rw [step_eq h, herr]
    exact .refused .efbig
  · rw [step_eq h, decodeInstructionOperators_short h.split hshort]
    exact .short hshort

theorem noneTaken_nil (inp : Bytes) : NoneTaken inp [] := by
  intro pre g post h
  simp at h

theorem noneTaken_concat {g : Group} : NoneTaken inp (gs ++ [g]) ↔ NoneTaken inp gs ∧
    ¬ TakenForEnd inp (encode gs ++ g.header.bits).length g.header.bytes := by
  constructor
  · intro h
    refine ⟨fun pre g' post heq => h pre g' (post ++ [g]) ?_, h gs g [] rfl⟩
    rw [heq, List.append_assoc, List.cons_append]
  · rintro ⟨h, hlast⟩ pre g' post heq
    rcases List.eq_nil_or_concat post with rfl | ⟨post, g'', rfl⟩
    · obtain ⟨rfl, hg⟩ := List.append_inj' heq rfl
      rw [← List.singleton_inj.mp hg]
      exact hlast
    · rw [List.concat_eq_append, ← List.cons_append, ← List.append_assoc] at heq
      exact h pre g' post (List.append_inj' heq rfl).1

theorem Heads.of_concat {g : Group} (h : Heads inp outLen (gs ++ [g]) o out rest) :
    ∃ o₀ out₀, Heads inp outLen gs o₀ out₀ (g.encode ++ rest) ∧
      g.apply (o₀, out₀) = some (o, out) := by
  have hexpand := h.expand
  rw [expand_concat] at hexpand
  obtain ⟨⟨o₀, out₀⟩, hgs, happly⟩ := Option.bind_eq_some_iff.mp hexpand
  refine ⟨o₀, out₀, ⟨?_, ?_, hgs, ?_⟩, happly⟩
  · rw [h.split, encode_concat, List.append_assoc]
  · exact fun g' hg' => h.wellFormed g' (List.mem_append_left _ hg')
  · have hgrow := Group.apply_length happly
    have hroom := h.room
    dsimp only at hgrow
    omega

/-- The loop comes to the end of every sequence of groups that heads the input, unless it takes one
of them for the end marker. -/
theorem decompressLoop_heads (h : Heads inp outLen gs o out rest) (hnone : NoneTaken inp gs)
    (fuel : ℕ) :
    decompressLoop inp outLen (gs.length + fuel) State.init =
      decompressLoop inp outLen fuel (behind gs o out) := by
  induction gs using List.reverseRecOn generalizing o out rest fuel with
  | nil =>
    have hexpand := h.expand
    obtain ⟨rfl, rfl⟩ : 0 = o ∧ [] = out := by simpa [NeonWrt.Mikrotik.expand] using hexpand
    rw [List.length_nil, Nat.zero_add]
    rfl
  | append_singleton gs g ih =>
    obtain ⟨o₀, out₀, hgs, happly⟩ := h.of_concat
    obtain ⟨hnone, hend⟩ := noneTaken_concat.mp hnone
    have hwf : g.WellFormed := h.wellFormed g (by simp)
    rw [List.length_append, List.length_singleton, Nat.add_assoc, Nat.add_comm 1 fuel,
      ih hgs hnone (fuel + 1), decompressLoop, step_group hgs hwf hend happly h.room]

/-- The loop ends with as many passes as there are bits left. -/
theorem decompressLoop_isSome (h : Heads inp outLen gs o out rest) {fuel : ℕ}
    (hfuel : rest.length < fuel) :
    ∃ r, decompressLoop inp outLen fuel (behind gs o out) = some r := by
  induction fuel generalizing gs o out rest with
  | zero => omega
  | succ fuel ih =>
    have hout := step_outcome h
    rw [decompressLoop]
    generalize step inp outLen (behind gs o out) = r at hout ⊢
    cases hout with
    | short _ => exact ⟨_, rfl⟩
    | refused _ => exact ⟨_, rfl⟩
    | ended => exact ⟨_, rfl⟩
    | unfit _ _ _ _ _ _ _ => exact ⟨_, rfl⟩
    | taken g rest' o' out' hrest hnext _ =>
      apply ih hnext
      have hpos := List.length_pos_iff.mpr g.header.bits_ne_nil
      rw [hrest, List.length_append, Group.encode, List.length_append] at hfuel
      omega

/-- With accesses that fit, no pass of the loop leaves a buffer. -/
theorem decompressLoop_ne_fault (hfit : AccessesFit inp outLen)
    (h : Heads inp outLen gs o out rest) (hnone : NoneTaken inp gs) (fuel : ℕ) (f : Fault) :
    decompressLoop inp outLen fuel (behind gs o out) ≠ some (.error (.fault f)) := by
  induction fuel generalizing gs o out rest with
  | zero => simp [decompressLoop]
  | succ fuel ih =>
    obtain ⟨hnil, htrue, hhd⟩ := hfit gs o out rest h hnone
    have hout := step_outcome h
    rw [decompressLoop]
    generalize step inp outLen (behind gs o out) = r at hout ⊢
    cases hout with
    | short hrest => exact absurd hrest (not_or.mpr ⟨hnil, htrue⟩)
    | refused _ => simp
    | ended => simp
    | unfit hd rest' _ hwf hrest hend hnot => exact absurd (hhd hd rest' hwf hrest hend) hnot
    | taken g rest' o' out' _ hnext hend => exact ih hnext (noneTaken_concat.mpr ⟨hnone, hend⟩)

/-- What ends the loop behind such a sequence of groups is what the decompressor returns. -/
theorem decompress_of_step (h : Heads inp outLen gs o out rest) (hnone : NoneTaken inp gs)
    {r : Except Stop (State ⊕ Bytes)} (hstep : step inp outLen (behind gs o out) = r) :
    (∀ e, r = .error e → decompress inp outLen = some (.error e)) ∧
    (∀ out', r = .ok (.inr out') → decompress inp outLen = some (.ok out')) := by
  have hlen := h.length_encode_le
  have hgs := length_le_length_encode gs
  have hfuel : inp.length * 8 + 2 = gs.length + ((inp.length * 8 + 1 - gs.length) + 1) := by omega
  rw [decompress, hfuel, decompressLoop_heads h hnone, decompressLoop, hstep]
  constructor
  · rintro e rfl
    rfl
  · rintro out' rfl
    rfl

end Pass

/-- Every access of the decompressor is within its buffers exactly if the input goes on wherever an
instruction starts and every literal group it comes to fits the input and the output. -/
theorem decompress_within_iff (inp : Bytes) (outLen : ℕ) :
    (∃ r, decompress inp outLen = some r ∧ ∀ f, r ≠ .error (.fault f)) ↔
      AccessesFit inp outLen := by
  constructor
  · rintro ⟨r, hr, hne⟩ gs o out rest h hnone
    have hsafe : ∀ f, step inp outLen (behind gs o out) ≠ .error (.fault f) := by
      intro f hf
      have hrun := (decompress_of_step h hnone hf).1 _ rfl
      rw [hr] at hrun
      exact hne f (Option.some.inj hrun)
    have hlong : ¬ (rest = [] ∨ rest = [true]) := by
      intro hshort
      apply hsafe .inputRead
      rw [step_eq h, decodeInstructionOperators_short h.split hshort]
      rfl
    refine ⟨fun hnil => hlong (.inl hnil), fun htrue => hlong (.inr htrue), ?_⟩
    rintro hd rest' hwf rfl hend
    by_contra hfit
    obtain ⟨f, hf⟩ := step_unfit h hwf hend hfit
    exact hsafe f hf
  · intro hfit
    have hstart := Heads.nil inp outLen
    obtain ⟨r, hr⟩ := decompressLoop_isSome hstart
      (show (bits inp).length < inp.length * 8 + 2 by rw [length_bits]; omega)
    refine ⟨r, hr, ?_⟩
    rintro f rfl
    exact decompressLoop_ne_fault hfit hstart (noneTaken_nil inp) _ f hr

/-- A literal byte is written to an output buffer without room for it. -/
theorem literal_written_outside : ¬ ∀ inp outLen, ∃ r, decompress inp outLen = some r ∧
    ∀ f, r ≠ .error (.fault f) := by
  have hrun : decompress [0x00, 0x00] 0 = some (.error (.fault .outputWrite)) := by decide +kernel
  intro h
  obtain ⟨r, hr, hne⟩ := h [0x00, 0x00] 0
  rw [hrun] at hr
  exact hne .outputWrite (Option.some.inj hr).symm

section Encodings

variable {inp : Bytes} {outLen : ℕ} {gs : List Group} {o : ℕ} {d : Bytes} {pad : List Bool}

/-- The first group taken for the end marker, if there is one. -/
theorem exists_first_taken (hnone : ¬ NoneTaken inp gs) :
    ∃ pre g post, gs = pre ++ g :: post ∧ NoneTaken inp pre ∧
      TakenForEnd inp (encode pre ++ g.header.bits).length g.header.bytes := by
  induction gs using List.reverseRecOn with
  | nil => exact absurd (noneTaken_nil inp) hnone
  | append_singleton gs g ih =>
    by_cases hgs : NoneTaken inp gs
    · refine ⟨gs, g, [], rfl, hgs, ?_⟩
      by_contra hend
      exact hnone (noneTaken_concat.mpr ⟨hgs, hend⟩)
    · obtain ⟨pre, g', post, heq, hpre, htaken⟩ := ih hgs
      refine ⟨pre, g', post ++ [g], ?_, hpre, htaken⟩
      rw [heq, List.append_assoc, List.cons_append]

theorem Heads.of_append {pre post : List Group} {rest : List Bool}
    (h : Heads inp outLen (pre ++ post) o d rest) :
    ∃ o₀ out₀, Heads inp outLen pre o₀ out₀ (encode post ++ rest) ∧
      post.foldlM (fun st g => g.apply st) (o₀, out₀) = some (o, d) := by
  have hexpand := h.expand
  rw [expand_append] at hexpand
  obtain ⟨⟨o₀, out₀⟩, hpre, hpost⟩ := Option.bind_eq_some_iff.mp hexpand
  refine ⟨o₀, out₀, ⟨?_, ?_, hpre, ?_⟩, hpost⟩
  · rw [h.split, encode_append, List.append_assoc]
  · exact fun g hg => h.wellFormed g (List.mem_append_left _ hg)
  · exact le_trans (foldlM_apply_length hpost) h.room

/-- The condition on positions says that no group is taken for the end marker. -/
theorem noneTaken_iff : NoneTaken inp gs ↔
    ∀ pre bs post, gs = pre ++ .literals bs :: post → bs.length = 12 →
      (encode pre).length + 12 + 96 ≤ inp.length := by
  have hheader : (Header.literals 12).bits.length = 12 := by decide
  constructor
  · intro h pre bs post heq hbs
    have hend := h pre _ post heq
    simp only [Group.header, Header.bytes, hbs, List.length_append, hheader, TakenForEnd,
      true_and, not_lt] at hend
    omega
  · rintro h pre g post heq ⟨hbytes, hpos⟩
    cases g with
    | literal b => cases hbytes
    | matched p n => cases hbytes
    | previous n => cases hbytes
    | literals bs =>
      have hbs : bs.length = 12 := hbytes
      have hlen := h pre bs post heq hbs
      simp only [Group.header, Header.bytes, hbs, List.length_append, hheader] at hpos
      omega

end Encodings

/-- An encoding of `d` is decoded exactly if none of its groups of twelve literal bytes starts in
the part of the stream where the test for the end marker holds. -/
theorem decompress_eq_iff {inp d : Bytes} {outLen o : ℕ} {gs : List Group} {pad : List Bool}
    (hwf : ∀ g ∈ gs, g.WellFormed) (hd : expand gs = some (o, d))
    (hinp : bits inp = encode gs ++ (endMarker ++ pad)) (hpad : pad.length < 8)
    (hout : d.length ≤ outLen) :
    decompress inp outLen = some (.ok d) ↔
      ∀ pre bs post, gs = pre ++ .literals bs :: post → bs.length = 12 →
        (encode pre).length + 12 + 96 ≤ inp.length := by
  have hheads : Heads inp outLen gs o d (endMarker ++ pad) := ⟨hinp, hwf, hd, hout⟩
  rw [← noneTaken_iff]
  constructor
  · intro hrun
    by_contra hnone
    -- the output stops before the first group taken for the end marker
    obtain ⟨pre, g, post, rfl, hpre, htaken⟩ := exists_first_taken hnone
    obtain ⟨o₀, out₀, hheads₀, hpost⟩ := hheads.of_append
    rw [List.foldlM_cons] at hpost
    obtain ⟨st, hg, hpost⟩ := Option.bind_eq_some_iff.mp hpost
    have hgrow := Group.apply_length hg
    have hgrow' := foldlM_apply_length hpost
    rw [encode_cons, Group.encode, List.append_assoc, List.append_assoc] at hheads₀
    have hstop := (decompress_of_step hheads₀ hpre
      (step_taken hheads₀ (hwf g (by simp)) htaken)).2 _ rfl
    rw [hrun] at hstop
    obtain rfl : d = out₀ := Except.ok.inj (Option.some.inj hstop)
    rw [htaken.1] at hgrow
    dsimp only at hgrow hgrow'
    omega
  · intro hnone
    have hlen := hheads.length_encode_le
    have hmarker : TakenForEnd inp (encode gs ++ (Header.literals 12).bits).length 12 := by
      refine ⟨rfl, ?_⟩
      rw [endMarker, List.length_append] at hlen
      rw [List.length_append]
      omega
    exact (decompress_of_step hheads hnone
      (step_taken hheads ⟨le_rfl, by decide⟩ hmarker)).2 _ rfl

/-- A literal byte, a match that repeats it and a match at the same offset. -/
def smallStream : List Group := [.literal 0x61, .matched 1 5, .previous 3]

theorem decompress_smallStream :
    (decompress [0x0c, 0x87, 0xa3, 0x0e, 0x00] 9 = some (.ok (List.replicate 9 0x61)) ↔
      ∀ pre bs post, smallStream = pre ++ .literals bs :: post → bs.length = 12 →
        (encode pre).length + 12 + 96 ≤ 5) ∧
    decompress [0x0c, 0x87, 0xa3, 0x0e, 0x00] 9 = some (.ok (List.replicate 9 0x61)) := by
  constructor
  · apply @decompress_eq_iff _ _ _ 1 _ [false, false]
    · intro g hg
      simp only [smallStream, List.mem_cons, List.not_mem_nil, or_false] at hg
      rcases hg with rfl | rfl | rfl
      · exact trivial
      · exact ⟨by decide, by decide, by decide, by decide⟩
      · exact ⟨by decide, by decide⟩
    · decide +kernel
    · decide +kernel
    · decide
    · decide
  · decide +kernel

/-- Twelve literal bytes, all of them within the input, are dropped. -/
theorem twelve_literals_dropped : ¬ ∀ (inp d : Bytes) (outLen o : ℕ) (gs : List Group)
    (pad : List Bool), (∀ g ∈ gs, g.WellFormed) → expand gs = some (o, d) →
    bits inp = encode gs ++ (endMarker ++ pad) → pad.length < 8 → d.length ≤ outLen →
    decompress inp outLen = some (.ok d) := by
  intro h
  have hrun := h [3, 96, 108, 104, 99, 105, 228, 100, 232, 98, 105, 111, 71, 56, 0]
    (ascii "calibration!") 12 0 [.literals (ascii "calibration!")] []
    (by
      intro g hg
      rw [List.mem_singleton.mp hg]
      exact ⟨by decide, by decide⟩)
    (by decide +kernel) (by decide +kernel) (by decide) (by decide)
  have hempty : decompress [3, 96, 108, 104, 99, 105, 228, 100, 232, 98, 105, 111, 71, 56, 0] 12 =
      some (.ok []) := by decide +kernel
  rw [hempty] at hrun
  exact absurd hrun (by decide)

end NeonWrt.Mikrotik
