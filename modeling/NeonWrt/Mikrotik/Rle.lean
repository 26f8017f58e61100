import NeonWrt.Mikrotik.Lz77
import NeonWrt.Mikrotik.SoftConfig

/-!
# The run-length code of RouterBOOT data

`routerboot_rle_decode`, with every access to its buffers, against the streams of
groups it stands for. A group is a byte with its number of repetitions, below 128,
or between 1 and 128 bytes that stand for themselves.

The decoder refuses inputs of less than two bytes and ends when less than two bytes
are left, so that a single byte may follow the last group. Its count is an `int`
that is compared with a `size_t`: a count of 2 ^ 31 or more turns negative, and a
large `size_t`.
-/

namespace NeonWrt.Mikrotik.Rle

open Lib

/-- `-ENOSPC`. -/
def eNoSpc : ℤ := -28

/-- What a call returns, what it leaves in `outlen`, and the bytes it has written. -/
structure Decoded where
  ret : ℤ
  outlen : ℕ
  out : Bytes
  deriving DecidableEq, Repr

/-- The variables of the loop: what lies in the input from `in` on, `inlen`, the bits of
`nbytes`, and the bytes before `out`. -/
structure State where
  rest : Bytes
  inlen : ℕ
  nbytes : ℕ
  out : Bytes
  deriving DecidableEq, Repr

/-- An `int`, given by its 32 bits, as a `size_t` of `w` bits. -/
def sizeT (w n : ℕ) : ℕ := if n < 2 ^ 31 then n else n + 2 ^ w - 2 ^ 32

/-- `*in++`. -/
def takeByte : Bytes → Except Fault (UInt8 × Bytes)
  | [] => .error .inputRead
  | b :: rest => .ok (b, rest)

/-- `*out++ = b`, in a buffer of some size. -/
def putByte (outlen : ℕ) (out : Bytes) (b : UInt8) : Except Fault Bytes :=
  if out.length < outlen then .ok (out ++ [b]) else .error .outputWrite

/-- `while (run-- > 0) *out++ = *in++;` -/
def copyRun (outlen : ℕ) : ℕ → Bytes → Bytes → Except Fault (Bytes × Bytes)
  | 0, rest, out => .ok (rest, out)
  | run + 1, rest, out => do
    let (b, rest) ← takeByte rest
    let out ← putByte outlen out b
    copyRun outlen run rest out

/-- `while (run-- > 0) *out++ = byte;` -/
def fillRun (outlen : ℕ) (byte : UInt8) : ℕ → Bytes → Except Fault Bytes
  | 0, out => .ok out
  | run + 1, out => do
    let out ← putByte outlen out byte
    fillRun outlen byte run out

/-- One round of the loop: the variables after it, or what the call returns. -/
def step (w outlen : ℕ) (s : State) : Except Fault (State ⊕ Decoded) := do
  let (b, rest) ← takeByte s.rest
  let inlen := s.inlen - 1
  if 128 ≤ b.toNat then
    -- `~run & 0xFF`, and one more
    let run := 255 - b.toNat + 1
    if inlen < run then return .inr ⟨eNoSpc, sizeT w s.nbytes, s.out⟩
    else
      let nbytes := (s.nbytes + run) % 2 ^ 32
      if outlen < sizeT w nbytes then return .inr ⟨eNoSpc, sizeT w nbytes, s.out⟩
      else
        let (rest, out) ← copyRun outlen run rest s.out
        return .inl ⟨rest, inlen - run, nbytes, out⟩
  else
    let (byte, rest) ← takeByte rest
    let nbytes := (s.nbytes + b.toNat) % 2 ^ 32
    if outlen < sizeT w nbytes then return .inr ⟨eNoSpc, sizeT w nbytes, s.out⟩
    else
      let out ← fillRun outlen byte b.toNat s.out
      return .inl ⟨rest, inlen - 1, nbytes, out⟩

/-- The loop, for some rounds. -/
def loop (w outlen : ℕ) : ℕ → State → Option (Except Fault Decoded)
  | 0, _ => none
  | fuel + 1, s =>
    if s.inlen < 2 then some (.ok ⟨0, sizeT w s.nbytes, s.out⟩)
    else
      match step w outlen s with
      | .error f => some (.error f)
      | .ok (.inr d) => some (.ok d)
      | .ok (.inl s) => loop w outlen fuel s

/-- `routerboot_rle_decode`, with a `size_t` of `w` bits. A round takes a byte at least, which
bounds their number. -/
def routerbootRleDecode (w : ℕ) (inp : Bytes) (outlen : ℕ) : Option (Except Fault Decoded) :=
  if inp.length < 2 then some (.ok ⟨eInval, outlen, []⟩)
  else loop w outlen (inp.length + 1) ⟨inp, inp.length, 0, []⟩

/-- A group of a stream. -/
inductive Group where
  | run (n : ℕ) (b : UInt8) (small : n < 128)
  | literal (bs : Bytes) (pos : 1 ≤ bs.length) (small : bs.length ≤ 128)

namespace Group

/-- The bytes of a group. A run byte from 128 on is minus the number of bytes after it. -/
def encode : Group → Bytes
  | run n b _ => [UInt8.ofNat n, b]
  | literal bs _ _ => UInt8.ofNat (256 - bs.length) :: bs

/-- What a group stands for. -/
def expand : Group → Bytes
  | run n b _ => List.replicate n b
  | literal bs _ _ => bs

end Group

/-- The bytes of a stream. -/
def encode (gs : List Group) : Bytes := gs.flatMap Group.encode

/-- What a stream stands for. -/
def expand (gs : List Group) : Bytes := gs.flatMap Group.expand

@[simp] theorem encode_nil : encode [] = [] := rfl

@[simp] theorem expand_nil : expand [] = [] := rfl

theorem encode_cons (g : Group) (gs : List Group) : encode (g :: gs) = g.encode ++ encode gs := rfl

theorem expand_cons (g : Group) (gs : List Group) : expand (g :: gs) = g.expand ++ expand gs := rfl

variable {w outlen : ℕ} {s : State} {rest out : Bytes} {fuel : ℕ}

theorem Group.two_le_length (g : Group) : 2 ≤ g.encode.length := by
  cases g with
  | run n b small => exact Nat.le_refl 2
  | literal bs pos small => exact Nat.succ_le_succ pos

theorem Group.length_le (g : Group) : g.expand.length ≤ 128 := by
  cases g with
  | run n b small =>
    rw [expand, List.length_replicate]
    exact Nat.le_of_lt small
  | literal bs pos small => exact small

/-- No group is the beginning of another one. -/
theorem Group.encode_append_inj {g g' : Group} {tail tail' : Bytes}
    (h : g.encode ++ tail = g'.encode ++ tail') : g = g' ∧ tail = tail' := by
  have hnat : ∀ n < 256, (UInt8.ofNat n).toNat = n := fun n hn =>
    UInt8.toNat_ofNat_of_lt' hn
  cases g with
  | run n b small =>
    cases g' with
    | run n' b' small' =>
      obtain ⟨hn, hb⟩ := List.cons.inj h
      obtain ⟨rfl, htail⟩ := List.cons.inj hb
      have heq := congrArg UInt8.toNat hn
      rw [hnat n (by omega), hnat n' (by omega)] at heq
      subst heq
      exact ⟨rfl, htail⟩
    | literal bs' pos' small' =>
      have heq := congrArg UInt8.toNat (List.cons.inj h).1
      rw [hnat n (by omega), hnat (256 - bs'.length) (by omega)] at heq
      omega
  | literal bs pos small =>
    cases g' with
    | run n' b' small' =>
      have heq := congrArg UInt8.toNat (List.cons.inj h).1
      rw [hnat n' (by omega), hnat (256 - bs.length) (by omega)] at heq
      omega
    | literal bs' pos' small' =>
      obtain ⟨hhead, hrest⟩ := List.cons.inj h
      have heq := congrArg UInt8.toNat hhead
      rw [hnat (256 - bs.length) (by omega), hnat (256 - bs'.length) (by omega)] at heq
      obtain ⟨rfl, htail⟩ := List.append_inj hrest (by omega)
      exact ⟨rfl, htail⟩

/-- A stream is split into its groups in one way. -/
theorem encode_append_inj {gs gs' : List Group} {tail tail' : Bytes} (htail : tail.length < 2)
    (htail' : tail'.length < 2) (h : encode gs ++ tail = encode gs' ++ tail') : gs = gs' := by
  have hshort : ∀ (g : Group) (gs : List Group) {t t' : Bytes}, t.length < 2 →
      t ≠ encode (g :: gs) ++ t' := by
    intro g gs t t' ht heq
    have htwo := g.two_le_length
    rw [heq, encode_cons, List.length_append, List.length_append] at ht
    omega
  induction gs generalizing gs' with
  | nil =>
    cases gs' with
    | nil => rfl
    | cons g' gs' => exact absurd h (hshort g' gs' htail)
  | cons g gs ih =>
    cases gs' with
    | nil => exact absurd h.symm (hshort g gs htail')
    | cons g' gs' =>
      rw [encode_cons, encode_cons, List.append_assoc, List.append_assoc] at h
      obtain ⟨rfl, hrest⟩ := Group.encode_append_inj h
      rw [ih hrest]

/-- An input of two bytes or more begins with a group or breaks off in a literal one. -/
theorem exists_group (h : 2 ≤ rest.length) :
    (∃ (g : Group) (tail : Bytes), rest = g.encode ++ tail) ∨
      ∃ b tail, rest = b :: tail ∧ 128 ≤ b.toNat ∧ tail.length < 255 - b.toNat + 1 := by
  match rest, h with
  | b :: c :: tail, _ =>
    have hb := b.toNat_lt
    by_cases hlit : 128 ≤ b.toNat
    · by_cases hshort : (c :: tail).length < 255 - b.toNat + 1
      · exact .inr ⟨b, c :: tail, rfl, hlit, hshort⟩
      · have hlen : ((c :: tail).take (255 - b.toNat + 1)).length = 255 - b.toNat + 1 := by
          rw [List.length_take]
          omega
        refine .inl ⟨.literal ((c :: tail).take (255 - b.toNat + 1)) (by omega) (by omega),
          (c :: tail).drop (255 - b.toNat + 1), ?_⟩
        rw [Group.encode, hlen, List.cons_append, List.take_append_drop,
          show 256 - (255 - b.toNat + 1) = b.toNat by omega, UInt8.ofNat_toNat]
    · refine .inl ⟨.run b.toNat c (by omega), tail, ?_⟩
      rw [Group.encode, UInt8.ofNat_toNat]
      rfl

theorem putByte_ok (b : UInt8) (h : out.length < outlen) :
    putByte outlen out b = .ok (out ++ [b]) :=
  if_pos h

theorem copyRun_ok (bs tail : Bytes) (h : out.length + bs.length ≤ outlen) :
    copyRun outlen bs.length (bs ++ tail) out = .ok (tail, out ++ bs) := by
  induction bs generalizing out with
  | nil => simp [copyRun]
  | cons b bs ih =>
    rw [List.length_cons] at h
    have hrest := @ih (out ++ [b]) (by simp; omega)
    rw [List.append_assoc] at hrest
    simp only [List.length_cons, copyRun, List.cons_append, takeByte, bind, Except.bind,
      putByte_ok b (show out.length < outlen by omega)]
    exact hrest

theorem fillRun_ok (b : UInt8) (n : ℕ) (h : out.length + n ≤ outlen) :
    fillRun outlen b n out = .ok (out ++ List.replicate n b) := by
  induction n generalizing out with
  | zero => simp [fillRun]
  | succ n ih =>
    have hrest := @ih (out ++ [b]) (by simp; omega)
    rw [List.append_assoc] at hrest
    simp only [fillRun, putByte_ok b (show out.length < outlen by omega), bind, Except.bind]
    exact hrest

/-- A count that does not turn negative, or that is larger than a small capacity in any case. -/
theorem lt_sizeT_iff {n : ℕ} (hw : 32 ≤ w) (h : outlen < 2 ^ 31 ∨ n < 2 ^ 31) :
    outlen < sizeT w n ↔ outlen < n := by
  have hpow : 2 ^ 32 ≤ 2 ^ w := Nat.pow_le_pow_right (by decide) hw
  unfold sizeT
  split_ifs with hn
  · rfl
  · constructor <;> intro <;> omega

/-- The variables at the start of a round, with the bytes written so far. -/
def State.at (rest out : Bytes) : State := ⟨rest, rest.length, out.length, out⟩

@[simp] theorem State.at_inlen (rest out : Bytes) : (State.at rest out).inlen = rest.length := rfl

theorem step_fits (g : Group) (tail : Bytes) (hw : 32 ≤ w)
    (hint : outlen < 2 ^ 31 ∨ out.length + g.expand.length < 2 ^ 31)
    (hfits : out.length + g.expand.length ≤ outlen) :
    step w outlen (.at (g.encode ++ tail) out) = .ok (.inl (.at tail (out ++ g.expand))) := by
  have hlt : out.length + g.expand.length < 2 ^ 31 := by omega
  have hroom : ¬ outlen < sizeT w (out.length + g.expand.length) := by
    rw [lt_sizeT_iff hw hint]
    omega
  cases g with
  | run n b small =>
    have hn : (UInt8.ofNat n).toNat = n := UInt8.toNat_ofNat_of_lt' (by unfold UInt8.size; omega)
    rw [Group.expand, List.length_replicate] at hlt hroom hfits
    simp only [step, State.at, Group.encode, List.cons_append, List.nil_append, takeByte, bind,
      Except.bind, hn, if_neg (Nat.not_le.mpr small), Nat.mod_eq_of_lt (show
        out.length + n < 2 ^ 32 by omega), if_neg hroom, fillRun_ok b n hfits, pure, Except.pure,
      Group.expand, List.length_append, List.length_replicate, List.length_cons,
      Nat.add_sub_cancel]
  | literal bs pos small =>
    have hb : (UInt8.ofNat (256 - bs.length)).toNat = 256 - bs.length :=
      UInt8.toNat_ofNat_of_lt' (by unfold UInt8.size; omega)
    have hrun : 255 - (256 - bs.length) + 1 = bs.length := by omega
    have hlong : ¬ (bs ++ tail).length + 1 - 1 < bs.length := by
      rw [List.length_append]
      omega
    rw [Group.expand] at hlt hroom hfits
    simp only [step, State.at, Group.encode, List.cons_append, takeByte, bind, Except.bind, hb,
      hrun, if_pos (show 128 ≤ 256 - bs.length by omega), List.length_cons, if_neg hlong,
      Nat.mod_eq_of_lt (show out.length + bs.length < 2 ^ 32 by omega), if_neg hroom,
      copyRun_ok bs tail hfits, pure, Except.pure, Group.expand]
    rw [List.length_append, List.length_append, Nat.add_sub_cancel, Nat.add_sub_cancel_left]

theorem step_full (g : Group) (tail : Bytes) (hw : 32 ≤ w)
    (hint : outlen < 2 ^ 31 ∨ out.length + g.expand.length < 2 ^ 31) (hout : out.length ≤ outlen)
    (hfull : outlen < out.length + g.expand.length) :
    step w outlen (.at (g.encode ++ tail) out) =
      .ok (.inr ⟨eNoSpc, sizeT w (out.length + g.expand.length), out⟩) := by
  have hle := g.length_le
  have hlt : out.length + g.expand.length < 2 ^ 32 := by omega
  have hroom : outlen < sizeT w (out.length + g.expand.length) := (lt_sizeT_iff hw hint).mpr hfull
  cases g with
  | run n b small =>
    have hn : (UInt8.ofNat n).toNat = n := UInt8.toNat_ofNat_of_lt' (by unfold UInt8.size; omega)
    rw [Group.expand, List.length_replicate] at hlt hroom ⊢
    simp only [step, State.at, Group.encode, List.cons_append, List.nil_append, takeByte, bind,
      Except.bind, hn, if_neg (Nat.not_le.mpr small), Nat.mod_eq_of_lt hlt, if_pos hroom, pure,
      Except.pure]
  | literal bs pos small =>
    have hb : (UInt8.ofNat (256 - bs.length)).toNat = 256 - bs.length :=
      UInt8.toNat_ofNat_of_lt' (by unfold UInt8.size; omega)
    have hrun : 255 - (256 - bs.length) + 1 = bs.length := by omega
    have hlong : ¬ (bs ++ tail).length + 1 - 1 < bs.length := by
      rw [List.length_append]
      omega
    rw [Group.expand] at hlt hroom ⊢
    simp only [step, State.at, Group.encode, List.cons_append, takeByte, bind, Except.bind, hb,
      hrun, if_pos (show 128 ≤ 256 - bs.length by omega), List.length_cons, if_neg hlong,
      Nat.mod_eq_of_lt hlt, if_pos hroom, pure, Except.pure]

/-- A round over a literal group that breaks off. -/
theorem step_short {b : UInt8} {tail : Bytes} (hlit : 128 ≤ b.toNat)
    (hshort : tail.length < 255 - b.toNat + 1) :
    step w outlen (.at (b :: tail) out) = .ok (.inr ⟨eNoSpc, sizeT w out.length, out⟩) := by
  simp only [step, State.at, takeByte, bind, Except.bind, if_pos hlit, List.length_cons,
    Nat.add_sub_cancel, if_pos hshort, pure, Except.pure]

/-- The count stays an `int`: the capacity is one, or all streams the input begins with stand for
less than 2 ^ 31 bytes. -/
def IntSized (outlen : ℕ) (inp : Bytes) (n : ℕ) : Prop :=
  outlen < 2 ^ 31 ∨ ∀ gs tail, inp = encode gs ++ tail → n + (expand gs).length < 2 ^ 31

theorem IntSized.head {g : Group} {tail : Bytes} {n : ℕ}
    (h : IntSized outlen (g.encode ++ tail) n) :
    outlen < 2 ^ 31 ∨ n + g.expand.length < 2 ^ 31 :=
  h.imp_right fun hall => by
    have hlt := hall [g] tail (by rw [encode_cons, encode_nil, List.append_nil])
    rwa [expand_cons, expand_nil, List.append_nil] at hlt

theorem IntSized.tail {g : Group} {tail : Bytes}
    (h : IntSized outlen (g.encode ++ tail) out.length) :
    IntSized outlen tail (out ++ g.expand).length :=
  h.imp_right fun hall gs tail' htail => by
    have hlt := hall (g :: gs) tail' (by rw [encode_cons, htail, List.append_assoc])
    rw [expand_cons, List.length_append] at hlt
    rw [List.length_append]
    omega

theorem IntSized.lt {n : ℕ} (h : IntSized outlen rest n) (hn : n ≤ outlen) : n < 2 ^ 31 := by
  rcases h with hsmall | hall
  · omega
  · exact hall [] rest rfl

theorem loop_end (hrest : rest.length < 2) (hout : out.length < 2 ^ 31) :
    loop w outlen (fuel + 1) (.at rest out) = some (.ok ⟨0, out.length, out⟩) := by
  rw [loop, State.at_inlen, if_pos hrest]
  exact congrArg (fun n => some (Except.ok (Decoded.mk 0 n out))) (if_pos hout)

theorem loop_return {d : Decoded} (hrest : ¬ rest.length < 2)
    (h : step w outlen (.at rest out) = .ok (.inr d)) :
    loop w outlen (fuel + 1) (.at rest out) = some (.ok d) := by
  rw [loop, State.at_inlen, if_neg hrest, h]

/-- The loop goes on behind a group that fits. -/
theorem loop_group (g : Group) (tail : Bytes) (hw : 32 ≤ w)
    (hint : IntSized outlen (g.encode ++ tail) out.length)
    (hfits : out.length + g.expand.length ≤ outlen) :
    loop w outlen (fuel + 1) (.at (g.encode ++ tail) out) =
      loop w outlen fuel (.at tail (out ++ g.expand)) := by
  have hlong : ¬ (g.encode ++ tail).length < 2 := by
    have htwo := g.two_le_length
    rw [List.length_append]
    omega
  rw [loop, State.at_inlen, if_neg hlong, step_fits g tail hw hint.head hfits]

theorem loop_encode (gs : List Group) (tail : Bytes) (htail : tail.length < 2) (hw : 32 ≤ w)
    (hint : IntSized outlen (encode gs ++ tail) out.length)
    (hfits : out.length + (expand gs).length ≤ outlen)
    (hfuel : (encode gs ++ tail).length < fuel) :
    loop w outlen fuel (.at (encode gs ++ tail) out) =
      some (.ok ⟨0, (out ++ expand gs).length, out ++ expand gs⟩) := by
  obtain ⟨fuel, rfl⟩ : ∃ k, fuel = k + 1 := ⟨fuel - 1, by omega⟩
  induction gs generalizing out fuel with
  | nil =>
    rw [expand_nil, List.append_nil]
    exact loop_end htail (hint.lt (by simpa using hfits))
  | cons g gs ih =>
    have htwo := g.two_le_length
    rw [encode_cons, List.append_assoc] at hint hfuel ⊢
    rw [expand_cons, List.length_append] at hfits
    rw [loop_group g _ hw hint (by omega), expand_cons, ← List.append_assoc]
    rw [List.length_append] at hfuel
    obtain ⟨fuel, rfl⟩ : ∃ k, fuel = k + 1 := ⟨fuel - 1, by omega⟩
    exact ih hint.tail (by rw [List.length_append]; omega) fuel (by omega)

/-- The loop ends without an access outside the buffers, and what it accepts is a stream. -/
theorem loop_sound (hw : 32 ≤ w) (hint : IntSized outlen rest out.length)
    (hout : out.length ≤ outlen) (hfuel : rest.length < fuel) :
    ∃ d, loop w outlen fuel (.at rest out) = some (.ok d) ∧ d.out.length ≤ outlen ∧
      (d.ret = 0 → ∃ gs tail, rest = encode gs ++ tail ∧ tail.length < 2 ∧
        out.length + (expand gs).length ≤ outlen) := by
  induction fuel generalizing rest out with
  | zero => omega
  | succ fuel ih =>
    by_cases hrest : rest.length < 2
    · exact ⟨_, loop_end hrest (hint.lt hout), hout, fun _ => ⟨[], rest, rfl, hrest, hout⟩⟩
    have hno : eNoSpc ≠ 0 := by decide
    rcases exists_group (Nat.le_of_not_lt hrest) with
      ⟨g, tail, rfl⟩ | ⟨b, tail, rfl, hlit, hshort⟩
    · by_cases hfits : out.length + g.expand.length ≤ outlen
      · have htwo := g.two_le_length
        rw [List.length_append] at hfuel
        obtain ⟨d, hloop, hd, hstream⟩ := ih hint.tail
          (by rw [List.length_append]; exact hfits) (show tail.length < fuel by omega)
        refine ⟨d, (loop_group g tail hw hint hfits).trans hloop, hd, fun hzero => ?_⟩
        obtain ⟨gs, tail', rfl, htail', hlen⟩ := hstream hzero
        refine ⟨g :: gs, tail', ?_, htail', ?_⟩
        · rw [encode_cons, List.append_assoc]
        · rw [List.length_append] at hlen
          rw [expand_cons, List.length_append]
          omega
      · have hstep := step_full g tail hw hint.head hout (Nat.lt_of_not_le hfits)
        exact ⟨_, loop_return hrest hstep, hout, fun hzero => absurd hzero hno⟩
    · exact ⟨_, loop_return hrest (step_short hlit hshort), hout, fun hzero => absurd hzero hno⟩

/-- For every input and capacity the decoder ends and keeps to its buffers, it accepts the inputs
of two bytes or more that are a stream that fits, with another byte at most, and gives what the
stream stands for. -/
theorem routerbootRleDecode_spec (hw : 32 ≤ w) {inp : Bytes} (hint : IntSized outlen inp 0) :
    ∃ d, routerbootRleDecode w inp outlen = some (.ok d) ∧ d.out.length ≤ outlen ∧
      (d.ret = 0 ↔ 2 ≤ inp.length ∧ ∃ gs tail, inp = encode gs ++ tail ∧ tail.length < 2 ∧
        (expand gs).length ≤ outlen) ∧
      ∀ gs tail, d.ret = 0 → inp = encode gs ++ tail → tail.length < 2 →
        d.out = expand gs ∧ d.outlen = (expand gs).length := by
  by_cases hlen : inp.length < 2
  · have hno : eInval ≠ 0 := by decide
    refine ⟨⟨eInval, outlen, []⟩, if_pos hlen, Nat.zero_le _, iff_of_false hno fun h => ?_,
      fun _ _ hzero => absurd hzero hno⟩
    omega
  obtain ⟨d, hloop, hout, hstream⟩ := @loop_sound w outlen inp [] (inp.length + 1) hw hint
    (Nat.zero_le _) (Nat.lt_succ_self _)
  -- what the loop leaves behind a stream that fits
  have hfit : ∀ gs tail, inp = encode gs ++ tail → tail.length < 2 →
      (expand gs).length ≤ outlen → d = ⟨0, (expand gs).length, expand gs⟩ := by
    rintro gs tail rfl htail hfits
    have hdecoded := @loop_encode w outlen [] _ gs tail htail hw hint (by simpa using hfits)
      (Nat.lt_succ_self _)
    exact Except.ok.inj (Option.some.inj (hloop.symm.trans hdecoded))
  refine ⟨d, (if_neg hlen).trans hloop, hout, ⟨fun hzero => ?_, ?_⟩, ?_⟩
  · obtain ⟨gs, tail, hinp, htail, hfits⟩ := hstream hzero
    exact ⟨Nat.le_of_not_lt hlen, gs, tail, hinp, htail, by simpa using hfits⟩
  · rintro ⟨-, gs, tail, hinp, htail, hfits⟩
    rw [hfit gs tail hinp htail hfits]
  · intro gs tail hzero hinp htail
    obtain ⟨gs', tail', hinp', htail', hfits⟩ := hstream hzero
    obtain rfl := encode_append_inj htail htail' (hinp.symm.trans hinp')
    rw [hfit gs tail hinp htail (by simpa using hfits)]
    exact ⟨rfl, rfl⟩

/-- Two groups, and a byte that is left. -/
theorem decode_two_groups :
    ∃ d, routerbootRleDecode 32 [3, 97, 254, 98, 99, 5] 5 = some (.ok d) ∧ d.out.length ≤ 5 ∧
      (d.ret = 0 ↔ 2 ≤ [3, 97, 254, 98, 99, (5 : UInt8)].length ∧ ∃ gs tail,
        [3, 97, 254, 98, 99, 5] = encode gs ++ tail ∧ tail.length < 2 ∧ (expand gs).length ≤ 5) ∧
      ∀ gs tail, d.ret = 0 → [3, 97, 254, 98, 99, 5] = encode gs ++ tail → tail.length < 2 →
        d.out = expand gs ∧ d.outlen = (expand gs).length :=
  routerbootRleDecode_spec (Nat.le_refl 32) (.inl (by decide))

/-- What is encoded is decoded again, by a buffer that is large enough. -/
theorem routerbootRleDecode_encode (hw : 32 ≤ w) {gs : List Group} (hne : gs ≠ [])
    (hint : IntSized outlen (encode gs) 0) (hfits : (expand gs).length ≤ outlen) :
    routerbootRleDecode w (encode gs) outlen =
      some (.ok ⟨0, (expand gs).length, expand gs⟩) := by
  have hlong : ¬ (encode gs).length < 2 := by
    obtain ⟨g, gs, rfl⟩ := List.exists_cons_of_ne_nil hne
    have htwo := g.two_le_length
    rw [encode_cons, List.length_append]
    omega
  rw [← List.append_nil (encode gs)] at hint
  have hdecoded := @loop_encode w outlen [] _ gs [] (by simp) hw hint (by simpa using hfits)
    (Nat.lt_succ_self _)
  rw [List.append_nil] at hdecoded
  exact (if_neg hlong).trans hdecoded

/-- Two groups come back. -/
theorem decode_encode_two : routerbootRleDecode 32
    (encode [.run 3 97 (by decide), .literal [98, 99] (by decide) (by decide)]) 6 =
      some (.ok ⟨0, (expand [.run 3 97 (by decide),
        .literal [98, 99] (by decide) (by decide)]).length,
        expand [.run 3 97 (by decide), .literal [98, 99] (by decide) (by decide)]⟩) :=
  routerbootRleDecode_encode (Nat.le_refl 32) (by simp) (.inl (by decide)) (by decide)

/-- The decoder accepts what is no stream: a byte may follow the last group. -/
theorem not_only_streams : ¬ ∀ (w : ℕ) (inp : Bytes) (outlen : ℕ), 32 ≤ w →
    ∃ d, routerbootRleDecode w inp outlen = some (.ok d) ∧
      (d.ret = 0 ↔ ∃ gs, inp = encode gs ∧ (expand gs).length ≤ outlen) := by
  intro h
  obtain ⟨d, hd, hiff⟩ := h 32 [1, 97, 5] 1 (Nat.le_refl 32)
  have hrun : routerbootRleDecode 32 [1, 97, 5] 1 = some (.ok ⟨0, 1, [97]⟩) := by decide
  obtain rfl := Except.ok.inj (Option.some.inj (hrun.symm.trans hd))
  obtain ⟨gs, hgs, -⟩ := hiff.mp rfl
  have hsplit : encode [Group.run 1 97 (by decide)] ++ [5] = encode gs ++ [] := by
    rw [List.append_nil, ← hgs]
    rfl
  obtain rfl := encode_append_inj (by decide) (by decide) hsplit
  exact absurd (congrArg List.length hgs) (by decide)

end NeonWrt.Mikrotik.Rle
