import NeonWrt.Lib.Bits

/-!
# The LZ77 decompressor of RouterBOOT calibration data

The decoder of `rb_lz77.c`, as the code computes it. Every access to the input
and the output buffer is made explicit: a read or a write beyond a buffer stops
the model with a `Fault`, where the C program would go on with whatever lies
there. Lengths and bit positions are `size_t`; the caller hands in buffers of a
few pages, so their sums do not wrap, and the test `in_len * 8 > SIZE_MAX` on a
product of type `size_t` never fires. The allocation of the opcode succeeds.
-/

namespace NeonWrt.Mikrotik

open Lib

/-- An access outside a buffer. -/
inductive Fault where
  | inputRead
  | outputRead
  | outputWrite
  deriving DecidableEq, Repr

/-- The error codes the decoder returns, negated in the source. -/
inductive Errno where
  | efbig
  | eoverflow
  | enodata
  | einval
  | ebadmsg
  | enobufs
  | espipe
  deriving DecidableEq, Repr

/-- Why decoding stops short: an access outside a buffer or a returned error. -/
inductive Stop where
  | fault (f : Fault)
  | error (e : Errno)
  deriving DecidableEq, Repr

/-- `enum rb_lz77_instruction`. `INSTR_ERROR` is never produced. -/
inductive Instruction where
  | literalByte
  | previousOffset
  | long
  deriving DecidableEq, Repr

/-- `struct rb_lz77_instr_opcodes`, without the fields only traces read. -/
structure Opcode where
  instruction : Instruction
  offset : ℕ
  length : ℕ
  bitsUsed : ℕ
  deriving DecidableEq, Repr

/-- `MIKRO_LZ77_MAX_COUNT_BIT_LEN`. -/
def maxCountBitLen : ℕ := 27

/-- `rb_lz77_get_bit`. -/
def getBit (inp : Bytes) (inOffsetBit : ℕ) : Except Stop Bool :=
  match inp[inOffsetBit / 8]? with
  | some b => .ok (b.toNat.testBit (inOffsetBit % 8))
  | none => .error (.fault .inputRead)

/-- `rb_lz77_get_byte`: bit `i` of the stream becomes bit `7 - i` of the byte. -/
def getByte (inp : Bytes) (inOffsetBit : ℕ) : Except Stop UInt8 :=
  (List.range 8).foldlM
    (fun buf i => do
      let bit ← getBit inp (inOffsetBit + i)
      return buf + UInt8.ofNat (bit.toNat <<< (7 - i)))
    0

/-- The loop of `rb_lz77_decode_count`, with `left = max_pos - pos`. Returns the count and
the position behind it. -/
def decodeCountLoop (inp : Bytes) : ℕ → ℕ → ℕ → ℕ → Bool → Except Stop (ℕ × ℕ)
  | 0, _, _, _, _ => .error (.error .efbig)
  | left + 1, pos, shift, count, up => do
    let bit ← getBit inp pos
    let count := if bit then count + 1 <<< shift else count
    -- the shift grows until the first clear bit and shrinks from there on
    if up && bit then
      decodeCountLoop inp left (pos + 1) (shift + 1) count true
    else if shift = 0 then
      return (count, pos + 1)
    else
      decodeCountLoop inp left (pos + 1) (shift - 1) count false

/-- `rb_lz77_decode_count`: the count and the bits it took. -/
def decodeCount (inp : Bytes) (inOffsetBit shift count maxBits : ℕ) : Except Stop (ℕ × ℕ) := do
  let maxPos := min (inOffsetBit + maxBits) (inp.length * 8)
  let r ← decodeCountLoop inp (maxPos - inOffsetBit) inOffsetBit shift count true
  return (r.1, r.2 - inOffsetBit)

/-- `rb_lz77_decode_instruction`: the instruction and the bits it took. -/
def decodeInstruction (inp : Bytes) (inOffsetBit : ℕ) : Except Stop (Instruction × ℕ) := do
  if ← getBit inp inOffsetBit then
    if ← getBit inp (inOffsetBit + 1) then return (.long, 2)
    else return (.previousOffset, 2)
  else return (.literalByte, 1)

/-- `rb_lz77_decode_instruction_operators`. -/
def decodeInstructionOperators (inp : Bytes) (inOffsetBit previousOffset : ℕ) :
    Except Stop Opcode := do
  let (instruction, bitsUsed) ← decodeInstruction inp inOffsetBit
  match instruction with
  | .literalByte =>
    return ⟨.literalByte, 0, 1, bitsUsed⟩
  | .previousOffset =>
    let length ← decodeCount inp (inOffsetBit + bitsUsed) 0 1 maxCountBitLen
    return ⟨.previousOffset, previousOffset, length.1, bitsUsed + length.2⟩
  | .long =>
    let offset ← decodeCount inp (inOffsetBit + bitsUsed) 4 0 maxCountBitLen
    let bitsUsed := bitsUsed + offset.2
    if offset.1 = 0 then
      -- non-matching long group
      let length ← decodeCount inp (inOffsetBit + bitsUsed) 4 12 maxCountBitLen
      return ⟨.long, 0, length.1, bitsUsed + length.2⟩
    else
      -- matching group
      let length ← decodeCount inp (inOffsetBit + bitsUsed) 0 2 maxCountBitLen
      return ⟨.long, offset.1, length.1, bitsUsed + length.2⟩

/-! ### Writing the output

The bytes written so far stand for `out[0 .. output_ptr)`. -/

/-- The loop that copies `i` unaligned bytes of the input to the output. -/
def copyLiterals (inp : Bytes) (outLen : ℕ) : ℕ → ℕ → Bytes → Except Stop (ℕ × Bytes)
  | 0, inputBit, out => .ok (inputBit, out)
  | i + 1, inputBit, out => do
    let b ← getByte inp inputBit
    if out.length < outLen then
      copyLiterals inp outLen i (inputBit + 8) (out ++ [b])
    else
      .error (.fault .outputWrite)

/-- `memcpy(output_ptr, output_ptr - offset, n)`. -/
def memcpyBack (outLen offset n : ℕ) (out : Bytes) : Except Stop Bytes :=
  if out.length < offset then .error (.fault .outputRead)
  else if outLen < out.length + n then .error (.fault .outputWrite)
  else .ok (out ++ (out.drop (out.length - offset)).take n)

/-- The copies of a match group, which may source bytes of the group itself. The offset is not
zero, so a group takes at most as many rounds as it has bytes. -/
def copyMatch (outLen offset : ℕ) : ℕ → ℕ → Bytes → Except Stop Bytes
  | 0, matchLength, out => memcpyBack outLen offset matchLength out
  | rounds + 1, matchLength, out =>
    if offset < matchLength then do
      let out ← memcpyBack outLen offset offset out
      copyMatch outLen offset rounds (matchLength - offset) out
    else memcpyBack outLen offset matchLength out

/-- The variables the loop carries. -/
structure State where
  inputBit : ℕ
  matchOffset : ℕ
  out : Bytes
  deriving DecidableEq, Repr

/-- The match groups, after the fall through of the switch. -/
def stepMatch (outLen : ℕ) (op : Opcode) (s : State) : Except Stop (State ⊕ Bytes) :=
  if op.offset = 0 then .error (.error .ebadmsg)
  else if outLen < s.out.length + op.length then .error (.error .enobufs)
  else if s.out.length < op.offset then .error (.error .espipe)
  else do
    let out ← copyMatch outLen op.offset op.length op.length s.out
    return .inl { s with out := out }

/-- The groups of input bytes, with the test for the end marker. -/
def stepLiterals (inp : Bytes) (outLen : ℕ) (op : Opcode) (s : State) :
    Except Stop (State ⊕ Bytes) :=
  if op.length = 0xc ∧ inp.length < s.inputBit + op.length * 8 then .ok (.inr s.out)
  else do
    let r ← copyLiterals inp outLen op.length s.inputBit s.out
    return .inl { s with inputBit := r.1, out := r.2 }

/-- The switch over the instruction. -/
def execute (inp : Bytes) (outLen : ℕ) (op : Opcode) (s : State) : Except Stop (State ⊕ Bytes) :=
  match op.instruction with
  | .previousOffset => stepMatch outLen op s
  | .literalByte | .long =>
    if op.offset = 0 then stepLiterals inp outLen op s
    else stepMatch outLen op { s with matchOffset := op.offset }

/-- One pass of the loop of `rb_lz77_decompress`: the variables of the next pass, or the output
if this one meets the end marker. -/
def step (inp : Bytes) (outLen : ℕ) (s : State) : Except Stop (State ⊕ Bytes) :=
  if outLen < s.out.length then .error (.error .eoverflow)
  else if inp.length * 8 < s.inputBit then .error (.error .enodata)
  else do
    let op ← decodeInstructionOperators inp s.inputBit s.matchOffset
    execute inp outLen op { s with inputBit := s.inputBit + op.bitsUsed }

/-- The loop, for at most the given number of passes. -/
def decompressLoop (inp : Bytes) (outLen : ℕ) : ℕ → State → Option (Except Stop Bytes)
  | 0, _ => none
  | fuel + 1, s =>
    match step inp outLen s with
    | .error e => some (.error e)
    | .ok (.inr out) => some (.ok out)
    | .ok (.inl s) => decompressLoop inp outLen fuel s

/-- The state before the first pass. -/
def State.init : State := ⟨0, 0, []⟩

/-- `rb_lz77_decompress`: the output if it returns `0`. Each pass takes a bit of the input, which
bounds their number. -/
def decompress (inp : Bytes) (outLen : ℕ) : Option (Except Stop Bytes) :=
  decompressLoop inp outLen (inp.length * 8 + 2) State.init

end NeonWrt.Mikrotik
