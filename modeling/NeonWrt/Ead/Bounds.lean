import NeonWrt.Ead.Message
import NeonWrt.Ead.Server

/-!
# Which bytes the emergency access daemon and its client touch

The handlers of `ead.c` and `ead-client.c` as the accesses they make: to the bytes that were
received, and to the buffers of the program. Lengths come from the capture, from the message and
from a byte in the message, and are tested in `size_t`, which has 32 or 64 bits.
-/

namespace NeonWrt.Ead

open NeonWrt.Lib

/-- The width of `size_t`. -/
inductive SizeT
  | bits32 | bits64
  deriving DecidableEq

/-- One more than `SIZE_MAX`. -/
def SizeT.modulus : SizeT → ℕ
  | .bits32 => 4294967296
  | .bits64 => 18446744073709551616

/-- `a + b` in `size_t`. -/
def SizeT.add (w : SizeT) (a b : ℕ) : ℕ := (a + b) % w.modulus

/-- An `int` as a `size_t`. -/
def SizeT.ofInt (w : SizeT) (n : ℤ) : ℕ := if n < 0 then w.modulus - n.natAbs else n.natAbs

/-- The buffers that are written to; the captured packet is one, as it is decrypted in place. -/
inductive Buffer
  | packet | pktbuf | username | abuf | msgbuf | saltbuf | pwSalt | bbuf
  deriving DecidableEq

/-- `PCAP_MRU`, up to which packets are captured -/
def pcapMru : ℕ := 1600

/-- `sizeof(msgbuf)` of the client -/
def msgbufSize : ℕ := 1500

/-- `MAXPARAMLEN` -/
def maxParamLen : ℕ := 256

/-- `MAXSALTLEN` -/
def maxSaltLen : ℕ := 32

/-- The length of a buffer, when so many bytes were received. -/
def Buffer.size (received : ℕ) : Buffer → ℕ
  | .packet => received
  | .pktbuf => pcapMru
  | .username => 32
  | .abuf => maxParamLen + 1
  | .msgbuf => msgbufSize
  | .saltbuf => maxSaltLen
  | .pwSalt => maxSaltLen
  | .bbuf => maxParamLen

/-- A number of bytes from an offset on: of what was received, or in a buffer. -/
inductive Access
  | read (off n : ℕ)
  | write (buf : Buffer) (off n : ℕ)
  deriving DecidableEq

/-- The bytes are there. -/
def Access.Inside (received : ℕ) : Access → Prop
  | .read off n => n = 0 ∨ off + n ≤ received
  | .write buf off n => n = 0 ∨ off + n ≤ buf.size received

instance (received : ℕ) : (a : Access) → Decidable (a.Inside received)
  | .read off n => inferInstanceAs (Decidable (n = 0 ∨ off + n ≤ received))
  | .write buf off n => inferInstanceAs (Decidable (n = 0 ∨ off + n ≤ buf.size received))

/-- Every access stays inside. -/
def AllInside (received : ℕ) (as : List Access) : Prop := ∀ a ∈ as, a.Inside received

instance (received : ℕ) (as : List Access) : Decidable (AllInside received as) :=
  inferInstanceAs (Decidable (∀ a ∈ as, a.Inside received))

/-- `if (bad) return;` before the rest. -/
def returnIf (bad : Prop) [Decidable bad] (rest : List Access) : List Access :=
  if bad then [] else rest

/-- `ntohl` of the word at an offset. -/
def u32At (b : Bytes) (off : ℕ) : UInt32 := UInt32.ofNat (Endian.big.getU32 b off)

/-- `ntohs` of the half word at an offset. -/
def u16At (b : Bytes) (off : ℕ) : ℕ := Endian.big.getU16 b off

/-- `EAD_MAGIC` -/
def eadMagic : UInt32 := 3671771902

/-- `EAD_PORT` -/
def eadPort : ℕ := 56026

/-- `sizeof(struct ead_msg)` -/
def msgSize : ℕ := 20

/-- `offsetof(struct ead_packet, msg)` -/
def msgOffset : ℕ := 42

/-- Where the data of a message start in a packet. -/
def dataOffset : ℕ := msgOffset + msgSize

/-- The accesses of `ead_decrypt_message` to the bytes from `base` on in a buffer. -/
def decryptAccesses (p : Primitives) (c : Crypt) (buf : Buffer) (base : ℕ) (enc : Bytes)
    (msgLen : UInt32) : List Access :=
  let len := messageLen msgLen
  let plain := opened p c enc len
  returnIf (badLength len) <|
    .read base (16 * rounds 16 len) :: .write buf base (16 * rounds 16 len) ::
    .read (base + 24) 1 :: returnIf (encPad ≤ padField plain) (
      .read (base + 20) 4 :: returnIf ((c.checkRxIv (ivField plain)).1 = false)
        [.read base 20, .write buf base 20, .read base (64 * rounds 64 len)])

/-- A packet from pcap: what was captured of it, and `h->len`, its length on the wire. -/
structure Capture where
  bytes : Bytes
  len : UInt32
  captured : bytes.length = min len.toNat pcapMru

/-- What the reaction to a packet depends on besides the packet: the host's byte order, the
variables of the daemon, the answer of `t_serververify`, and what becomes of a command, whose
output is read in portions of at most 1024 bytes. The library keeps `B` and the salt in buffers
of their largest lengths. -/
structure Daemon where
  bigEndian : Bool
  state : EadType
  instanceId : ℕ
  nid : ℕ
  devName : Bytes
  saltLen : ℕ
  saltLen_le : saltLen ≤ maxSaltLen
  numberLen : ℕ
  numberLen_le : numberLen ≤ maxParamLen
  crypt : Crypt
  verified : Bool
  outcome : CmdOutcome
  chunks_le : ∀ chunk ∈ outcome.chunks, chunk.length ≤ 1024

/-- `ead_send_packet_clone`, as far as it copies from the request. -/
def sendPacketClone : List Access :=
  [.read 0 msgOffset, .write .pktbuf 0 msgOffset, .write .pktbuf 6 6, .read 6 6,
    .write .pktbuf 0 6, .write .pktbuf 16 2, .read 58 4, .write .pktbuf 26 4, .read 26 4,
    .write .pktbuf 30 4, .write .pktbuf 24 2, .read 36 2, .write .pktbuf 34 2, .read 34 2,
    .write .pktbuf 36 2, .write .pktbuf 38 2, .write .pktbuf 40 2]

/-- `handle_ping` -/
def pingAccesses (d : Daemon) : List Access :=
  let slen := min d.devName.length 1024
  [.write .pktbuf 46 4, .write .pktbuf (dataOffset + 2) slen,
    .write .pktbuf (dataOffset + 2 + slen) 1, .write .pktbuf dataOffset 2]

/-- `handle_set_username`: `strncpy` reads up to the end of the name. -/
def usernameAccesses (pkt : Bytes) : List Access :=
  [.read dataOffset (min (((pkt.drop dataOffset).take 32).takeWhile (· ≠ 0)).length.succ 32),
    .write .username 0 32, .write .username 31 1, .write .pktbuf 46 4]

/-- `handle_get_prime` -/
def primeAccesses (d : Daemon) : List Access :=
  [.write .pktbuf 46 4, .write .pktbuf dataOffset 2, .write .pktbuf (dataOffset + 2) d.saltLen,
    .write .pktbuf (dataOffset + 34) maxSaltLen]

/-- `handle_send_a` -/
def sendAAccesses (d : Daemon) (pkt : Bytes) : List Access :=
  let msgLen := (u32At pkt 46).toNat
  .read 46 4 :: returnIf (msgLen < 1 ∨ msgLen - 1 > maxParamLen + 1)
    ([.read (dataOffset + 1) (msgLen - 1), .write .abuf 0 (msgLen - 1), .write .pktbuf 46 4,
      .write .pktbuf (dataOffset + 1) d.numberLen] ++ sendPacketClone)

/-- `handle_send_auth` -/
def sendAuthAccesses (d : Daemon) : List Access :=
  .read dataOffset 20 :: returnIf (d.verified = false)
    ([.write .pktbuf 46 4, .write .pktbuf dataOffset 20] ++ sendPacketClone)

/-- A reply with so many bytes of console data, sealed in `pktbuf`. -/
def outputAccesses (n : ℕ) : List Access :=
  [.write .pktbuf (dataOffset + encSize) 1, .write .pktbuf (dataOffset + encSize + 1) n,
    .write .pktbuf 46 4, .write .pktbuf dataOffset (enclenOf (1 + n))] ++ sendPacketClone

/-- The replies to a command of a type. -/
def commandAccesses (d : Daemon) (type : ℕ) : List Access :=
  if type = 0 then
    returnIf (d.outcome.pipe = false ∨ d.outcome.fork = false) (
      d.outcome.chunks.flatMap (fun chunk => outputAccesses chunk.length) ++
        returnIf (d.outcome.killed = true) (outputAccesses 0))
  else if type = 1 then returnIf (d.outcome.fork = false) (outputAccesses 0)
  else []

/-- `handle_send_cmd`: the command gets a NUL at its end. -/
def sendCmdAccesses (p : Primitives) (d : Daemon) (pkt : Bytes) : List Access :=
  let enc := pkt.drop dataOffset
  let msgLen := u32At pkt 46
  let opened := decryptMessage p d.crypt enc msgLen
  let datalen := wrapInt (opened.1 - cmdSize)
  .read 46 4 :: (decryptAccesses p d.crypt .packet dataOffset enc msgLen ++
    returnIf (datalen ≤ 0) (
      .read (dataOffset + encSize) cmdSize ::
      .write .packet (dataOffset + encSize + cmdSize + datalen.toNat) 1 ::
      commandAccesses d (ntohsByte d.bigEndian (opened.2.1.getD encSize 0))))

/-- The handler of a message type and the length its message needs. -/
def packetHandler (p : Primitives) (d : Daemon) (pkt : Bytes) : ℤ → Option (List Access × ℤ)
  | 0 => some (pingAccesses d ++ sendPacketClone, 0)
  | 2 => some (usernameAccesses pkt ++ sendPacketClone, 32)
  | 4 => some (primeAccesses d ++ sendPacketClone, 0)
  | 6 => some (sendAAccesses d pkt, 1)
  | 8 => some (sendAuthAccesses d, 20)
  | 10 => some (sendCmdAccesses p d pkt, cmdSize + encSize)
  | _ => none

/-- `parse_message` for a packet of length `len` -/
def parsePacket (p : Primitives) (d : Daemon) (pkt : Bytes) (len : ℤ) : List Access :=
  let type := messageLen (u32At pkt 50)
  .read 50 4 :: returnIf (type ≥ EadType.getPrime.code ∧ d.state.code ≠ type) (
  .read 56 2 :: returnIf (type ≠ EadType.ping.code ∧
      (u16At pkt 56 &&& 0xf000) >>> 12 ≠ d.instanceId) (
  match packetHandler p d pkt type with
  | none => []
  | some (handler, minLen) =>
    returnIf (len < packetSize + minLen) (
      .write .pktbuf 42 4 :: .write .pktbuf 50 4 :: .write .pktbuf 54 2 :: .read 56 2 ::
      .write .pktbuf 56 2 :: .write .pktbuf 46 4 :: handler)))

/-- `handle_packet` -/
def handlePacket (w : SizeT) (p : Primitives) (d : Daemon) (cap : Capture) : List Access :=
  let pkt := cap.bytes
  returnIf (cap.len.toNat < dataOffset) (
  .read 12 2 :: returnIf (u16At pkt 12 ≠ 0x0800) (
  .read 0 6 :: returnIf (pkt.take 6 ≠ List.replicate 6 255) (
  .read 23 1 :: returnIf (pkt.getD 23 0 ≠ 17) (
  .read 36 2 :: returnIf (u16At pkt 36 ≠ eadPort) (
  .read 42 4 :: returnIf (u32At pkt 42 ≠ eadMagic) (
  .read 46 4 :: returnIf (cap.len.toNat < w.add dataOffset (u32At pkt 46).toNat) (
  .read 54 2 :: returnIf (u16At pkt 54 ≠ 0xffff ∧ u16At pkt 54 ≠ d.nid) (
  parsePacket p d pkt (messageLen cap.len)))))))))

/-- What the reaction to a datagram depends on in the client. -/
structure Client where
  nid : ℕ
  authType : ℕ
  crypt : Crypt

/-- The handlers that `send_packet` is called with. -/
inductive Reply
  | pong | none | prime | b | doneAuth | cmdData
  deriving DecidableEq

/-- The type of the message that a handler is for. -/
def Reply.type : Reply → EadType
  | .pong => .pong
  | .none => .ackUsername
  | .prime => .prime
  | .b => .sendB
  | .doneAuth => .doneAuth
  | .cmdData => .resultCmd

/-- `handle_pong`; the name is printed up to the NUL. -/
def pongAccesses (c : Client) (rx : Bytes) : List Access :=
  let len := messageLen (u32At rx 4 - 2)
  .read 4 4 :: returnIf (len ≤ 0) (
    .write .msgbuf (msgSize + 2 + len.toNat) 1 :: .read msgSize 2 ::
    if c.nid = 0xffff then [.read 12 2, .read (msgSize + 2) len.toNat, .read 14 2]
    else [.read 14 2])

/-- `handle_prime` -/
def primeReplyAccesses (c : Client) (rx : Bytes) : List Access :=
  let saltLen := (rx.getD 21 0).toNat
  [.read 21 1, .read 22 saltLen, .write .saltbuf 0 saltLen] ++
    (if c.authType = 1 then
      [.read 54 maxSaltLen, .write .pwSalt 0 maxSaltLen, .write .pwSalt (maxSaltLen - 1) 1]
    else []) ++ [.read 20 1]

/-- `handle_b` -/
def bAccesses (w : SizeT) (rx : Bytes) : List Access :=
  let len := messageLen (u32At rx 4 - 1)
  [.read 4 4, .read 21 (w.ofInt len), .write .bbuf 0 (w.ofInt len)]

/-- `handle_done_auth`, which compares all of the answer. -/
def doneAuthAccesses : List Access := [.read msgSize 20]

/-- `handle_cmd_data` -/
def cmdDataAccesses (p : Primitives) (c : Client) (rx : Bytes) : List Access :=
  let enc := rx.drop msgSize
  let msgLen := u32At rx 4
  let datalen := wrapInt ((decryptMessage p c.crypt enc msgLen).1 - 1)
  .read 4 4 :: (decryptAccesses p c.crypt .msgbuf msgSize enc msgLen ++
    returnIf (datalen < 0)
      [.read (msgSize + encSize + 1) datalen.toNat, .read (msgSize + encSize) 1])

/-- The accesses of a handler. -/
def Reply.accesses (w : SizeT) (p : Primitives) (c : Client) (rx : Bytes) : Reply → List Access
  | .pong => pongAccesses c rx
  | .none => []
  | .prime => primeReplyAccesses c rx
  | .b => bAccesses w rx
  | .doneAuth => doneAuthAccesses
  | .cmdData => cmdDataAccesses p c rx

/-- What `read` leaves of a datagram in `msgbuf`. -/
def received (datagram : Bytes) : Bytes := datagram.take msgbufSize

/-- `send_packet` on a datagram that arrives. -/
def sendPacket (w : SizeT) (p : Primitives) (c : Client) (handler : Reply) (datagram : Bytes) :
    List Access :=
  let rx := received datagram
  .write .msgbuf 0 rx.length :: returnIf (rx.length < msgSize) (
  .read 4 4 :: returnIf (rx.length < w.add msgSize (u32At rx 4).toNat) (
  .read 0 4 :: returnIf (u32At rx 0 ≠ eadMagic) (
  .read 12 2 :: returnIf (c.nid ≠ 0xffff ∧ u16At rx 12 ≠ c.nid) (
  .read 8 4 :: returnIf (messageLen (u32At rx 8) ≠ handler.type.code) (
  handler.accesses w p c rx)))))

section Inside

variable {n : ℕ} {a : Access} {as bs : List Access} {bad : Prop} [Decidable bad]

@[simp] theorem allInside_nil : AllInside n [] := by simp [AllInside]

@[simp] theorem allInside_cons : AllInside n (a :: as) ↔ a.Inside n ∧ AllInside n as := by
  simp [AllInside]

@[simp] theorem allInside_append : AllInside n (as ++ bs) ↔ AllInside n as ∧ AllInside n bs := by
  simp [AllInside, or_imp, forall_and]

@[simp] theorem allInside_returnIf : AllInside n (returnIf bad as) ↔ (¬ bad → AllInside n as) := by
  unfold returnIf
  split_ifs with h <;> simp [h]

@[simp] theorem inside_read {off m : ℕ} :
    (Access.read off m).Inside n ↔ m = 0 ∨ off + m ≤ n := Iff.rfl

@[simp] theorem inside_write {buf : Buffer} {off m : ℕ} :
    (Access.write buf off m).Inside n ↔ m = 0 ∨ off + m ≤ buf.size n := Iff.rfl

end Inside

section Opening

variable (p : Primitives) (c : Crypt) (enc : Bytes) (msgLen : UInt32)

theorem rounds_of_nonpos {size : ℕ} {len : ℤ} (hsize : 0 < size) (h : len ≤ 0) :
    rounds size len = 0 := by
  have : (len + (size - 1)) / (size : ℤ) < 1 := Int.ediv_lt_of_lt_mul (by omega) (by omega)
  unfold rounds
  omega

/-- A message that is opened has whole blocks, or a length that counts as negative. -/
theorem rounds_of_not_badLength {len : ℤ} (h : ¬ badLength len) :
    16 * rounds 16 len = len.toNat ∧ 64 * rounds 64 len = len.toNat ∧ (0 ≤ len → 64 ≤ len) := by
  rw [badLength, not_or] at h
  by_cases hneg : len < 0
  · rw [rounds_of_nonpos (by decide) (by omega), rounds_of_nonpos (by decide) (by omega)]
    omega
  · obtain ⟨k, rfl⟩ : ∃ k : ℕ, len = (64 * k : ℕ) := by
      have hmod := h.2
      rw [Int.tmod_eq_emod_of_nonneg (by omega), encPad] at hmod
      exact ⟨(len / 64).toNat, by omega⟩
    have h16 : rounds 16 ((64 * k : ℕ) : ℤ) = 4 * k := by
      rw [show 64 * k = 16 * (4 * k) by omega]
      exact rounds_mul (by decide)
    rw [h16, rounds_mul (by decide)]
    omega

theorem nonneg_of_badLength {len : ℤ} (h : badLength len) : 0 ≤ len := by
  by_contra hneg
  have hmod : 0 ≤ (-len).tmod encPad := Int.tmod_nonneg _ (by omega)
  rw [Int.neg_tmod] at hmod
  rw [badLength] at h
  omega

/-- Opening a message stays inside if the message was received, its fields included. -/
theorem allInside_decryptAccesses_iff {n base : ℕ} {buf : Buffer} (hbuf : n ≤ buf.size n) :
    AllInside n (decryptAccesses p c buf base enc msgLen) ↔
      badLength (messageLen msgLen) ∨
        base + (messageLen msgLen).toNat ≤ n ∧ base + encSize ≤ n := by
  unfold decryptAccesses
  by_cases hbad : badLength (messageLen msgLen)
  · simp [hbad]
  obtain ⟨h16, h64, -⟩ := rounds_of_not_badLength hbad
  simp only [allInside_returnIf, allInside_cons, allInside_nil, inside_read, inside_write, hbad,
    not_false_eq_true, true_imp_iff, h16, h64, false_or, and_true, encSize]
  constructor
  · rintro ⟨hread, -, hpad, -⟩
    omega
  · rintro ⟨hall, hfields⟩
    exact ⟨Or.inr hall, Or.inr (hall.trans hbuf), by omega, fun _ => ⟨by omega,
      fun _ => ⟨by omega, by omega, Or.inr hall⟩⟩⟩

theorem decryptMessage_fst : (decryptMessage p c enc msgLen).1 = 0 ∨
    Ahead p c enc msgLen ∧ (decryptMessage p c enc msgLen).1 =
      wrapInt (messageLen msgLen - (padField (opened p c enc (messageLen msgLen)) + encSize)) := by
  by_cases h : Ahead p c enc msgLen
  · obtain ⟨hlen, hpad, hlt, hle⟩ := h
    have hcheck : c.checkRxIv (ivField (opened p c enc (messageLen msgLen))) =
        (true, { c with rxIv := ivField (opened p c enc (messageLen msgLen)) }) := by
      rw [Crypt.checkRxIv, if_neg (UInt32.not_le.mpr hlt), if_neg (UInt32.not_lt.mpr hle)]
    rw [decryptMessage, if_neg hlen, if_neg (not_le.mpr hpad), hcheck]
    simp only [Bool.not_true, Bool.false_eq_true, if_false]
    split_ifs with hhash
    · exact Or.inl rfl
    · exact Or.inr ⟨⟨hlen, hpad, hlt, hle⟩, rfl⟩
  · exact Or.inl (decryptMessage_of_not_ahead p c enc msgLen h).1

variable {p c msgLen}

/-- The test of the length against what was received: when it passes because the sum wrapped,
the length counts as negative. -/
theorem messageLen_of_add_le {w : SizeT} {k n : ℕ} (hk : k ≤ dataOffset) (hn : n < 2147483648)
    (h : w.add k msgLen.toNat ≤ n) :
    -(k : ℤ) ≤ messageLen msgLen ∧ k + (messageLen msgLen).toNat ≤ n + k ∧
      (0 ≤ messageLen msgLen → k + (messageLen msgLen).toNat ≤ n) := by
  have hlt := msgLen.toNat_lt
  simp only [dataOffset, msgOffset, msgSize] at hk
  unfold messageLen
  cases w <;> simp only [SizeT.add, SizeT.modulus] at h <;> split_ifs <;> omega

theorem wrapInt_of_le {m : ℤ} (h : -2147483648 ≤ m) : wrapInt m = m := if_neg (by omega)

theorem decryptMessage_ge {k : ℕ} (hk : k ≤ dataOffset) (h : -(k : ℤ) ≤ messageLen msgLen) :
    -150 ≤ (decryptMessage p c enc msgLen).1 := by
  rcases decryptMessage_fst p c enc msgLen with hzero | ⟨hahead, hres⟩
  · omega
  · have hpad := hahead.2.1
    simp only [dataOffset, msgOffset, msgSize, encPad] at hk hpad
    rw [hres, wrapInt_of_le (by rw [encSize]; omega), encSize]
    omega

/-- The contents of a message that was opened end before its padding. -/
theorem decryptMessage_contents {k : ℕ} (hk : k ≤ dataOffset) (h : -(k : ℤ) ≤ messageLen msgLen)
    (hpos : 0 < (decryptMessage p c enc msgLen).1) :
    (Ahead p c enc msgLen ∧ Genuine p c enc msgLen) ∧ 0 ≤ messageLen msgLen ∧
      (decryptMessage p c enc msgLen).1 =
        messageLen msgLen - (padField (opened p c enc (messageLen msgLen)) + encSize) := by
  rcases decryptMessage_fst p c enc msgLen with hzero | ⟨hahead, hres⟩
  · omega
  · have hgenuine := (decryptMessage_pos_iff p c enc msgLen hahead).mp hpos
    have hpad := hahead.2.1
    simp only [dataOffset, msgOffset, msgSize] at hk
    simp only [encPad, encSize] at hpad hres ⊢
    rw [wrapInt_of_le (by omega)] at hres
    exact ⟨⟨hahead, hgenuine⟩, by omega, hres⟩

end Opening

/-- A packet gets as far as `parse_message`. -/
def Dispatched (w : SizeT) (d : Daemon) (cap : Capture) : Prop :=
  let pkt := cap.bytes
  dataOffset ≤ cap.len.toNat ∧ u16At pkt 12 = 0x0800 ∧ pkt.take 6 = List.replicate 6 255 ∧
    pkt.getD 23 0 = 17 ∧ u16At pkt 36 = eadPort ∧ u32At pkt 42 = eadMagic ∧
    w.add dataOffset (u32At pkt 46).toNat ≤ cap.len.toNat ∧
    (u16At pkt 54 ≠ 0xffff → u16At pkt 54 = d.nid)

/-- The packet is a command for this instance, in a session. -/
def IsCommand (d : Daemon) (cap : Capture) : Prop :=
  messageLen (u32At cap.bytes 50) = EadType.sendCmd.code ∧ d.state = .sendCmd ∧
    (u16At cap.bytes 56 &&& 0xf000) >>> 12 = d.instanceId ∧
    packetSize + (cmdSize + encSize) ≤ messageLen cap.len

/-- A sealed command was captured whole, and if it is accepted and has no padding, at least one
byte was captured behind it. -/
def CommandFits (p : Primitives) (d : Daemon) (cap : Capture) : Prop :=
  let enc := cap.bytes.drop dataOffset
  let msgLen := u32At cap.bytes 46
  let len := messageLen msgLen
  badLength len ∨ dataOffset + len.toNat ≤ cap.bytes.length ∧
    (Ahead p d.crypt enc msgLen ∧ Genuine p d.crypt enc msgLen →
      padField (opened p d.crypt enc len) = 0 → dataOffset + len.toNat < cap.bytes.length)

section Server

variable {w : SizeT} {p : Primitives} {d : Daemon} {cap : Capture} {n : ℕ}

theorem allInside_sendPacketClone (h : dataOffset ≤ n) : AllInside n sendPacketClone := by
  simp only [dataOffset, msgOffset, msgSize] at h
  simp only [sendPacketClone, allInside_cons, allInside_nil, inside_read, inside_write,
    Buffer.size, pcapMru, msgOffset, and_true]
  omega

theorem allInside_outputAccesses (h : dataOffset ≤ n) {m : ℕ} (hm : m ≤ 1024) :
    AllInside n (outputAccesses m) := by
  have hpad := padOf_lt (1 + m)
  have hclone := allInside_sendPacketClone h
  simp only [outputAccesses, allInside_append, allInside_cons, allInside_nil, inside_write,
    Buffer.size, pcapMru, dataOffset, msgOffset, msgSize, encSize, enclenOf, and_true]
  exact ⟨by omega, hclone⟩

theorem allInside_commandAccesses (h : dataOffset ≤ n) (type : ℕ) :
    AllInside n (commandAccesses d type) := by
  have hzero : AllInside n (outputAccesses 0) := allInside_outputAccesses h (by decide)
  have hchunks : AllInside n (d.outcome.chunks.flatMap fun b => outputAccesses b.length) := by
    intro a ha
    obtain ⟨chunk, hmem, ha⟩ := List.mem_flatMap.mp ha
    exact allInside_outputAccesses h (d.chunks_le chunk hmem) a ha
  unfold commandAccesses
  split_ifs
  · simp only [allInside_returnIf, allInside_append]
    exact fun _ => ⟨hchunks, fun _ => hzero⟩
  · simp only [allInside_returnIf]
    exact fun _ => hzero
  · exact allInside_nil

/-- A length that passes a test against a positive one was not cut by the conversion. -/
theorem Capture.len_eq {m : ℤ} (h : m ≤ messageLen cap.len) (hm : 0 < m) :
    cap.len.toNat < 2147483648 ∧ messageLen cap.len = cap.len.toNat := by
  have hlt := cap.len.toNat_lt
  unfold messageLen at h ⊢
  split_ifs at h ⊢ <;> omega

theorem allInside_usernameAccesses {pkt : Bytes} (h : dataOffset + 32 ≤ n) :
    AllInside n (usernameAccesses pkt) := by
  simp only [dataOffset, msgOffset, msgSize] at h
  simp only [usernameAccesses, allInside_cons, allInside_nil, inside_read, inside_write,
    Buffer.size, pcapMru, dataOffset, msgOffset, msgSize, and_true]
  omega

theorem allInside_sendAAccesses (hlen : dataOffset + 1 ≤ cap.len.toNat)
    (hmsg : (u32At cap.bytes 46).toNat ≤ 258 →
      dataOffset + (u32At cap.bytes 46).toNat ≤ cap.len.toNat) :
    AllInside cap.bytes.length (sendAAccesses d cap.bytes) := by
  have hcap := cap.captured
  have hnumber := d.numberLen_le
  have hclone : AllInside cap.bytes.length sendPacketClone := by
    refine allInside_sendPacketClone ?_
    simp only [pcapMru, dataOffset, msgOffset, msgSize] at hcap hlen ⊢
    omega
  simp only [pcapMru, dataOffset, msgOffset, msgSize, maxParamLen] at hcap hlen hmsg hnumber
  simp only [sendAAccesses, allInside_append, allInside_cons, allInside_nil, allInside_returnIf,
    inside_read, inside_write, and_true]
  simp only [Buffer.size, pcapMru, dataOffset, msgOffset, msgSize, maxParamLen]
  exact ⟨by omega, fun hmax => ⟨by omega, hclone⟩⟩

/-- All but a sealed command stay inside once the lengths were tested. -/
theorem allInside_packetHandler {type minLen : ℤ} {as : List Access}
    (hhandler : packetHandler p d cap.bytes type = some (as, minLen))
    (hlen : packetSize + minLen ≤ messageLen cap.len)
    (hmsg : w.add dataOffset (u32At cap.bytes 46).toNat ≤ cap.len.toNat)
    (htype : type ≠ EadType.sendCmd.code) : AllInside cap.bytes.length as := by
  have hcap := cap.captured
  have hclone (h : packetSize ≤ messageLen cap.len) :
      AllInside cap.bytes.length sendPacketClone := by
    obtain ⟨-, heq⟩ := Capture.len_eq h (by decide)
    refine allInside_sendPacketClone ?_
    simp only [pcapMru, packetSize, dataOffset, msgOffset, msgSize] at h hcap ⊢
    omega
  have hsalt := d.saltLen_le
  unfold packetHandler at hhandler
  split at hhandler
  · -- PING
    obtain ⟨rfl, rfl⟩ := Prod.mk.inj (Option.some.inj hhandler)
    simp only [pingAccesses, allInside_append, allInside_cons, allInside_nil, inside_write,
      Buffer.size, pcapMru, dataOffset, msgOffset, msgSize, and_true]
    exact ⟨by omega, hclone (by omega)⟩
  · -- SET_USERNAME
    obtain ⟨rfl, rfl⟩ := Prod.mk.inj (Option.some.inj hhandler)
    obtain ⟨-, heq⟩ := Capture.len_eq hlen (by decide)
    refine allInside_append.mpr ⟨allInside_usernameAccesses ?_, hclone (by omega)⟩
    simp only [pcapMru, packetSize, dataOffset, msgOffset, msgSize] at hlen hcap ⊢
    omega
  · -- GET_PRIME
    obtain ⟨rfl, rfl⟩ := Prod.mk.inj (Option.some.inj hhandler)
    simp only [maxSaltLen] at hsalt
    simp only [primeAccesses, allInside_append, allInside_cons, allInside_nil, inside_write,
      Buffer.size, pcapMru, dataOffset, msgOffset, msgSize, maxSaltLen, and_true]
    exact ⟨by omega, hclone (by omega)⟩
  · -- SEND_A
    obtain ⟨rfl, rfl⟩ := Prod.mk.inj (Option.some.inj hhandler)
    obtain ⟨hlt, heq⟩ := Capture.len_eq hlen (by decide)
    simp only [packetSize] at hlen
    refine allInside_sendAAccesses (by simp only [dataOffset, msgOffset, msgSize]; omega) ?_
    intro hle
    rwa [SizeT.add, Nat.mod_eq_of_lt] at hmsg
    cases w <;> simp only [SizeT.modulus, dataOffset, msgOffset, msgSize] <;> omega
  · -- SEND_AUTH
    obtain ⟨rfl, rfl⟩ := Prod.mk.inj (Option.some.inj hhandler)
    obtain ⟨-, heq⟩ := Capture.len_eq hlen (by decide)
    have hall := hclone (by omega)
    simp only [pcapMru, packetSize] at hcap hlen
    simp only [sendAuthAccesses, allInside_append, allInside_cons, allInside_nil,
      allInside_returnIf, inside_read, inside_write, Buffer.size, pcapMru, dataOffset, msgOffset,
      msgSize, and_true]
    exact ⟨by omega, fun _ => ⟨by omega, hall⟩⟩
  · exact absurd rfl htype
  · exact absurd hhandler (by simp)

/-- A sealed command stays inside exactly if it fits. -/
theorem allInside_sendCmdAccesses_iff (hlen : packetSize + (cmdSize + encSize) ≤ messageLen cap.len)
    (hmsg : w.add dataOffset (u32At cap.bytes 46).toNat ≤ cap.len.toNat) :
    AllInside cap.bytes.length (sendCmdAccesses p d cap.bytes) ↔ CommandFits p d cap := by
  obtain ⟨hlt, heq⟩ := Capture.len_eq hlen (by decide)
  obtain ⟨hge, -, -⟩ := messageLen_of_add_le le_rfl hlt hmsg
  have hn : 90 ≤ cap.bytes.length := by
    have hcap := cap.captured
    simp only [pcapMru, packetSize, cmdSize, encSize] at hcap hlen
    omega
  have hcommand := allInside_commandAccesses (d := d) (n := cap.bytes.length)
    (by simp only [dataOffset, msgOffset, msgSize]; omega)
  have hdatalen : wrapInt ((decryptMessage p d.crypt (cap.bytes.drop dataOffset)
      (u32At cap.bytes 46)).1 - cmdSize) = (decryptMessage p d.crypt (cap.bytes.drop dataOffset)
      (u32At cap.bytes 46)).1 - 3 := by
    have := decryptMessage_ge (p := p) (c := d.crypt) (cap.bytes.drop dataOffset) le_rfl hge
    exact wrapInt_of_le (by rw [cmdSize]; omega)
  have hcontents := decryptMessage_contents (p := p) (c := d.crypt)
    (cap.bytes.drop dataOffset) le_rfl hge
  have hgenuine (h : Ahead p d.crypt (cap.bytes.drop dataOffset) (u32At cap.bytes 46)) :=
    (decryptMessage_pos_iff _ _ _ _ h).mpr
  simp only [sendCmdAccesses, allInside_cons, allInside_append, allInside_returnIf, inside_read,
    inside_write, hcommand, and_true, Buffer.size, hdatalen,
    allInside_decryptAccesses_iff p _ _ _ (show cap.bytes.length ≤ Buffer.size _ .packet from le_rfl),
    CommandFits]
  by_cases hbad : badLength (messageLen (u32At cap.bytes 46))
  · have hzero := (decryptMessage_of_not_ahead p d.crypt (cap.bytes.drop dataOffset) _
      fun h => h.1 hbad).1
    simp only [hbad, hzero, true_or, true_and, iff_true]
    exact ⟨by omega, fun h => absurd (by decide) h⟩
  obtain ⟨-, -, hwhole⟩ := rounds_of_not_badLength hbad
  simp only [dataOffset, msgOffset, msgSize, encSize, cmdSize, hbad, false_or] at hcontents ⊢
  constructor
  · rintro ⟨-, ⟨hall, -⟩, hbehind⟩
    refine ⟨hall, fun haccepted hpad => ?_⟩
    have hpos := hgenuine haccepted.1 haccepted.2
    obtain ⟨-, hnonneg, hres⟩ := hcontents hpos
    have := hwhole hnonneg
    omega
  · rintro ⟨hall, hbehind⟩
    refine ⟨by omega, ⟨hall, by omega⟩, fun hdata => ⟨by omega, ?_⟩⟩
    obtain ⟨haccepted, hnonneg, hres⟩ := hcontents (by omega)
    have := hwhole hnonneg
    have := hbehind haccepted
    omega

theorem packetHandler_sendCmd : packetHandler p d cap.bytes EadType.sendCmd.code =
    some (sendCmdAccesses p d cap.bytes, (cmdSize + encSize : ℤ)) := rfl

theorem allInside_parsePacket_iff (hlen : dataOffset ≤ cap.len.toNat)
    (hmsg : w.add dataOffset (u32At cap.bytes 46).toNat ≤ cap.len.toNat) :
    AllInside cap.bytes.length (parsePacket p d cap.bytes (messageLen cap.len)) ↔
      (IsCommand d cap → CommandFits p d cap) := by
  have hn : 62 ≤ cap.bytes.length := by
    have hcap := cap.captured
    simp only [pcapMru, dataOffset, msgOffset, msgSize] at hcap hlen
    omega
  have hread {off m : ℕ} (h : off + m ≤ 62) : (Access.read off m).Inside cap.bytes.length :=
    Or.inr (h.trans hn)
  have hwrite {off m : ℕ} (h : off + m ≤ 62) : (Access.write .pktbuf off m).Inside cap.bytes.length :=
    Or.inr (h.trans (show 62 ≤ pcapMru by decide))
  simp only [parsePacket, allInside_cons, allInside_returnIf, hread (show 50 + 4 ≤ 62 by decide),
    hread (show 56 + 2 ≤ 62 by decide), true_and]
  by_cases htype : messageLen (u32At cap.bytes 50) = EadType.sendCmd.code
  · rw [htype, packetHandler_sendCmd]
    simp only [allInside_cons, allInside_returnIf, hread (show 56 + 2 ≤ 62 by decide),
      hwrite (show 42 + 4 ≤ 62 by decide), hwrite (show 50 + 4 ≤ 62 by decide),
      hwrite (show 54 + 2 ≤ 62 by decide), hwrite (show 56 + 2 ≤ 62 by decide),
      hwrite (show 46 + 4 ≤ 62 by decide), true_and]
    constructor
    · rintro h ⟨-, hstate, hid, hmin⟩
      rw [← allInside_sendCmdAccesses_iff hmin hmsg]
      exact h (fun hbad => hbad.2 (by rw [hstate])) (fun hbad => hbad.2 hid) (Int.not_lt.mpr hmin)
    · intro h hstate hid hmin
      rw [allInside_sendCmdAccesses_iff (Int.not_lt.mp hmin) hmsg]
      exact h ⟨htype, EadType.code_injective (by_contra fun hne => hstate ⟨by decide, hne⟩),
        by_contra fun hne => hid ⟨by decide, hne⟩, Int.not_lt.mp hmin⟩
  · refine iff_of_true ?_ fun h => absurd h.1 htype
    intro _ _
    cases hhandler : packetHandler p d cap.bytes (messageLen (u32At cap.bytes 50)) with
    | none => exact allInside_nil
    | some r =>
      simp only [allInside_cons, allInside_returnIf, hread (show 56 + 2 ≤ 62 by decide),
        hwrite (show 42 + 4 ≤ 62 by decide), hwrite (show 50 + 4 ≤ 62 by decide),
        hwrite (show 54 + 2 ≤ 62 by decide), hwrite (show 56 + 2 ≤ 62 by decide),
        hwrite (show 46 + 4 ≤ 62 by decide), true_and]
      exact fun hmin => allInside_packetHandler hhandler (Int.not_lt.mp hmin) hmsg htype

/-- The server stays inside, but for a sealed command that does not fit. -/
theorem allInside_handlePacket_iff : AllInside cap.bytes.length (handlePacket w p d cap) ↔
    (Dispatched w d cap → IsCommand d cap → CommandFits p d cap) := by
  by_cases hlen : cap.len.toNat < dataOffset
  · simp only [handlePacket, allInside_returnIf, hlen, not_true_eq_false, false_imp_iff, true_iff]
    exact fun hdispatched => absurd hdispatched.1 (not_le.mpr hlen)
  have hn : 62 ≤ cap.bytes.length := by
    have hcap := cap.captured
    simp only [pcapMru, dataOffset, msgOffset, msgSize] at hcap hlen
    omega
  have hread {off m : ℕ} (h : off + m ≤ 62) : (Access.read off m).Inside cap.bytes.length :=
    Or.inr (h.trans hn)
  simp only [handlePacket, allInside_cons, allInside_returnIf, hread (show 12 + 2 ≤ 62 by decide),
    hread (show 0 + 6 ≤ 62 by decide), hread (show 23 + 1 ≤ 62 by decide),
    hread (show 36 + 2 ≤ 62 by decide), hread (show 42 + 4 ≤ 62 by decide),
    hread (show 46 + 4 ≤ 62 by decide), hread (show 54 + 2 ≤ 62 by decide), true_and]
  constructor
  · rintro h ⟨-, htype, hdhost, hproto, hport, hmagic, hmsg, hnid⟩
    rw [← allInside_parsePacket_iff (not_lt.mp hlen) hmsg]
    exact h hlen (not_not.mpr htype) (not_not.mpr hdhost) (not_not.mpr hproto) (not_not.mpr hport)
      (not_not.mpr hmagic) (not_lt.mpr hmsg) fun hbad => hbad.2 (hnid hbad.1)
  · intro h _ htype hdhost hproto hport hmagic hmsg hnid
    rw [allInside_parsePacket_iff (not_lt.mp hlen) (not_lt.mp hmsg)]
    exact h ⟨not_lt.mp hlen, not_not.mp htype, not_not.mp hdhost, not_not.mp hproto,
      not_not.mp hport, not_not.mp hmagic, not_lt.mp hmsg,
      fun hany => by_contra fun hother => hnid ⟨hany, hother⟩⟩

end Server

/-- A datagram gets as far as the handler. -/
def Passes (w : SizeT) (c : Client) (handler : Reply) (rx : Bytes) : Prop :=
  msgSize ≤ rx.length ∧ w.add msgSize (u32At rx 4).toNat ≤ rx.length ∧ u32At rx 0 = eadMagic ∧
    (c.nid ≠ 0xffff → u16At rx 12 = c.nid) ∧ messageLen (u32At rx 8) = handler.type.code

/-- What the handlers need of a message besides. -/
def Reply.Fits (c : Client) (rx : Bytes) : Reply → Prop
  | .pong => msgSize + (u32At rx 4).toNat ≠ msgbufSize
  | .none => True
  | .prime => 22 + (rx.getD 21 0).toNat ≤ rx.length ∧ (rx.getD 21 0).toNat ≤ maxSaltLen ∧
      (c.authType = 1 → 86 ≤ rx.length)
  | .b => 1 ≤ (u32At rx 4).toNat ∧ (u32At rx 4).toNat ≤ maxParamLen + 1
  | .doneAuth => msgSize + 20 ≤ rx.length
  | .cmdData => 0 ≤ messageLen (u32At rx 4) ∨ msgSize + encSize ≤ rx.length

section Receiving

variable {w : SizeT} {p : Primitives} {c : Client} {rx : Bytes}

/-- The length of the rest of a message, as an `int`. -/
theorem messageLen_sub {m k : UInt32} (hk : k.toNat ≤ 2) :
    messageLen (m - k) = if m.toNat < k.toNat then (m.toNat : ℤ) - k.toNat
      else if m.toNat - k.toNat < 2147483648 then m.toNat - k.toNat
      else m.toNat - k.toNat - 4294967296 := by
  have hlt := m.toNat_lt
  rw [messageLen, UInt32.toNat_sub]
  split_ifs <;> omega

/-- What the test in `send_packet` says about the length. -/
theorem msgLen_cases (hbuf : rx.length ≤ msgbufSize)
    (hmsg : w.add msgSize (u32At rx 4).toNat ≤ rx.length) :
    msgSize + (u32At rx 4).toNat ≤ rx.length ∧ messageLen (u32At rx 4) = (u32At rx 4).toNat ∨
      4294967276 ≤ (u32At rx 4).toNat ∧ w = .bits32 ∧ messageLen (u32At rx 4) < 0 := by
  have hlt := (u32At rx 4).toNat_lt
  simp only [msgbufSize] at hbuf
  unfold messageLen
  cases w <;> simp only [SizeT.add, SizeT.modulus, msgSize] at hmsg ⊢ <;> split_ifs <;>
    simp <;> omega

theorem allInside_pongAccesses_iff (hsize : msgSize ≤ rx.length) (hbuf : rx.length ≤ msgbufSize)
    (hmsg : w.add msgSize (u32At rx 4).toNat ≤ rx.length) :
    AllInside rx.length (pongAccesses c rx) ↔ Reply.Fits c rx .pong := by
  have hcases := msgLen_cases hbuf hmsg
  have hlt := (u32At rx 4).toNat_lt
  have hsub := messageLen_sub (m := u32At rx 4) (k := 2) (by decide)
  have htail : AllInside rx.length (if c.nid = 0xffff then
      [.read 12 2, .read (msgSize + 2) (messageLen (u32At rx 4 - 2)).toNat, .read 14 2]
      else [.read 14 2]) := by
    simp only [msgSize, msgbufSize, UInt32.reduceToNat] at *
    split_ifs <;> simp only [allInside_cons, allInside_nil, inside_read, and_true] <;>
      split_ifs at hsub <;> omega
  simp only [pongAccesses, allInside_cons, allInside_returnIf, inside_read, inside_write,
    Reply.Fits, Buffer.size, htail, and_true]
  simp only [msgSize, msgbufSize, UInt32.reduceToNat] at *
  split_ifs at hsub
  · omega
  · omega
  · omega

theorem allInside_primeReplyAccesses_iff (hsize : msgSize ≤ rx.length) :
    AllInside rx.length (primeReplyAccesses c rx) ↔ Reply.Fits c rx .prime := by
  have hlt := (rx.getD 21 0).toNat_lt
  simp only [primeReplyAccesses, allInside_cons, allInside_append, allInside_nil, inside_read,
    inside_write, Buffer.size, Reply.Fits, and_true]
  simp only [msgSize, maxSaltLen] at *
  by_cases hauth : c.authType = 1
  · simp only [hauth, if_true, true_imp_iff, allInside_cons, allInside_nil, inside_read,
      inside_write, Buffer.size, maxSaltLen, and_true]
    omega
  · simp only [hauth, if_false, false_imp_iff, allInside_nil, and_true]
    omega

theorem allInside_bAccesses_iff (hsize : msgSize ≤ rx.length) (hbuf : rx.length ≤ msgbufSize)
    (hmsg : w.add msgSize (u32At rx 4).toNat ≤ rx.length) :
    AllInside rx.length (bAccesses w rx) ↔ Reply.Fits c rx .b := by
  have hcases := msgLen_cases hbuf hmsg
  have hlt := (u32At rx 4).toNat_lt
  have hsub := messageLen_sub (m := u32At rx 4) (k := 1) (by decide)
  simp only [bAccesses, allInside_cons, allInside_nil, inside_read, inside_write, Reply.Fits,
    Buffer.size, and_true, SizeT.ofInt]
  simp only [msgSize, msgbufSize, maxParamLen, UInt32.reduceToNat] at *
  cases w <;> simp only [SizeT.modulus] at * <;> split_ifs at hsub ⊢ <;> omega

theorem allInside_cmdDataAccesses_iff (hsize : msgSize ≤ rx.length) (hbuf : rx.length ≤ msgbufSize)
    (hmsg : w.add msgSize (u32At rx 4).toNat ≤ rx.length) :
    AllInside rx.length (cmdDataAccesses p c rx) ↔ Reply.Fits c rx .cmdData := by
  have hcases := msgLen_cases hbuf hmsg
  have hlt := (u32At rx 4).toNat_lt
  have hsmall : msgSize ≤ dataOffset := by decide
  obtain ⟨hge, -, -⟩ := messageLen_of_add_le hsmall (hbuf.trans_lt (by decide)) hmsg
  have hdatalen : wrapInt ((decryptMessage p c.crypt (rx.drop msgSize) (u32At rx 4)).1 - 1) =
      (decryptMessage p c.crypt (rx.drop msgSize) (u32At rx 4)).1 - 1 := by
    have := decryptMessage_ge (p := p) (c := c.crypt) (rx.drop msgSize) hsmall hge
    exact wrapInt_of_le (by omega)
  have hcontents := decryptMessage_contents (p := p) (c := c.crypt) (rx.drop msgSize) hsmall hge
  simp only [cmdDataAccesses, allInside_cons, allInside_append, allInside_returnIf, allInside_nil,
    inside_read, and_true, hdatalen, Reply.Fits, allInside_decryptAccesses_iff p _ _ _
      (show rx.length ≤ Buffer.size _ .msgbuf from hbuf)]
  simp only [msgSize, msgbufSize, encSize] at *
  by_cases hbad : badLength (messageLen (u32At rx 4))
  · have hzero := (decryptMessage_of_not_ahead p c.crypt (rx.drop 20) _ fun h => h.1 hbad).1
    have hnonneg := nonneg_of_badLength hbad
    simp only [hbad, hzero, hnonneg, true_or, true_and, iff_true]
    omega
  · obtain ⟨-, -, hwhole⟩ := rounds_of_not_badLength hbad
    simp only [hbad, false_or]
    constructor
    · rintro ⟨-, ⟨-, hfields⟩, -⟩
      exact Or.inr hfields
    · intro hfits
      refine ⟨by omega, by omega, fun hdata => ?_⟩
      obtain ⟨-, hnonneg, hres⟩ := hcontents (by omega)
      have := hwhole hnonneg
      omega

theorem allInside_accesses_iff {handler : Reply} (h : Passes w c handler rx)
    (hbuf : rx.length ≤ msgbufSize) :
    AllInside rx.length (handler.accesses w p c rx) ↔ handler.Fits c rx := by
  obtain ⟨hsize, hmsg, -⟩ := h
  cases handler with
  | pong => exact allInside_pongAccesses_iff hsize hbuf hmsg
  | none => exact iff_of_true allInside_nil trivial
  | prime => exact allInside_primeReplyAccesses_iff hsize
  | b => exact allInside_bAccesses_iff hsize hbuf hmsg
  | doneAuth =>
    simp only [Reply.accesses, doneAuthAccesses, allInside_cons, allInside_nil, inside_read,
      Reply.Fits, and_true]
    omega
  | cmdData => exact allInside_cmdDataAccesses_iff hsize hbuf hmsg

/-- The client stays inside, but for messages that a handler has no room for. -/
theorem allInside_sendPacket_iff {handler : Reply} {datagram : Bytes} :
    AllInside (received datagram).length (sendPacket w p c handler datagram) ↔
      (Passes w c handler (received datagram) → handler.Fits c (received datagram)) := by
  have hbuf : (received datagram).length ≤ msgbufSize := List.length_take_le ..
  generalize hrx : received datagram = rx at hbuf
  have hfirst : (Access.write .msgbuf 0 rx.length).Inside rx.length :=
    Or.inr (by rwa [Nat.zero_add])
  simp only [sendPacket, hrx, allInside_cons, allInside_returnIf, hfirst, true_and]
  by_cases hsize : rx.length < msgSize
  · simp only [hsize, not_true_eq_false, false_imp_iff, true_iff]
    exact fun hpasses => absurd hpasses.1 (not_le.mpr hsize)
  have hread {off m : ℕ} (h : off + m ≤ 20) : (Access.read off m).Inside rx.length :=
    Or.inr (h.trans (not_lt.mp hsize))
  simp only [hread (show 4 + 4 ≤ 20 by decide), hread (show 0 + 4 ≤ 20 by decide),
    hread (show 12 + 2 ≤ 20 by decide), hread (show 8 + 4 ≤ 20 by decide), true_and]
  constructor
  · intro h hpasses
    rw [← allInside_accesses_iff hpasses hbuf]
    obtain ⟨-, hmsg, hmagic, hnid, htype⟩ := hpasses
    exact h hsize (not_lt.mpr hmsg) (not_not.mpr hmagic) (fun hbad => hbad.2 (hnid hbad.1))
      (not_not.mpr htype)
  · intro h _ hmsg hmagic hnid htype
    have hpasses : Passes w c handler rx := ⟨not_lt.mp hsize, not_lt.mp hmsg, not_not.mp hmagic,
      fun hany => by_contra fun hother => hnid ⟨hany, hother⟩, not_not.mp htype⟩
    exact (allInside_accesses_iff hpasses hbuf).mpr (h hpasses)

end Receiving

/-- Server and client stay inside what was received and their buffers for a packet and a
datagram, with both widths of `size_t`, exactly if a command fits, and what a handler of the
client reads and copies. -/
theorem allInside_iff (w : SizeT) (p : Primitives) (d : Daemon) (cap : Capture) (c : Client)
    (handler : Reply) (datagram : Bytes) :
    (AllInside cap.bytes.length (handlePacket w p d cap) ↔
      (Dispatched w d cap → IsCommand d cap → CommandFits p d cap)) ∧
    (AllInside (received datagram).length (sendPacket w p c handler datagram) ↔
      (Passes w c handler (received datagram) → handler.Fits c (received datagram))) :=
  ⟨allInside_handlePacket_iff, allInside_sendPacket_iff⟩

/-- An answer with a number and the length 0. -/
def emptyNumber : Bytes :=
  Endian.big.u32 3671771902 ++ [0, 0, 0, 0] ++ [0, 0, 0, 7] ++ [0, 0] ++ [0, 0] ++ [0, 0, 0, 0]

/-- The answer makes the client copy all but one byte of its address space. -/
theorem not_allInside : ∃ (c : Client) (datagram : Bytes),
    ¬ AllInside (received datagram).length (sendPacket .bits32 plainPrimitives c .b datagram) ∧
      ¬ AllInside (received datagram).length (sendPacket .bits64 plainPrimitives c .b datagram) := by
  refine ⟨⟨0xffff, 0, startCrypt⟩, emptyNumber, ?_⟩
  decide

end NeonWrt.Ead
