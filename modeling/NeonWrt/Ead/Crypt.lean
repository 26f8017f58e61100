import NeonWrt.Lib.CString

/-!
# Encrypted messages of the emergency access daemon

`ead-crypt.c` seals messages with a key and a counter, `iv`, that grows with
every message; server and client start both directions of a session with the
same key and the same counter. AES and the hash are idealised: a received
message is what decrypting it gives, `Enc`, with the verdict of the hash
comparison. `handle_send_cmd` runs the command in a sealed message and seals
what the command prints.
-/

namespace NeonWrt.Ead

open NeonWrt.Lib

/-- What `ead_set_key` takes from a session key: the AES key, the start of the
counters and the source of their increments. -/
structure SessionKey where
  aes : Bytes
  iv : UInt32
  ofs : UInt32
  deriving DecidableEq

/-- The static variables of `ead-crypt.c`. -/
structure Crypt where
  aes : Bytes
  rxIv : UInt32
  txIv : UInt32
  ivofsVec : UInt32
  ivofsIdx : ℕ
  deriving DecidableEq

/-- `EAD_MAX_IV_INCR` -/
def maxIvIncr : UInt32 := 128

/-- `EAD_ENC_PAD` -/
def encPad : ℕ := 64

/-- `sizeof(struct ead_msg_encrypted)` -/
def encSize : ℕ := 25

/-- `sizeof(struct ead_msg_cmd)` -/
def cmdSize : ℕ := 3

/-- A sealed message as its sender made it. -/
structure Sealed where
  aes : Bytes
  iv : UInt32
  pad : ℕ
  payload : Bytes
  deriving DecidableEq

/-- The length a sealed message has in its header. -/
def Sealed.enclen (m : Sealed) : ℕ := m.payload.length + encSize + m.pad

/-- What decrypting a received message gives: the fields of `struct
ead_msg_encrypted`, and whether the hash in it is that of the rest. -/
structure Enc where
  iv : UInt32
  pad : ℕ
  hashOk : Bool
  body : Bytes
  deriving DecidableEq

namespace Crypt

variable (c : Crypt)

/-- `ead_set_key`: both counters start at the same value; the position in the
increments stays where it was. -/
def setKey (k : SessionKey) : Crypt :=
  { c with aes := k.aes, rxIv := k.iv &&& 0xffffff, txIv := k.iv &&& 0xffffff, ivofsVec := k.ofs }

/-- `ead_check_rx_iv` -/
def checkRxIv (iv : UInt32) : Bool × Crypt :=
  if iv ≤ c.rxIv then (false, c)
  else if iv > c.rxIv + maxIvIncr then (false, c)
  else (true, { c with rxIv := iv })

/-- `ead_get_tx_iv` -/
def getTxIv : UInt32 × Crypt :=
  let ofs := 1 + (c.ivofsVec >>> UInt32.ofNat (2 * c.ivofsIdx) &&& 3)
  (c.txIv + ofs, { c with ivofsIdx := (c.ivofsIdx + 1) % 16, txIv := c.txIv + ofs })

/-- `ead_encrypt_message` -/
def encrypt (payload : Bytes) : Sealed × Crypt :=
  let pad := (encPad - (payload.length + encSize) % encPad) % encPad
  let (iv, c) := c.getTxIv
  (⟨c.aes, iv, pad, payload⟩, c)

/-- `ead_decrypt_message`: the length of the contents, 0 for a message that is
not accepted. The counter moves before the hash is compared. -/
def decrypt (len : ℕ) (enc : Enc) : ℤ × Crypt :=
  if len = 0 ∨ len % encPad > 0 then (0, c)
  else if enc.pad ≥ encPad then (0, c)
  else
    let (ok, c) := c.checkRxIv enc.iv
    if !ok then (0, c)
    else if !enc.hashOk then (0, c)
    else (len - (enc.pad + encSize), c)

/-- One sealed message after the other. -/
def encryptAll : Crypt → List Bytes → List Sealed × Crypt
  | c, [] => ([], c)
  | c, p :: ps =>
    let (m, c) := c.encrypt p
    let (ms, c) := encryptAll c ps
    (m :: ms, c)

end Crypt

/-- What the system makes of a command: whether the pipe and the process could
be created, what is read from the command, and whether it had to be killed at
its deadline. -/
structure CmdOutcome where
  pipe : Bool
  fork : Bool
  chunks : List Bytes
  killed : Bool
  deriving DecidableEq

/-- The effects of `handle_send_cmd`: the messages sent, the text given to
`system()`, and whether a reply follows. -/
structure CmdResult where
  crypt : Crypt
  replies : List Sealed
  executed : Option Bytes
  ok : Bool
  deriving DecidableEq

/-- `ntohs(cmd->type)`: the field is a single byte, which the conversion moves
into the high byte unless the host is big-endian. -/
def ntohsByte (bigEndian : Bool) (b : UInt8) : ℕ := if bigEndian then b.toNat else b.toNat * 256

/-- A reply with console data, `done = 0`. -/
def dataReply (chunk : Bytes) : Bytes := 0 :: chunk

/-- The last reply, `done = 1`. -/
def doneReply : Bytes := [1]

/-- `handle_send_cmd` on a message that decrypts to `enc`. -/
def handleSendCmd (bigEndian : Bool) (c : Crypt) (len : ℕ) (enc : Enc) (os : CmdOutcome) :
    CmdResult :=
  let (n, c) := c.decrypt len enc
  let datalen := n - cmdSize
  if datalen ≤ 0 then ⟨c, [], none, false⟩
  else
    let type := ntohsByte bigEndian (enc.body.getD 0 0)
    let data := cstr ((enc.body.drop cmdSize).take datalen.toNat)
    if type = 0 then
      -- EAD_CMD_NORMAL: what the command prints is sent as it comes.
      if !os.pipe then ⟨c, [], none, false⟩
      else if !os.fork then ⟨c, [], none, false⟩
      else
        let (ms, c) := c.encryptAll (os.chunks.map dataReply)
        if os.killed then ⟨c, ms, some data, false⟩
        else
          let (m, c) := c.encrypt doneReply
          ⟨c, ms ++ [m], some data, true⟩
    else if type = 1 then
      -- EAD_CMD_BACKGROUND
      if !os.fork then ⟨c, [], none, false⟩
      else
        let (m, c) := c.encrypt doneReply
        ⟨c, [m], some data, true⟩
    else ⟨c, [], none, false⟩

namespace Crypt

variable {c c' : Crypt}

/-- A message is accepted only ahead of everything accepted before. -/
theorem checkRxIv_true {iv : UInt32} (h : c.checkRxIv iv = (true, c')) :
    c.rxIv < iv ∧ iv ≤ c.rxIv + maxIvIncr ∧ c' = { c with rxIv := iv } := by
  unfold checkRxIv at h
  split_ifs at h with hle hgt
  · exact absurd h (by simp)
  · exact absurd h (by simp)
  · exact ⟨UInt32.not_le.mp hle, UInt32.not_lt.mp hgt, (Prod.mk.inj h).2.symm⟩

theorem checkRxIv_false {iv : UInt32} (h : c.checkRxIv iv = (false, c')) : c' = c := by
  unfold checkRxIv at h
  split_ifs at h with hle hgt
  · exact (Prod.mk.inj h).2.symm
  · exact (Prod.mk.inj h).2.symm
  · exact absurd (Prod.mk.inj h).1 (by simp)

/-- What opening a message does: nothing at all, or the counter moves to that of
the message, which is in the window; the contents come out only with the right hash. -/
theorem decrypt_cases (c : Crypt) (len : ℕ) (enc : Enc) :
    (c.decrypt len enc).1 = 0 ∧ (c.decrypt len enc).2 = c ∨
      c.rxIv < enc.iv ∧ enc.iv ≤ c.rxIv + maxIvIncr ∧
        (c.decrypt len enc).2 = { c with rxIv := enc.iv } ∧
        ((c.decrypt len enc).1 = 0 ∨
          enc.hashOk = true ∧ (c.decrypt len enc).1 = len - (enc.pad + encSize)) := by
  unfold decrypt
  by_cases hlen : len = 0 ∨ len % encPad > 0
  · rw [if_pos hlen]
    exact Or.inl ⟨rfl, rfl⟩
  by_cases hpad : enc.pad ≥ encPad
  · rw [if_neg hlen, if_pos hpad]
    exact Or.inl ⟨rfl, rfl⟩
  · rw [if_neg hlen, if_neg hpad]
    cases hcheck : c.checkRxIv enc.iv with
    | mk ok d =>
      cases ok with
      | false => exact Or.inl ⟨rfl, checkRxIv_false hcheck⟩
      | true =>
        obtain ⟨hlt, hle, rfl⟩ := checkRxIv_true hcheck
        refine Or.inr ⟨hlt, hle, ?_⟩
        cases enc.hashOk with
        | false => exact ⟨rfl, Or.inl rfl⟩
        | true => exact ⟨rfl, Or.inr ⟨rfl, rfl⟩⟩

/-- A whole message in the window comes out with its contents. -/
theorem decrypt_of_window {len : ℕ} {enc : Enc} (hlen : len ≠ 0) (hmod : len % encPad = 0)
    (hpad : enc.pad < encPad) (hlt : c.rxIv < enc.iv) (hle : enc.iv ≤ c.rxIv + maxIvIncr)
    (hhash : enc.hashOk = true) : (c.decrypt len enc).1 = len - (enc.pad + encSize) := by
  have hcheck : c.checkRxIv enc.iv = (true, { c with rxIv := enc.iv }) := by
    rw [checkRxIv, if_neg (UInt32.not_le.mpr hlt), if_neg (UInt32.not_lt.mpr hle)]
  rw [decrypt, if_neg (by omega), if_neg (by omega), hcheck]
  simp [hhash]

@[simp] theorem rxIv_getTxIv (c : Crypt) : c.getTxIv.2.rxIv = c.rxIv := rfl

@[simp] theorem rxIv_encrypt (c : Crypt) (p : Bytes) : (c.encrypt p).2.rxIv = c.rxIv := rfl

@[simp] theorem rxIv_encryptAll (c : Crypt) (ps : List Bytes) :
    (c.encryptAll ps).2.rxIv = c.rxIv := by
  induction ps generalizing c with
  | nil => rfl
  | cons p ps ih => exact ih (c.encrypt p).2

theorem aes_encryptAll (c : Crypt) (ps : List Bytes) : (c.encryptAll ps).2.aes = c.aes := by
  induction ps generalizing c with
  | nil => rfl
  | cons p ps ih => exact ih (c.encrypt p).2

theorem aes_decrypt (c : Crypt) (len : ℕ) (enc : Enc) : (c.decrypt len enc).2.aes = c.aes := by
  rcases decrypt_cases c len enc with ⟨-, h⟩ | ⟨-, -, h, -⟩
  · rw [h]
  · rw [h]

end Crypt

/-- A message as `ead_encrypt_message` makes it with a key. -/
structure Sealed.WellFormed (m : Sealed) (aes : Bytes) : Prop where
  haes : m.aes = aes
  hpad : m.pad < encPad
  hlen : m.enclen % encPad = 0

/-- The contents of a reply of the server. -/
def IsReply (payload : Bytes) : Prop := (∃ chunk, payload = dataReply chunk) ∨ payload = doneReply

theorem Crypt.encrypt_wellFormed (c : Crypt) (p : Bytes) : (c.encrypt p).1.WellFormed c.aes where
  haes := rfl
  hpad := Nat.mod_lt _ (by decide)
  hlen := by
    simp only [Crypt.encrypt, Sealed.enclen, encPad]
    omega

theorem Crypt.encryptAll_wellFormed (c : Crypt) (ps : List Bytes) :
    ∀ m ∈ (c.encryptAll ps).1, m.WellFormed c.aes ∧ m.payload ∈ ps := by
  induction ps generalizing c with
  | nil => simp [Crypt.encryptAll]
  | cons p ps ih =>
    intro m hm
    rcases List.mem_cons.mp hm with rfl | hm
    · exact ⟨c.encrypt_wellFormed p, List.mem_cons_self⟩
    · obtain ⟨hwf, hmem⟩ := ih (c.encrypt p).2 m hm
      exact ⟨hwf, List.mem_cons_of_mem _ hmem⟩

section Handler

variable (bigEndian : Bool) (c : Crypt) (len : ℕ) (enc : Enc) (os : CmdOutcome)

/-- The command in a message whose contents have length `n`. -/
def commandText (n : ℤ) : Bytes := cstr ((enc.body.drop cmdSize).take (n - cmdSize).toNat)

/-- Replies do not move the counter of received messages. -/
theorem handleSendCmd_crypt :
    (handleSendCmd bigEndian c len enc os).crypt.rxIv = (c.decrypt len enc).2.rxIv ∧
      (handleSendCmd bigEndian c len enc os).crypt.aes = c.aes := by
  have haes := c.aes_decrypt len enc
  unfold handleSendCmd
  generalize c.decrypt len enc = r at haes
  obtain ⟨n, d⟩ := r
  simp only
  split_ifs <;> simp_all [Crypt.aes_encryptAll, Crypt.encrypt, Crypt.getTxIv]

/-- A command is run only from a message that was accepted, and then it is the
text in that message. -/
theorem handleSendCmd_executed {text : Bytes}
    (h : (handleSendCmd bigEndian c len enc os).executed = some text) :
    cmdSize < (c.decrypt len enc).1 ∧ text = commandText enc (c.decrypt len enc).1 ∧
      os.fork = true ∧ (enc.body.getD 0 0 = 0 → os.pipe = true) := by
  have htype : enc.body.getD 0 0 = 0 → ntohsByte bigEndian (enc.body.getD 0 0) = 0 := by
    intro h0
    rw [h0]
    cases bigEndian <;> rfl
  unfold handleSendCmd at h
  generalize ntohsByte bigEndian (enc.body.getD 0 0) = type at h htype
  generalize c.decrypt len enc = r at h ⊢
  obtain ⟨n, d⟩ := r
  simp only at h ⊢
  split_ifs at h with hlen <;> simp_all [commandText]

/-- A message of type `EAD_CMD_NORMAL` with something in it is run, if the
system has a pipe and a process for it. -/
theorem handleSendCmd_runs (hn : cmdSize < (c.decrypt len enc).1) (htype : enc.body.getD 0 0 = 0)
    (hpipe : os.pipe = true) (hfork : os.fork = true) :
    (handleSendCmd bigEndian c len enc os).executed =
      some (commandText enc (c.decrypt len enc).1) := by
  have htype' : ntohsByte bigEndian (enc.body.getD 0 0) = 0 := by
    rw [htype]
    cases bigEndian <;> rfl
  unfold handleSendCmd
  generalize c.decrypt len enc = r at hn ⊢
  obtain ⟨n, d⟩ := r
  simp only at hn ⊢
  rw [if_neg (by omega), if_pos htype', hpipe, hfork]
  simp only [Bool.not_true, Bool.false_eq_true, if_false]
  split_ifs <;> rfl

theorem handleSendCmd_replies : ∀ m ∈ (handleSendCmd bigEndian c len enc os).replies,
    m.WellFormed c.aes ∧ IsReply m.payload := by
  have haes := c.aes_decrypt len enc
  have hdone : ∀ d : Crypt, d.aes = c.aes →
      (d.encrypt doneReply).1.WellFormed c.aes ∧ IsReply (d.encrypt doneReply).1.payload :=
    fun d hd => ⟨hd ▸ d.encrypt_wellFormed doneReply, Or.inr rfl⟩
  have hchunks : ∀ d : Crypt, d.aes = c.aes →
      ∀ m ∈ (d.encryptAll (os.chunks.map dataReply)).1, m.WellFormed c.aes ∧ IsReply m.payload := by
    intro d hd m hm
    obtain ⟨hwf, hmem⟩ := d.encryptAll_wellFormed _ m hm
    obtain ⟨chunk, -, hchunk⟩ := List.mem_map.mp hmem
    exact ⟨hd ▸ hwf, Or.inl ⟨chunk, hchunk.symm⟩⟩
  unfold handleSendCmd
  generalize c.decrypt len enc = r at haes
  obtain ⟨n, d⟩ := r
  simp only at haes ⊢
  split_ifs
  · simp
  · simp
  · simp
  · exact hchunks d haes
  · intro m hm
    rcases List.mem_append.mp hm with hm | hm
    · exact hchunks d haes m hm
    · rw [List.mem_singleton.mp hm]
      exact hdone _ ((d.aes_encryptAll _).trans haes)
  · simp
  · intro m hm
    rw [List.mem_singleton.mp hm]
    exact hdone d haes
  · simp

end Handler

end NeonWrt.Ead
