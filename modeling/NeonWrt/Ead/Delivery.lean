import NeonWrt.Ead.Message
import NeonWrt.Lib.Run

/-!
# One direction of a session

One side seals messages and the other opens those that arrive, in order and with losses.
The receiver follows as long as no more than `EAD_MAX_IV_INCR` increments of the counter
were lost, until the window reaches the end of the 32-bit counters.
-/

namespace NeonWrt.Ead

open NeonWrt.Lib

/-- The sender and the receiver, and the increments of the sender's counter since the receiver
last accepted a message. -/
structure Link where
  sender : Crypt
  receiver : Crypt
  behind : ℕ

/-- A message in its buffer, what follows it in the receiver's buffer, and whether it arrives. -/
structure Transfer where
  data : Bytes
  len : ℕ
  fits : Fits data len
  rest : Bytes
  delivered : Bool

/-- What `ead_get_tx_iv` adds to the counter. -/
def Crypt.nextOfs (c : Crypt) : UInt32 := 1 + (c.ivofsVec >>> UInt32.ofNat (2 * c.ivofsIdx) &&& 3)

/-- What opening the message gives at the receiver. -/
def receive (p : Primitives) (s : Link) (t : Transfer) : ℤ × Bytes × Crypt :=
  decryptMessage p s.receiver (wire p s.sender t.data t.len ++ t.rest)
    (UInt32.ofNat (enclenOf t.len))

/-- The sending of a message. -/
def send (p : Primitives) (s : Link) (t : Transfer) : Link :=
  let sender := (encryptMessage p s.sender t.data t.len).2.2
  let behind := s.behind + s.sender.nextOfs.toNat
  if t.delivered then
    let receiver := (receive p s t).2.2
    ⟨sender, receiver, if receiver.rxIv = sender.txIv then 0 else behind⟩
  else ⟨sender, s.receiver, behind⟩

/-- Both sides have set the same session key. -/
def Keyed.Link (s : Link) : Prop := ∃ k c r, s = ⟨Crypt.setKey c k, Crypt.setKey r k, 0⟩

/-- A message arrives only within the window. -/
def Within (s : Link) (t : Transfer) : Prop :=
  t.delivered = true → s.behind + s.sender.nextOfs.toNat ≤ maxIvIncr.toNat

/-- The message comes back with its length and its contents, and the receiver follows. -/
def Accepted (p : Primitives) (s : Link) (t : Transfer) : Prop :=
  (receive p s t).1 = t.len ∧ ((receive p s t).2.1.drop encSize).take t.len = t.data.take t.len ∧
    (receive p s t).2.2.rxIv = s.sender.getTxIv.1

/-- The sender is as far ahead as was counted. -/
structure Synced (s : Link) : Prop where
  haes : s.receiver.aes = s.sender.aes
  hiv : s.sender.txIv = s.receiver.rxIv + UInt32.ofNat s.behind

section Delivery

variable {p : Primitives} {s : Link} {t : Transfer}

theorem getTxIv_fst (c : Crypt) : c.getTxIv.1 = c.txIv + c.nextOfs := rfl

theorem aes_decryptMessage (c : Crypt) (enc : Bytes) (msgLen : UInt32) :
    (decryptMessage p c enc msgLen).2.2.aes = c.aes := by
  by_cases h : Ahead p c enc msgLen
  · obtain ⟨hlen, hpad, hlt, hle⟩ := h
    have hcheck : c.checkRxIv (ivField (opened p c enc (messageLen msgLen))) =
        (true, { c with rxIv := ivField (opened p c enc (messageLen msgLen)) }) := by
      rw [Crypt.checkRxIv, if_neg (UInt32.not_le.mpr hlt), if_neg (UInt32.not_lt.mpr hle)]
    rw [decryptMessage, if_neg hlen, if_neg (not_le.mpr hpad), hcheck]
    simp only [Bool.not_true, Bool.false_eq_true, if_false]
    split_ifs <;> rfl
  · rw [(decryptMessage_of_not_ahead p c enc msgLen h).2]

/-- The counter is that of the message, or it did not move. -/
theorem receive_cases (hp : p.Lawful) (h : Synced s) :
    (s.receiver.rxIv < s.sender.getTxIv.1 ∧ s.sender.getTxIv.1 ≤ s.receiver.rxIv + maxIvIncr ∧
      Accepted p s t) ∨
    (¬ (s.receiver.rxIv < s.sender.getTxIv.1 ∧
      s.sender.getTxIv.1 ≤ s.receiver.rxIv + maxIvIncr) ∧ (receive p s t).2.2 = s.receiver) := by
  by_cases hw : s.receiver.rxIv < s.sender.getTxIv.1 ∧
      s.sender.getTxIv.1 ≤ s.receiver.rxIv + maxIvIncr
  · obtain ⟨hlen, hdata, hiv⟩ :=
      decryptMessage_encryptMessage hp h.haes t.fits hw.1 hw.2 t.rest
    exact Or.inl ⟨hw.1, hw.2, hlen, hdata, congrArg Crypt.rxIv hiv⟩
  · exact Or.inr ⟨hw, decryptMessage_of_window hp h.haes t.fits hw t.rest⟩

theorem ofNat_behind (n : ℕ) (ofs : UInt32) :
    UInt32.ofNat (n + ofs.toNat) = UInt32.ofNat n + ofs := by
  rw [UInt32.ofNat_add, UInt32.ofNat_toNat]

theorem send_of_lost (h : t.delivered = false) : send p s t =
    ⟨s.sender.getTxIv.2, s.receiver, s.behind + s.sender.nextOfs.toNat⟩ := by
  rw [send, h]
  rfl

theorem send_of_delivered (h : t.delivered = true) : send p s t =
    ⟨s.sender.getTxIv.2, (receive p s t).2.2,
      if (receive p s t).2.2.rxIv = s.sender.getTxIv.1 then 0
      else s.behind + s.sender.nextOfs.toNat⟩ := by
  rw [send, h]
  rfl

/-- The counter of the next message, seen from the receiver. -/
theorem Synced.getTxIv (h : Synced s) : s.sender.getTxIv.1 =
    s.receiver.rxIv + UInt32.ofNat (s.behind + s.sender.nextOfs.toNat) := by
  rw [getTxIv_fst, h.hiv, ofNat_behind, UInt32.add_assoc]

theorem synced_send (hp : p.Lawful) (h : Synced s) : Synced (send p s t) := by
  cases hd : t.delivered with
  | false =>
    rw [send_of_lost hd]
    exact ⟨h.haes, h.getTxIv⟩
  | true =>
    rw [send_of_delivered hd]
    refine ⟨(aes_decryptMessage ..).trans h.haes, ?_⟩
    rcases receive_cases (t := t) hp h with ⟨-, -, hacc⟩ | ⟨-, hsame⟩
    · rw [if_pos hacc.2.2, hacc.2.2, show UInt32.ofNat 0 = 0 from rfl, UInt32.add_zero]
      rfl
    · split_ifs with hrx
      · rw [hrx, show UInt32.ofNat 0 = 0 from rfl, UInt32.add_zero]
        rfl
      · rw [hsame]
        exact h.getTxIv

theorem synced_of_init (h : Keyed.Link s) : Synced s := by
  obtain ⟨k, c, r, rfl⟩ := h
  exact ⟨rfl, by simp [Crypt.setKey]⟩

theorem synced_of_reaches (hp : p.Lawful)
    (h : Reaches Keyed.Link (fun s t u => send p s t = u) Within s) : Synced s := by
  refine h.invariant (fun s hs => synced_of_init hs) ?_
  rintro s t u hs - rfl
  exact synced_send hp hs

theorem nextOfs_bounds (c : Crypt) : 1 ≤ c.nextOfs.toNat ∧ c.nextOfs.toNat ≤ 4 := by
  have hlow : (c.ivofsVec >>> UInt32.ofNat (2 * c.ivofsIdx) &&& 3).toNat ≤ 3 := by
    rw [UInt32.toNat_and]
    exact Nat.and_le_right
  rw [Crypt.nextOfs, UInt32.toNat_add]
  change 1 ≤ (1 + _) % 2 ^ 32 ∧ (1 + _) % 2 ^ 32 ≤ 4
  omega

/-- A number of increments up to the size of the window is in the window, unless that goes
round. -/
theorem window_iff {rx : UInt32} {d : ℕ} (hpos : 1 ≤ d) (hd : d ≤ maxIvIncr.toNat) :
    rx < rx + UInt32.ofNat d ∧ rx + UInt32.ofNat d ≤ rx + maxIvIncr ↔ rx.toNat + 128 < 2 ^ 32 := by
  have hmax : maxIvIncr.toNat = 128 := rfl
  have hrx := rx.toNat_lt
  rw [UInt32.lt_iff_toNat_lt, UInt32.le_iff_toNat_le, UInt32.toNat_add, UInt32.toNat_add, hmax,
    UInt32.toNat_ofNat']
  omega

/-- In a run with losses within the window, a message that is delivered is accepted exactly if
the window of the receiver does not go beyond the 32 bits of the counter. -/
theorem accepted_iff_of_reaches (hp : p.Lawful)
    (h : Reaches Keyed.Link (fun s t u => send p s t = u) Within s) (hd : t.delivered = true)
    (hw : Within s t) : Accepted p s t ↔ s.receiver.rxIv.toNat + 128 < 2 ^ 32 := by
  have hs := synced_of_reaches hp h
  have hpos := (nextOfs_bounds s.sender).1
  rw [← window_iff (d := s.behind + s.sender.nextOfs.toNat) (by omega) (hw hd), ← hs.getTxIv]
  rcases receive_cases (t := t) hp hs with ⟨hlt, hle, hacc⟩ | ⟨hnot, hsame⟩
  · exact ⟨fun _ => ⟨hlt, hle⟩, fun _ => hacc⟩
  · refine ⟨fun hacc => ?_, fun hwin => absurd hwin hnot⟩
    -- the receiver stayed where it was, which is not where the message is
    have hiv := hacc.2.2
    rw [hsame, hs.getTxIv] at hiv
    have hd' := hw hd
    have hmax : maxIvIncr.toNat = 128 := rfl
    have hval := congrArg UInt32.toNat hiv
    have hrx := s.receiver.rxIv.toNat_lt
    rw [UInt32.toNat_add, UInt32.toNat_ofNat'] at hval
    omega

/-- The first message after the key was set is accepted, and a later one that is delivered in the
window exactly if the window of the receiver does not go beyond the 32 bits of the counter. -/
theorem accepted_iff (hp : p.Lawful) :
    (∀ s t, Keyed.Link s → t.delivered = true → Accepted p s t) ∧
      ∀ s t, Reaches Keyed.Link (fun s t u => send p s t = u) Within s → t.delivered = true →
        Within s t → (Accepted p s t ↔ s.receiver.rxIv.toNat + 128 < 2 ^ 32) := by
  refine ⟨fun s t hs hd => ?_, fun s t h hd hw => accepted_iff_of_reaches hp h hd hw⟩
  obtain ⟨k, c, r, rfl⟩ := hs
  have hofs := (nextOfs_bounds (c.setKey k)).2
  have hmax : maxIvIncr.toNat = 128 := rfl
  refine (accepted_iff_of_reaches hp (.start ⟨k, c, r, rfl⟩) hd fun _ => ?_).mpr ?_
  · simp only
    omega
  · -- the highest byte of the counter was cleared
    have hlow : (k.iv &&& 0xffffff).toNat ≤ 0xffffff := by
      rw [UInt32.toNat_and]
      exact Nat.and_le_right
    change (k.iv &&& 0xffffff).toNat + 128 < 2 ^ 32
    omega

end Delivery

/-- A key with the highest start and the largest increments. -/
def fastKey : SessionKey := ⟨[], 0xffffff, 0xffffffff⟩

/-- Both sides after they set that key. -/
def fastLink : Link := ⟨startCrypt.setKey fastKey, startCrypt.setKey fastKey, 0⟩

/-- A message with three bytes of contents that arrives. -/
def hello : Transfer where
  data := [1, 2, 3] ++ List.replicate 36 0
  len := 3
  fits := ⟨by decide, by decide⟩
  rest := []
  delivered := true

theorem keyed_fastLink : Keyed.Link fastLink := ⟨fastKey, startCrypt, startCrypt, rfl⟩

theorem accepted_hello : Accepted plainPrimitives fastLink hello :=
  (accepted_iff lawful_plainPrimitives).1 fastLink hello keyed_fastLink rfl

theorem nextOfs_fast {c : Crypt} (hvec : c.ivofsVec = 0xffffffff) (hidx : c.ivofsIdx < 16) :
    c.nextOfs = 4 := by
  have hall : ∀ i < 16, 1 + ((0xffffffff : UInt32) >>> UInt32.ofNat (2 * i) &&& 3) = 4 := by decide
  rw [Crypt.nextOfs, hvec]
  exact hall _ hidx

/-- After `n` messages, all of which arrived, both counters are `4 * n` further. -/
theorem exists_after (n : ℕ) (hn : n ≤ 1069547489) : ∃ s,
    Reaches Keyed.Link (fun s t u => send plainPrimitives s t = u) Within s ∧
      s.sender.ivofsVec = 0xffffffff ∧ s.sender.ivofsIdx < 16 ∧ s.behind = 0 ∧
      s.receiver.rxIv.toNat = 0xffffff + 4 * n := by
  induction n with
  | zero => exact ⟨fastLink, .start keyed_fastLink, rfl, by decide, rfl, rfl⟩
  | succ n ih =>
    obtain ⟨s, hs, hvec, hidx, hbehind, hrx⟩ := ih (by omega)
    have hofs := nextOfs_fast hvec hidx
    have hw : Within s hello := by
      intro _
      rw [hbehind, hofs]
      decide
    have hacc := (accepted_iff_of_reaches lawful_plainPrimitives hs (t := hello) rfl hw).mpr
      (by omega)
    have hiv := hacc.2.2
    have hafter : (receive plainPrimitives s hello).2.2.rxIv.toNat = 0xffffff + 4 * (n + 1) := by
      have hfour : (UInt32.ofNat (0 + (4 : UInt32).toNat)).toNat = 4 := rfl
      rw [hiv, (synced_of_reaches lawful_plainPrimitives hs).getTxIv, hbehind, hofs,
        UInt32.toNat_add, hrx, hfour]
      omega
    have hnext := send_of_delivered (p := plainPrimitives) (s := s) (t := hello) rfl
    rw [if_pos hiv] at hnext
    have hidx' : s.sender.getTxIv.2.ivofsIdx < 16 :=
      Nat.mod_lt (s.sender.ivofsIdx + 1) (show 0 < 16 by decide)
    have hsender : (send plainPrimitives s hello).sender = s.sender.getTxIv.2 := by rw [hnext]
    have hreceiver : (send plainPrimitives s hello).receiver =
        (receive plainPrimitives s hello).2.2 := by rw [hnext]
    have hcount : (send plainPrimitives s hello).behind = 0 := by rw [hnext]
    refine ⟨send plainPrimitives s hello, hs.next hello hw rfl, ?_⟩
    rw [hsender, hreceiver, hcount]
    exact ⟨hvec, hidx', rfl, hafter⟩

/-- After some 10 ^ 9 messages the window goes beyond the 32 bits, and the receiver refuses
what arrives. -/
theorem not_every_accepted : ¬ ∀ p : Primitives, p.Lawful → ∀ s t,
    Reaches Keyed.Link (fun s t u => send p s t = u) Within s → t.delivered = true →
      Within s t → Accepted p s t := by
  intro h
  obtain ⟨s, hs, hvec, hidx, hbehind, hrx⟩ := exists_after 1069547489 le_rfl
  have hw : Within s hello := by
    intro _
    rw [hbehind, nextOfs_fast hvec hidx]
    decide
  have hroom := (accepted_iff_of_reaches lawful_plainPrimitives hs (t := hello) rfl hw).mp
    (h plainPrimitives lawful_plainPrimitives s hello hs rfl hw)
  omega

end NeonWrt.Ead
