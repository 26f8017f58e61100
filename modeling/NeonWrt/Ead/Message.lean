import NeonWrt.Ead.Crypt
import NeonWrt.Lib.Binary

/-!
# Sealed messages, byte by byte

`ead_encrypt_message` and `ead_decrypt_message` work in place on the bytes behind the
header of a message: a hash over the message with its own field zeroed, the counter, the
number of padding bytes and the contents, padded to blocks of the hash and encrypted in
blocks of the cipher. The block cipher and the compression function of the hash are
parameters.
-/

namespace NeonWrt.Ead

open NeonWrt.Lib

/-- `rijndaelEncrypt` and `rijndaelDecrypt` under a key, and the hash with its state as the
twenty bytes that are stored. -/
structure Primitives where
  encrypt : Bytes → Bytes → Bytes
  decrypt : Bytes → Bytes → Bytes
  shaInit : Bytes
  shaTransform : Bytes → Bytes → Bytes

/-- Both directions of the cipher undo each other, and the hash has five words. -/
structure Primitives.Lawful (p : Primitives) : Prop where
  length_encrypt : ∀ k b, b.length = 16 → (p.encrypt k b).length = 16
  decrypt_encrypt : ∀ k b, b.length = 16 → p.decrypt k (p.encrypt k b) = b
  length_shaInit : p.shaInit.length = 20
  length_shaTransform : ∀ h b, (p.shaTransform h b).length = 20

/-- The loops over the blocks of the cipher. -/
def cryptBlocks (f : Bytes → Bytes) : ℕ → Bytes → Bytes
  | 0, data => data
  | n + 1, data => f (data.take 16) ++ cryptBlocks f n (data.drop 16)

/-- The loop over the blocks of the hash. -/
def hashBlocks (p : Primitives) : ℕ → Bytes → Bytes → Bytes
  | 0, hash, _ => hash
  | n + 1, hash, data => hashBlocks p n (p.shaTransform hash (data.take 64)) (data.drop 64)

/-- How often `while (len > 0)` runs when each round takes `size` off. -/
def rounds (size : ℕ) (len : ℤ) : ℕ := ((len + (size - 1)) / size).toNat

/-- `memset(enc->hash, 0, sizeof(enc->hash))` -/
def zeroHash (enc : Bytes) : Bytes := List.replicate 20 0 ++ enc.drop 20

/-- `ead_hash_message`: the hash, of the message with the field zeroed. -/
def hashMessage (p : Primitives) (enc : Bytes) (len : ℤ) : Bytes :=
  hashBlocks p (rounds 64 len) p.shaInit (zeroHash enc)

/-- The padding of contents of a length. -/
def padOf (len : ℕ) : ℕ := (encPad - (len + encSize) % encPad) % encPad

/-- `enclen` -/
def enclenOf (len : ℕ) : ℕ := len + encSize + padOf len

/-- The fields that `ead_encrypt_message` fills in, before the contents in the buffer. -/
def plainMessage (p : Primitives) (iv : UInt32) (data : Bytes) (len : ℕ) : Bytes :=
  let enc := List.replicate 20 0 ++ (Endian.big.u32 iv.toNat ++ (UInt8.ofNat (padOf len) :: data))
  hashMessage p enc (enclenOf len) ++ enc.drop 20

/-- `ead_encrypt_message` for contents of length `len` at the start of `data`, which goes on to
the end of the buffer: the bytes behind the header, `msg->len`, and the counters. -/
def encryptMessage (p : Primitives) (c : Crypt) (data : Bytes) (len : ℕ) : Bytes × ℕ × Crypt :=
  let (iv, c) := c.getTxIv
  (cryptBlocks (p.encrypt c.aes) (rounds 16 (enclenOf len)) (plainMessage p iv data len),
    enclenOf len, c)

/-- `int len = ntohl(msg->len)` -/
def messageLen (msgLen : UInt32) : ℤ :=
  if msgLen.toNat < 2147483648 then msgLen.toNat else (msgLen.toNat : ℤ) - 4294967296

/-- The `int` of a number that is not above its range. -/
def wrapInt (n : ℤ) : ℤ := if n < -2147483648 then n + 4294967296 else n

/-- `!len || (len % EAD_ENC_PAD > 0)`; the remainder of a negative length is not positive. -/
def badLength (len : ℤ) : Prop := len = 0 ∨ 0 < len.tmod encPad

instance (len : ℤ) : Decidable (badLength len) := inferInstanceAs (Decidable (_ ∨ _))

/-- The message after it was decrypted in place. -/
def opened (p : Primitives) (c : Crypt) (enc : Bytes) (len : ℤ) : Bytes :=
  cryptBlocks (p.decrypt c.aes) (rounds 16 len) enc

/-- `enc->pad` -/
def padField (enc : Bytes) : ℕ := (enc.getD 24 0).toNat

/-- `ntohl(enc->iv)` -/
def ivField (enc : Bytes) : UInt32 := UInt32.ofNat (Endian.big.getU32 enc 20)

/-- `ead_decrypt_message` on the bytes behind the header: the length of the contents, the bytes
afterwards, and the counters. The counter moves before the hash is compared. -/
def decryptMessage (p : Primitives) (c : Crypt) (enc : Bytes) (msgLen : UInt32) :
    ℤ × Bytes × Crypt :=
  let len := messageLen msgLen
  if badLength len then (0, enc, c)
  else
    let enc := opened p c enc len
    if encPad ≤ padField enc then (0, enc, c)
    else
      let (ok, c) := c.checkRxIv (ivField enc)
      if !ok then (0, enc, c)
      else if enc.take 20 ≠ hashMessage p enc len then (0, zeroHash enc, c)
      else (wrapInt (len - (padField enc + encSize)), zeroHash enc, c)

section Loops

variable {p : Primitives} {f g : Bytes → Bytes} {n : ℕ} {a r : Bytes}

theorem cryptBlocks_append (h : a.length = 16 * n) :
    cryptBlocks f n (a ++ r) = cryptBlocks f n a ++ r := by
  induction n generalizing a with
  | zero =>
    rw [List.length_eq_zero_iff.mp h]
    rfl
  | succ n ih =>
    have hlen : (a.drop 16).length = 16 * n := by
      rw [List.length_drop]
      omega
    rw [cryptBlocks, cryptBlocks, List.take_append_of_le_length (by omega),
      List.drop_append_of_le_length (by omega), ih hlen, List.append_assoc]

theorem length_cryptBlocks (hf : ∀ b : Bytes, b.length = 16 → (f b).length = 16)
    (h : a.length = 16 * n) : (cryptBlocks f n a).length = 16 * n := by
  induction n generalizing a with
  | zero => exact h
  | succ n ih =>
    have hfirst : (a.take 16).length = 16 := by
      rw [List.length_take]
      omega
    have hlen : (a.drop 16).length = 16 * n := by
      rw [List.length_drop]
      omega
    rw [cryptBlocks, List.length_append, hf _ hfirst, ih hlen]
    omega

/-- Block by block, one direction undoes the other. -/
theorem cryptBlocks_cryptBlocks (hf : ∀ b : Bytes, b.length = 16 → (f b).length = 16)
    (hg : ∀ b : Bytes, b.length = 16 → g (f b) = b) (h : a.length = 16 * n) :
    cryptBlocks g n (cryptBlocks f n a) = a := by
  induction n generalizing a with
  | zero => rfl
  | succ n ih =>
    have hfirst : (a.take 16).length = 16 := by
      rw [List.length_take]
      omega
    have hlen : (a.drop 16).length = 16 * n := by
      rw [List.length_drop]
      omega
    rw [cryptBlocks, cryptBlocks, List.take_left' (hf _ hfirst), List.drop_left' (hf _ hfirst),
      hg _ hfirst, ih hlen, List.take_append_drop]

theorem hashBlocks_append {h : Bytes} (ha : a.length = 64 * n) :
    hashBlocks p n h (a ++ r) = hashBlocks p n h a := by
  induction n generalizing a h with
  | zero => rfl
  | succ n ih =>
    have hlen : (a.drop 64).length = 64 * n := by
      rw [List.length_drop]
      omega
    rw [hashBlocks, hashBlocks, List.take_append_of_le_length (by omega),
      List.drop_append_of_le_length (by omega), ih hlen]

theorem length_hashBlocks (hp : p.Lawful) {h : Bytes} (hh : h.length = 20) :
    (hashBlocks p n h a).length = 20 := by
  induction n generalizing a h with
  | zero => exact hh
  | succ n ih => exact ih (hp.length_shaTransform ..)

theorem rounds_mul {size : ℕ} (hsize : 0 < size) : rounds size ((size * n : ℕ) : ℤ) = n := by
  have hdiv : (((size * n : ℕ) : ℤ) + (size - 1)) / size = n := by
    rw [Int.natCast_mul, Int.add_comm, Int.add_mul_ediv_left _ _ (by omega),
      Int.ediv_eq_zero_of_lt (by omega) (by omega), Int.zero_add]
  rw [rounds, hdiv, Int.toNat_natCast]

/-- A message has whole blocks of the hash, so it has whole blocks of the cipher. -/
theorem enclenOf_eq (len : ℕ) : ∃ n, enclenOf len = 64 * n := by
  refine ⟨enclenOf len / 64, ?_⟩
  simp only [enclenOf, padOf, encPad, encSize]
  omega

theorem padOf_lt (len : ℕ) : padOf len < 64 := Nat.mod_lt _ (by decide)

end Loops

section Sealing

variable {p : Primitives} {c r : Crypt} {data rest : Bytes} {len : ℕ}

theorem length_hashMessage (hp : p.Lawful) (enc : Bytes) (len : ℤ) :
    (hashMessage p enc len).length = 20 := length_hashBlocks hp hp.length_shaInit

/-- The fields of a message, with the contents and what lies behind them. -/
theorem plainMessage_eq (p : Primitives) (iv : UInt32) (data : Bytes) (len : ℕ) :
    ∃ hash, plainMessage p iv data len =
        hash ++ (Endian.big.u32 iv.toNat ++ (UInt8.ofNat (padOf len) :: data)) ∧
      hash = hashMessage p
        (List.replicate 20 0 ++ (Endian.big.u32 iv.toNat ++ (UInt8.ofNat (padOf len) :: data)))
        (enclenOf len) :=
  ⟨_, rfl, rfl⟩

/-- Only the message itself is hashed, whatever its hash field holds. -/
theorem hashMessage_take {hash hash' body : Bytes} {n : ℕ} (hn : 0 < n) (hhash : hash.length = 20)
    (hhash' : hash'.length = 20) (hbody : 64 * n ≤ 20 + body.length) (rest : Bytes) :
    hashMessage p ((hash ++ body).take (64 * n) ++ rest) ((64 * n : ℕ) : ℤ) =
      hashMessage p (hash' ++ body) ((64 * n : ℕ) : ℤ) := by
  have hzero : zeroHash ((hash ++ body).take (64 * n) ++ rest) =
      (List.replicate 20 0 ++ body.take (64 * n - 20)) ++ rest := by
    rw [List.take_append, List.take_of_length_le (by omega), hhash, zeroHash, List.append_assoc,
      List.drop_left' hhash, List.append_assoc]
  have hzero' : zeroHash (hash' ++ body) =
      (List.replicate 20 0 ++ body.take (64 * n - 20)) ++ body.drop (64 * n - 20) := by
    rw [zeroHash, List.drop_left' hhash', List.append_assoc, List.take_append_drop]
  have hlen : (List.replicate 20 (0 : UInt8) ++ body.take (64 * n - 20)).length = 64 * n := by
    rw [List.length_append, List.length_replicate, List.length_take]
    omega
  rw [hashMessage, hashMessage, rounds_mul (by decide), hzero, hzero', hashBlocks_append hlen,
    hashBlocks_append hlen]

theorem opened_sealed (hp : p.Lawful) {plain : Bytes} (hkey : r.aes = c.aes)
    (hfit : enclenOf len ≤ plain.length) :
    opened p r ((cryptBlocks (p.encrypt c.aes) (rounds 16 (enclenOf len)) plain).take
      (enclenOf len) ++ rest) (enclenOf len) = plain.take (enclenOf len) ++ rest := by
  obtain ⟨n, hn⟩ := enclenOf_eq len
  have hmul : 64 * n = 16 * (4 * n) := by omega
  rw [hn] at hfit ⊢
  have hlen : (plain.take (64 * n)).length = 16 * (4 * n) := by
    rw [List.length_take]
    omega
  have hsealed := length_cryptBlocks (hp.length_encrypt c.aes) hlen
  have hfront : (cryptBlocks (p.encrypt c.aes) (4 * n) plain).take (64 * n) =
      cryptBlocks (p.encrypt c.aes) (4 * n) (plain.take (64 * n)) := by
    conv_lhs => rw [← List.take_append_drop (64 * n) plain]
    rw [cryptBlocks_append hlen, List.take_left' (by omega)]
  rw [opened, hmul, rounds_mul (by decide), ← hmul, hfront, hkey, cryptBlocks_append hsealed,
    cryptBlocks_cryptBlocks (hp.length_encrypt c.aes) (hp.decrypt_encrypt c.aes) hlen]

/-- A length that an `int` holds is read back. -/
theorem messageLen_ofNat {n : ℕ} (h : n < 2147483648) : messageLen (UInt32.ofNat n) = n := by
  have hmod : n % 2 ^ 32 = n := by omega
  have hword : (UInt32.ofNat n).toNat = n := by rw [UInt32.toNat_ofNat', hmod]
  rw [messageLen, hword, if_pos h]

/-- A sealed message has a length that is accepted. -/
theorem not_badLength_enclenOf (len : ℕ) : ¬ badLength (enclenOf len) := by
  obtain ⟨n, hn⟩ := enclenOf_eq len
  have hpos : 0 < enclenOf len := by
    unfold enclenOf encSize
    omega
  have hrem : ((enclenOf len : ℕ) : ℤ).tmod ((encPad : ℕ) : ℤ) = 0 := by
    rw [← Int.ofNat_tmod, hn, encPad, Nat.mul_mod_right]
    rfl
  rintro (hzero | hbad)
  · omega
  · rw [hrem] at hbad
    exact absurd hbad (by decide)

/-- The bytes on the wire of a message that was sealed. -/
def wire (p : Primitives) (c : Crypt) (data : Bytes) (len : ℕ) : Bytes :=
  (encryptMessage p c data len).1.take (enclenOf len)

/-- Contents of a length, with their padding, in a buffer that is not larger than `PCAP_MRU`. -/
structure Fits (data : Bytes) (len : ℕ) : Prop where
  hpadded : enclenOf len ≤ encSize + data.length
  hmru : data.length ≤ 1600

/-- What opening a sealed message gives: the counter decides. -/
theorem decryptMessage_sealed (hp : p.Lawful) (hkey : r.aes = c.aes) (hfit : Fits data len)
    (rest : Bytes) : ∃ front : Bytes, front.length = encSize ∧
      decryptMessage p r (wire p c data len ++ rest) (UInt32.ofNat (enclenOf len)) =
        match r.checkRxIv c.getTxIv.1 with
        | (true, r') => ((len : ℤ),
            List.replicate 20 0 ++ (front ++ data.take (enclenOf len - encSize) ++ rest).drop 20, r')
        | (false, r') => (0, front ++ data.take (enclenOf len - encSize) ++ rest, r') := by
  obtain ⟨iv, hiv⟩ : ∃ iv, iv = c.getTxIv.1 := ⟨_, rfl⟩
  obtain ⟨hash, hplain, hhash⟩ := plainMessage_eq p iv data len
  have hlen : hash.length = 20 := hhash ▸ length_hashMessage hp ..
  have hbody : (Endian.big.u32 iv.toNat ++ UInt8.ofNat (padOf len) :: data).length =
      5 + data.length := by
    rw [List.length_append, Endian.length_u32, List.length_cons]
    omega
  have hsize : enclenOf len ≤ (plainMessage p iv data len).length := by
    have := hfit.hpadded
    rw [hplain, List.length_append, hbody, hlen]
    unfold encSize at this
    omega
  have hmru : enclenOf len < 2147483648 := by
    have h₁ := hfit.hpadded
    have h₂ := hfit.hmru
    unfold encSize at h₁
    omega
  have hlength := messageLen_ofNat hmru
  have hgood := not_badLength_enclenOf len
  have hwire : wire p c data len = (cryptBlocks (p.encrypt c.aes) (rounds 16 (enclenOf len))
      (plainMessage p iv data len)).take (enclenOf len) := by
    rw [hiv]
    rfl
  have hpad : encSize ≤ enclenOf len := by
    unfold enclenOf
    omega
  obtain ⟨m, hm⟩ : ∃ m, enclenOf len = m + encSize := ⟨enclenOf len - encSize, by omega⟩
  obtain ⟨front, hfront⟩ : ∃ front,
      front = hash ++ Endian.big.u32 iv.toNat ++ [UInt8.ofNat (padOf len)] := ⟨_, rfl⟩
  have hfrontlen : front.length = encSize := by
    rw [hfront, List.length_append, List.length_append, Endian.length_u32, hlen]
    rfl
  have htake : (plainMessage p iv data len).take (enclenOf len) = front ++ data.take m := by
    have hassoc : hash ++ (Endian.big.u32 iv.toNat ++ UInt8.ofNat (padOf len) :: data) =
        front ++ data := by
      rw [hfront]
      simp
    rw [hplain, hassoc, hm, Nat.add_comm, ← hfrontlen, List.take_length_add_append]
  -- the message as it was before it was encrypted
  have hopened : opened p r (wire p c data len ++ rest) (enclenOf len) =
      front ++ data.take m ++ rest := by
    rw [hwire, opened_sealed hp hkey hsize, htake]
  have hpadField : padField (front ++ data.take m ++ rest) = padOf len := by
    have hget : (front ++ data.take m ++ rest).getD 24 0 = UInt8.ofNat (padOf len) := by
      rw [hfront]
      simp [List.getD_eq_getElem?_getD, List.getElem?_append, hlen, Endian.length_u32]
    rw [padField, hget, UInt8.toNat_ofNat']
    exact Nat.mod_eq_of_lt (lt_trans (padOf_lt len) (by decide))
  have hivField : ivField (front ++ data.take m ++ rest) = iv := by
    have hat := hasAt_middle hash (Endian.big.u32 iv.toNat)
      ([UInt8.ofNat (padOf len)] ++ data.take m ++ rest)
    rw [hlen] at hat
    rw [ivField, hfront]
    simp only [List.append_assoc] at hat ⊢
    rw [hat.endian, Nat.mod_eq_of_lt iv.toNat_lt, UInt32.ofNat_toNat]
  have hhashed : hashMessage p (front ++ data.take m ++ rest) (enclenOf len) = hash := by
    obtain ⟨n, hn⟩ := enclenOf_eq len
    have hn0 : 0 < n := by
      unfold encSize at hm
      omega
    rw [← htake, hplain, hn, hashMessage_take hn0 hlen List.length_replicate
      (by rw [hbody]; have := hfit.hpadded; unfold encSize at this; omega) rest, ← hn, ← hhash]
  have hsum : wrapInt ((enclenOf len : ℤ) - ((padOf len : ℕ) + encSize)) = len := by
    have hval : (enclenOf len : ℤ) - ((padOf len : ℕ) + encSize) = len := by
      unfold enclenOf
      omega
    rw [hval]
    exact if_neg (by omega)
  have hfirst : (front ++ data.take m ++ rest).take 20 = hash := by
    rw [hfront]
    simp only [List.append_assoc]
    exact List.take_left' hlen
  refine ⟨front, hfrontlen, ?_⟩
  have hpadlt : ¬ encPad ≤ padOf len := not_le.mpr (padOf_lt len)
  rw [decryptMessage, hlength, if_neg hgood, hopened]
  simp only [hpadField, if_neg hpadlt, hivField, ← hiv, hm, Nat.add_sub_cancel]
  rw [← hm]
  cases r.checkRxIv iv with
  | mk ok r' =>
    cases ok with
    | false => rfl
    | true => simp only [hfirst, hhashed, ne_eq, not_true_eq_false, if_false, hsum, Bool.not_true,
        Bool.false_eq_true]; rfl

/-- A sealed message in the window comes back with its length and its contents. -/
theorem decryptMessage_encryptMessage (hp : p.Lawful) (hkey : r.aes = c.aes) (hfit : Fits data len)
    (hlt : r.rxIv < c.getTxIv.1) (hle : c.getTxIv.1 ≤ r.rxIv + maxIvIncr) (rest : Bytes) :
    (decryptMessage p r (wire p c data len ++ rest) (UInt32.ofNat (enclenOf len))).1 = len ∧
      ((decryptMessage p r (wire p c data len ++ rest) (UInt32.ofNat (enclenOf len))).2.1.drop
        encSize).take len = data.take len ∧
      (decryptMessage p r (wire p c data len ++ rest) (UInt32.ofNat (enclenOf len))).2.2 =
        { r with rxIv := c.getTxIv.1 } := by
  obtain ⟨front, hfront, h⟩ := decryptMessage_sealed hp hkey hfit rest
  have hcheck : r.checkRxIv c.getTxIv.1 = (true, { r with rxIv := c.getTxIv.1 }) := by
    rw [Crypt.checkRxIv, if_neg (UInt32.not_le.mpr hlt), if_neg (UInt32.not_lt.mpr hle)]
  rw [h, hcheck]
  refine ⟨rfl, ?_, rfl⟩
  have hdrop : (List.replicate 20 (0 : UInt8) ++
      (front ++ data.take (enclenOf len - encSize) ++ rest).drop 20).drop encSize =
      data.take (enclenOf len - encSize) ++ rest := by
    rw [List.drop_append, List.drop_of_length_le (by rw [List.length_replicate]; decide),
      List.length_replicate, List.nil_append, List.drop_drop, List.append_assoc]
    exact List.drop_left' hfront
  have hlen : len ≤ enclenOf len - encSize := by
    unfold enclenOf
    omega
  have hdata : len ≤ (data.take (enclenOf len - encSize)).length := by
    have := hfit.hpadded
    rw [List.length_take]
    omega
  rw [hdrop, List.take_append_of_le_length hdata, List.take_take, Nat.min_eq_left hlen]

/-- A sealed message that is not in the window is not accepted. -/
theorem decryptMessage_of_window (hp : p.Lawful) (hkey : r.aes = c.aes) (hfit : Fits data len)
    (h : ¬ (r.rxIv < c.getTxIv.1 ∧ c.getTxIv.1 ≤ r.rxIv + maxIvIncr)) (rest : Bytes) :
    (decryptMessage p r (wire p c data len ++ rest) (UInt32.ofNat (enclenOf len))).2.2 = r := by
  obtain ⟨front, -, heq⟩ := decryptMessage_sealed hp hkey hfit rest
  rw [heq]
  cases hcheck : r.checkRxIv c.getTxIv.1 with
  | mk ok r' =>
    cases ok with
    | false => exact Crypt.checkRxIv_false hcheck
    | true =>
      obtain ⟨hlt, hle, -⟩ := Crypt.checkRxIv_true hcheck
      exact absurd ⟨hlt, hle⟩ h

end Sealing

section Rejected

variable (p : Primitives) (c : Crypt) (enc : Bytes) (msgLen : UInt32)

/-- The tests before the counter moves: the length, the padding, and the window. -/
def Ahead : Prop :=
  let enc := opened p c enc (messageLen msgLen)
  ¬ badLength (messageLen msgLen) ∧ padField enc < encPad ∧ c.rxIv < ivField enc ∧
    ivField enc ≤ c.rxIv + maxIvIncr

/-- The tests behind it: the hash, and that there are contents. -/
def Genuine : Prop :=
  let enc := opened p c enc (messageLen msgLen)
  enc.take 20 = hashMessage p enc (messageLen msgLen) ∧
    0 < wrapInt (messageLen msgLen - (padField enc + encSize))

/-- The counter moves exactly for messages that pass the tests before. -/
theorem rxIv_decryptMessage (h : Ahead p c enc msgLen) :
    (decryptMessage p c enc msgLen).2.2.rxIv = ivField (opened p c enc (messageLen msgLen)) := by
  obtain ⟨hlen, hpad, hlt, hle⟩ := h
  have hcheck : c.checkRxIv (ivField (opened p c enc (messageLen msgLen))) =
      (true, { c with rxIv := ivField (opened p c enc (messageLen msgLen)) }) := by
    rw [Crypt.checkRxIv, if_neg (UInt32.not_le.mpr hlt), if_neg (UInt32.not_lt.mpr hle)]
  rw [decryptMessage, if_neg hlen, if_neg (not_le.mpr hpad), hcheck]
  simp only [Bool.not_true, Bool.false_eq_true, if_false]
  split_ifs <;> rfl

theorem decryptMessage_of_not_ahead (h : ¬ Ahead p c enc msgLen) :
    (decryptMessage p c enc msgLen).1 = 0 ∧ (decryptMessage p c enc msgLen).2.2 = c := by
  rw [decryptMessage]
  by_cases hlen : badLength (messageLen msgLen)
  · rw [if_pos hlen]
    exact ⟨rfl, rfl⟩
  by_cases hpad : encPad ≤ padField (opened p c enc (messageLen msgLen))
  · rw [if_neg hlen, if_pos hpad]
    exact ⟨rfl, rfl⟩
  rw [if_neg hlen, if_neg hpad]
  cases hcheck : c.checkRxIv (ivField (opened p c enc (messageLen msgLen))) with
  | mk ok c' =>
    cases ok with
    | false => exact ⟨rfl, Crypt.checkRxIv_false hcheck⟩
    | true =>
      obtain ⟨hlt, hle, -⟩ := Crypt.checkRxIv_true hcheck
      exact absurd ⟨hlen, not_le.mp hpad, hlt, hle⟩ h

theorem decryptMessage_pos_iff (h : Ahead p c enc msgLen) :
    0 < (decryptMessage p c enc msgLen).1 ↔ Genuine p c enc msgLen := by
  obtain ⟨hlen, hpad, hlt, hle⟩ := h
  have hcheck : c.checkRxIv (ivField (opened p c enc (messageLen msgLen))) =
      (true, { c with rxIv := ivField (opened p c enc (messageLen msgLen)) }) := by
    rw [Crypt.checkRxIv, if_neg (UInt32.not_le.mpr hlt), if_neg (UInt32.not_lt.mpr hle)]
  rw [decryptMessage, if_neg hlen, if_neg (not_le.mpr hpad), hcheck, Genuine]
  simp only [Bool.not_true, Bool.false_eq_true, if_false]
  split_ifs with hhash
  · simp [hhash]
  · simp only [ne_eq, not_not] at hhash
    simp only [hhash, true_and]

/-- A rejected message leaves the counter alone, unless it passes the tests before the counter
moves and fails one behind it. -/
theorem rxIv_unchanged_iff :
    ((decryptMessage p c enc msgLen).1 ≤ 0 → (decryptMessage p c enc msgLen).2.2.rxIv = c.rxIv) ↔
      (Ahead p c enc msgLen → Genuine p c enc msgLen) := by
  by_cases hahead : Ahead p c enc msgLen
  · have hmoved : (decryptMessage p c enc msgLen).2.2.rxIv ≠ c.rxIv := by
      rw [rxIv_decryptMessage p c enc msgLen hahead]
      exact (UInt32.ne_of_lt hahead.2.2.1).symm
    rw [← decryptMessage_pos_iff p c enc msgLen hahead]
    constructor
    · intro h _
      exact Int.not_le.mp fun hle => hmoved (h hle)
    · intro h hle
      exact absurd (h hahead) (Int.not_lt.mpr hle)
  · obtain ⟨-, hsame⟩ := decryptMessage_of_not_ahead p c enc msgLen hahead
    rw [hsame]
    exact ⟨fun _ h => absurd h hahead, fun _ _ => rfl⟩

end Rejected

/-- No encryption, and the end of the last block as the hash. -/
def plainPrimitives : Primitives where
  encrypt _ b := b
  decrypt _ b := b
  shaInit := List.replicate 20 0
  shaTransform _ b := ((b.drop 44) ++ List.replicate 20 0).take 20

theorem lawful_plainPrimitives : plainPrimitives.Lawful where
  length_encrypt _ _ h := h
  decrypt_encrypt _ _ _ := rfl
  length_shaInit := rfl
  length_shaTransform h b := by
    simp only [plainPrimitives, List.length_take, List.length_append, List.length_replicate]
    omega

/-- The counters of both sides before the first message. -/
def startCrypt : Crypt := ⟨[], 0, 0, 0, 0⟩

/-- A message with three bytes of contents. -/
def genuineWire : Bytes := wire plainPrimitives startCrypt ([1, 2, 3] ++ List.replicate 61 0) 3

/-- The message with its last byte changed, which is not accepted. It moves the counter, and
then the message itself is refused. -/
theorem not_rxIv_unchanged :
    let corrupted := genuineWire.dropLast ++ [255]
    let after := decryptMessage plainPrimitives startCrypt corrupted 64
    (decryptMessage plainPrimitives startCrypt genuineWire 64).1 = 3 ∧
      ¬ (after.1 ≤ 0 → after.2.2.rxIv = startCrypt.rxIv) ∧
      (decryptMessage plainPrimitives after.2.2 genuineWire 64).1 = 0 := by
  decide +kernel

end NeonWrt.Ead
