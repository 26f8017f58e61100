import NeonWrt.Ead.Bounds
import NeonWrt.Lib.OnesSum

/-!
# The checksums of the daemon's replies

`ead_send_packet_clone` makes the packet around a reply from the headers of the request and
computes both checksums with `chksum`, which adds the carry after each word.
-/

namespace NeonWrt.Ead

open NeonWrt.Lib

/-- `sum += t; if (sum < t) sum++;` -/
def addCarry (sum t : ℕ) : ℕ :=
  let sum := (sum + t) % 65536
  if sum < t then (sum + 1) % 65536 else sum

/-- `chksum` -/
def chksum (sum : ℕ) : Bytes → ℕ
  | a :: b :: data => chksum (addCarry sum (256 * a.toNat + b.toNat)) data
  | [a] => addCarry sum (256 * a.toNat)
  | [] => sum

/-- `struct ead_packet`; the message is all that follows the headers in the buffer. -/
structure EadPacket where
  dhost : Bytes
  shost : Bytes
  etherType : Bytes
  vhl : UInt8
  tos : UInt8
  len : Bytes
  ipid : Bytes
  ipoffset : Bytes
  ttl : UInt8
  proto : UInt8
  ipchksum : Bytes
  srcipaddr : Bytes
  destipaddr : Bytes
  srcport : Bytes
  destport : Bytes
  udplen : Bytes
  udpchksum : Bytes
  msg : Bytes

namespace EadPacket

/-- A buffer, read as a packet. -/
def ofBytes (b : Bytes) : EadPacket where
  dhost := b.take 6
  shost := (b.drop 6).take 6
  etherType := (b.drop 12).take 2
  vhl := b.getD 14 0
  tos := b.getD 15 0
  len := (b.drop 16).take 2
  ipid := (b.drop 18).take 2
  ipoffset := (b.drop 20).take 2
  ttl := b.getD 22 0
  proto := b.getD 23 0
  ipchksum := (b.drop 24).take 2
  srcipaddr := (b.drop 26).take 4
  destipaddr := (b.drop 30).take 4
  srcport := (b.drop 34).take 2
  destport := (b.drop 36).take 2
  udplen := (b.drop 38).take 2
  udpchksum := (b.drop 40).take 2
  msg := b.drop 42

variable (p : EadPacket)

/-- The twenty bytes from `vhl` on. -/
def ipHeader : Bytes :=
  [p.vhl, p.tos] ++ p.len ++ p.ipid ++ p.ipoffset ++ [p.ttl, p.proto] ++ p.ipchksum ++
    (p.srcipaddr ++ p.destipaddr)

/-- The eight bytes from `srcport` on. -/
def udpHeader : Bytes := p.srcport ++ p.destport ++ p.udplen ++ p.udpchksum

/-- The buffer a packet is in. -/
def toBytes : Bytes :=
  p.dhost ++ p.shost ++ p.etherType ++ (p.ipHeader ++ (p.udpHeader ++ p.msg))

/-- `ntohl(msg.len)` -/
def msgLen : ℕ := Endian.big.getU32 p.msg 4

end EadPacket

/-- `UIP_IPH_LEN` -/
def uipIphLen : ℕ := 20

/-- `UIP_PROTO_UDP` -/
def uipProtoUdp : ℕ := 17

/-- `if (sum == 0) sum = 0xffff;` and the complement in network order. -/
def storedSum (sum : ℕ) : Bytes := Endian.big.u16 (65535 - if sum = 0 then 65535 else sum)

/-- `ead_send_packet_clone`: the buffer afterwards and the bytes that are sent. -/
def eadSendPacketClone (ethmac : Bytes) (pktbuf pkt : EadPacket) : EadPacket × Bytes :=
  -- memcpy(pktbuf, pkt, offsetof(struct ead_packet, msg))
  let pktbuf := { pkt with msg := pktbuf.msg, shost := ethmac, dhost := pkt.shost }
  -- ip header
  let len := (62 - 14 + pktbuf.msgLen) % 65536
  let pktbuf := { pktbuf with
    len := [UInt8.ofNat (len / 256), UInt8.ofNat len]
    srcipaddr := (pkt.msg.drop 16).take 4
    destipaddr := pkt.srcipaddr
    ipchksum := [0, 0] }
  let pktbuf := { pktbuf with ipchksum := storedSum (chksum 0 pktbuf.ipHeader) }
  -- udp header
  let len := (len + 65536 - uipIphLen) % 65536
  let pktbuf := { pktbuf with
    srcport := pkt.destport
    destport := pkt.srcport
    udplen := Endian.big.u16 len
    udpchksum := [0, 0] }
  let sum := chksum ((len + uipProtoUdp) % 65536) (pktbuf.srcipaddr ++ pktbuf.destipaddr)
  let sum := chksum sum ((pktbuf.udpHeader ++ pktbuf.msg).take len)
  let pktbuf := { pktbuf with udpchksum := storedSum sum }
  (pktbuf, pktbuf.toBytes.take (62 + pktbuf.msgLen))

/-- What UDP sums before the segment of a packet: the addresses, the protocol and the length. -/
def pseudoHeader (sent : Bytes) : Bytes :=
  (sent.drop 26).take 8 ++ [0, sent.getD 23 0] ++ Endian.big.u16 (sent.drop 34).length

theorem addCarry_eq {sum t : ℕ} (hsum : sum < 65536) (ht : t < 65536) :
    addCarry sum t = foldCarries (sum + t) := by
  simp only [addCarry]
  refine eq_foldCarries ?_ ?_ ?_ <;> split_ifs <;> omega

/-- Adding each carry at once comes to folding them in at the end. -/
theorem chksum_eq {sum : ℕ} (hsum : sum < 65536) (data : Bytes) :
    chksum sum data = foldCarries (sum + wordSum data) := by
  fun_induction chksum sum data with
  | case1 sum a b data ih =>
    have ha := a.toNat_lt
    have hb := b.toNat_lt
    have hword := addCarry_eq hsum (show 256 * a.toNat + b.toNat < 65536 by omega)
    rw [ih (hword ▸ (foldCarries_spec _).1), hword, foldCarries_add, wordSum, Nat.add_assoc]
  | case2 sum a =>
    have ha := a.toNat_lt
    exact addCarry_eq hsum (by omega)
  | case3 sum => exact (foldCarries_of_lt hsum).symm

theorem wordSum_storedSum {n : ℕ} (h : 0 < n) :
    wordSum (storedSum (foldCarries n)) = 65535 - foldCarries n := by
  obtain ⟨hlt, -, hzero⟩ := foldCarries_spec n
  rw [storedSum, if_neg (by omega), wordSum_u16 (by omega)]

theorem length_storedSum (sum : ℕ) : (storedSum sum).length = 2 := Endian.length_u16 _ _

/-- A checksum field that holds the complement of the sum with zero in its place. -/
theorem onesSum_storedSum {front back : Bytes} {n : ℕ} (heven : front.length % 2 = 0)
    (hn : n = wordSum front + wordSum back) (hpos : 0 < n) :
    onesSum (front ++ (storedSum (foldCarries n) ++ back)) = 65535 := by
  have hsum : wordSum front + (65535 - foldCarries n + wordSum back) =
      n + (65535 - foldCarries n) := by omega
  rw [onesSum, wordSum_append heven, wordSum_append (by rw [length_storedSum]),
    wordSum_storedSum hpos, hsum]
  exact foldCarries_complement hpos

namespace EadPacket

/-- The fields have the lengths of their types. -/
structure Sized (p : EadPacket) : Prop where
  hdhost : p.dhost.length = 6
  hshost : p.shost.length = 6
  hetherType : p.etherType.length = 2
  hlen : p.len.length = 2
  hipid : p.ipid.length = 2
  hipoffset : p.ipoffset.length = 2
  hipchksum : p.ipchksum.length = 2
  hsrcipaddr : p.srcipaddr.length = 4
  hdestipaddr : p.destipaddr.length = 4
  hsrcport : p.srcport.length = 2
  hdestport : p.destport.length = 2
  hudplen : p.udplen.length = 2
  hudpchksum : p.udpchksum.length = 2

theorem sized_ofBytes {b : Bytes} (h : 42 ≤ b.length) : (ofBytes b).Sized := by
  constructor <;> simp only [ofBytes, List.length_take, List.length_drop] <;> omega

variable {p : EadPacket}

theorem Sized.length_ipHeader (h : p.Sized) : p.ipHeader.length = 20 := by
  simp [ipHeader, h.hlen, h.hipid, h.hipoffset, h.hipchksum, h.hsrcipaddr, h.hdestipaddr]

theorem Sized.length_udpHeader (h : p.Sized) : p.udpHeader.length = 8 := by
  simp [udpHeader, h.hsrcport, h.hdestport, h.hudplen, h.hudpchksum]

theorem Sized.length_ethHeader (h : p.Sized) : (p.dhost ++ p.shost ++ p.etherType).length = 14 := by
  simp [h.hdhost, h.hshost, h.hetherType]

theorem Sized.drop_toBytes (h : p.Sized) :
    p.toBytes.drop 14 = p.ipHeader ++ (p.udpHeader ++ p.msg) := List.drop_left' h.length_ethHeader

theorem Sized.ipHeader_toBytes (h : p.Sized) : (p.toBytes.drop 14).take 20 = p.ipHeader := by
  rw [h.drop_toBytes, List.take_left' h.length_ipHeader]

theorem Sized.segment_toBytes (h : p.Sized) : p.toBytes.drop 34 = p.udpHeader ++ p.msg := by
  rw [show 34 = 14 + 20 from rfl, ← List.drop_drop, h.drop_toBytes,
    List.drop_left' h.length_ipHeader]

theorem Sized.addresses_toBytes (h : p.Sized) :
    (p.toBytes.drop 26).take 8 = p.srcipaddr ++ p.destipaddr := by
  have hfront : ([p.vhl, p.tos] ++ p.len ++ p.ipid ++ p.ipoffset ++ [p.ttl, p.proto] ++
      p.ipchksum).length = 12 := by
    simp [h.hlen, h.hipid, h.hipoffset, h.hipchksum]
  have haddresses : (p.srcipaddr ++ p.destipaddr).length = 8 := by
    simp [h.hsrcipaddr, h.hdestipaddr]
  rw [show 26 = 14 + 12 from rfl, ← List.drop_drop, h.drop_toBytes, ipHeader, List.append_assoc,
    List.drop_left' hfront, List.take_left' haddresses]

theorem Sized.proto_toBytes (h : p.Sized) : p.toBytes.getD 23 0 = p.proto := by
  obtain ⟨a, b, hlen⟩ := List.length_eq_two.mp h.hlen
  obtain ⟨c, d, hipid⟩ := List.length_eq_two.mp h.hipid
  obtain ⟨e, f, hipoffset⟩ := List.length_eq_two.mp h.hipoffset
  have hdrop : p.toBytes.getD 23 0 = (p.toBytes.drop 14).getD 9 0 := by
    simp only [List.getD_eq_getElem?_getD, List.getElem?_drop]
  rw [hdrop, h.drop_toBytes, ipHeader, hlen, hipid, hipoffset]
  rfl

/-- The beginning of a buffer is a packet with the beginning of the message. -/
theorem Sized.take_toBytes (h : p.Sized) (n : ℕ) :
    p.toBytes.take (62 + n) = { p with msg := p.msg.take (20 + n) }.toBytes := by
  have hsum : 62 + n = (p.dhost ++ p.shost ++ p.etherType).length +
      (p.ipHeader.length + (p.udpHeader.length + (20 + n))) := by
    rw [h.length_ethHeader, h.length_ipHeader, h.length_udpHeader]
    omega
  rw [toBytes, hsum, List.take_length_add_append, List.take_length_add_append,
    List.take_length_add_append]
  rfl

end EadPacket

section Stored

variable {p : EadPacket}

theorem wordSum_zero (b : Bytes) : wordSum (0 :: 0 :: b) = wordSum b := by
  rw [wordSum]
  exact Nat.zero_add _

theorem onesSum_ipHeader (h : p.Sized) (hproto : p.proto = 17)
    (hstored : p.ipchksum = storedSum (chksum 0 { p with ipchksum := [0, 0] }.ipHeader)) :
    onesSum p.ipHeader = 65535 := by
  have hfront : (([p.vhl, p.tos] ++ p.len ++ p.ipid ++ p.ipoffset) ++ [p.ttl, p.proto]).length %
      2 = 0 := by
    simp [h.hlen, h.hipid, h.hipoffset]
  have hpos : 0 < wordSum (([p.vhl, p.tos] ++ p.len ++ p.ipid ++ p.ipoffset) ++
      [p.ttl, p.proto]) := by
    rw [wordSum_append (by simp [h.hlen, h.hipid, h.hipoffset]), wordSum, wordSum, hproto]
    exact Nat.add_pos_right _ (Nat.add_pos_left (Nat.add_pos_right _ (by decide)) _)
  have hzero : chksum 0 { p with ipchksum := [0, 0] }.ipHeader =
      foldCarries (wordSum (([p.vhl, p.tos] ++ p.len ++ p.ipid ++ p.ipoffset) ++
        [p.ttl, p.proto]) + wordSum (p.srcipaddr ++ p.destipaddr)) := by
    rw [chksum_eq (by decide), Nat.zero_add, EadPacket.ipHeader, List.append_assoc,
      wordSum_append hfront]
    exact congrArg (fun n => foldCarries (_ + n)) (wordSum_zero _)
  rw [EadPacket.ipHeader, List.append_assoc, hstored, hzero]
  exact onesSum_storedSum hfront rfl (Nat.add_pos_left hpos _)

theorem onesSum_segment (h : p.Sized) {len : ℕ} (hlen : (p.udpHeader ++ p.msg).length = len)
    (hmax : len < 65519)
    (hstored : p.udpchksum = storedSum (chksum (chksum (len + 17) (p.srcipaddr ++ p.destipaddr))
      ({ p with udpchksum := [0, 0] }.udpHeader ++ p.msg))) :
    onesSum (p.srcipaddr ++ p.destipaddr ++ [0, 17] ++ Endian.big.u16 len ++
      (p.udpHeader ++ p.msg)) = 65535 := by
  have hports : (p.srcport ++ p.destport ++ p.udplen).length % 2 = 0 := by
    simp [h.hsrcport, h.hdestport, h.hudplen]
  have hpseudo : (p.srcipaddr ++ p.destipaddr ++ [0, 17] ++ Endian.big.u16 len).length % 2 = 0 := by
    simp [h.hsrcipaddr, h.hdestipaddr, Endian.length_u16]
  have haddresses : (p.srcipaddr ++ p.destipaddr).length % 2 = 0 := by
    simp [h.hsrcipaddr, h.hdestipaddr]
  have hsum : wordSum (p.srcipaddr ++ p.destipaddr ++ [0, 17] ++ Endian.big.u16 len) =
      len + 17 + wordSum (p.srcipaddr ++ p.destipaddr) := by
    have hproto : wordSum [0, 17] = 17 := rfl
    rw [wordSum_append (by simp [h.hsrcipaddr, h.hdestipaddr]), wordSum_append haddresses,
      wordSum_u16 (by omega), hproto]
    omega
  have hzero : wordSum ({ p with udpchksum := [0, 0] }.udpHeader ++ p.msg) =
      wordSum (p.srcport ++ p.destport ++ p.udplen) + wordSum p.msg := by
    rw [EadPacket.udpHeader, List.append_assoc, wordSum_append hports]
    exact congrArg (_ + ·) (wordSum_zero _)
  have hchain : chksum (chksum (len + 17) (p.srcipaddr ++ p.destipaddr))
      ({ p with udpchksum := [0, 0] }.udpHeader ++ p.msg) =
      foldCarries (wordSum (p.srcipaddr ++ p.destipaddr ++ [0, 17] ++ Endian.big.u16 len ++
        (p.srcport ++ p.destport ++ p.udplen)) + wordSum p.msg) := by
    rw [chksum_eq (show len + 17 < 65536 by omega), chksum_eq (foldCarries_spec _).1,
      foldCarries_add, hzero, wordSum_append hpseudo, hsum]
    congr 1
    omega
  rw [EadPacket.udpHeader, List.append_assoc _ p.udpchksum, ← List.append_assoc, hstored, hchain]
  refine onesSum_storedSum ?_ rfl ?_
  · rw [List.length_append]
    omega
  · rw [wordSum_append hpseudo, hsum]
    omega

end Stored

section Replies

variable {ethmac : Bytes} {pktbuf pkt : EadPacket}

theorem sized_eadSendPacketClone (pktbuf : EadPacket) (hmac : ethmac.length = 6)
    (hpkt : pkt.Sized) (hmsg : 20 ≤ pkt.msg.length) : (eadSendPacketClone ethmac pktbuf pkt).1.Sized := by
  constructor
  · exact hpkt.hshost
  · exact hmac
  · exact hpkt.hetherType
  · rfl
  · exact hpkt.hipid
  · exact hpkt.hipoffset
  · exact length_storedSum _
  · simp only [eadSendPacketClone, List.length_take, List.length_drop]
    omega
  · exact hpkt.hsrcipaddr
  · exact hpkt.hdestport
  · exact hpkt.hsrcport
  · rfl
  · exact length_storedSum _

/-- What is sent of a reply, as a packet. -/
def sentPacket (ethmac : Bytes) (pktbuf pkt : EadPacket) : EadPacket :=
  let reply := (eadSendPacketClone ethmac pktbuf pkt).1
  { reply with msg := reply.msg.take (20 + pktbuf.msgLen) }

theorem sent_eq (hmac : ethmac.length = 6) (hpkt : pkt.Sized) (hmsg : 20 ≤ pkt.msg.length) :
    (eadSendPacketClone ethmac pktbuf pkt).2 = (sentPacket ethmac pktbuf pkt).toBytes :=
  (sized_eadSendPacketClone pktbuf hmac hpkt hmsg).take_toBytes pktbuf.msgLen

/-- The checksum of UDP is taken over the segment that is sent. -/
theorem udpchksum_sentPacket {zero : EadPacket} (h : (sentPacket ethmac pktbuf pkt).Sized)
    (hzero : zero = { sentPacket ethmac pktbuf pkt with udpchksum := [0, 0] })
    (hfits : pktbuf.msgLen ≤ 1538) : (sentPacket ethmac pktbuf pkt).udpchksum =
      storedSum (chksum (chksum (28 + pktbuf.msgLen + 17) (zero.srcipaddr ++ zero.destipaddr))
        (zero.udpHeader ++ zero.msg)) := by
  have hlen : ((62 - 14 + pktbuf.msgLen) % 65536 + 65536 - uipIphLen) % 65536 =
      28 + pktbuf.msgLen := by
    rw [uipIphLen]
    omega
  have hsum : (28 + pktbuf.msgLen + uipProtoUdp) % 65536 = 28 + pktbuf.msgLen + 17 :=
    Nat.mod_eq_of_lt (by rw [uipProtoUdp]; omega)
  have hheader : zero.udpHeader.length = 8 := by
    rw [hzero]
    simp [EadPacket.udpHeader, h.hsrcport, h.hdestport, h.hudplen]
  have htake : (zero.udpHeader ++ pktbuf.msg).take (28 + pktbuf.msgLen) =
      zero.udpHeader ++ pktbuf.msg.take (20 + pktbuf.msgLen) := by
    rw [show 28 + pktbuf.msgLen = zero.udpHeader.length + (20 + pktbuf.msgLen) by
      rw [hheader]; omega]
    exact List.take_length_add_append ..
  have hmsg : zero.msg = pktbuf.msg.take (20 + pktbuf.msgLen) := by
    rw [hzero]
    rfl
  rw [hmsg, ← htake, ← hsum, ← hlen, hzero]
  rfl

/-- A daemon that waits for a user name. -/
def idleDaemon : Daemon where
  bigEndian := true
  state := .setUsername
  instanceId := 0
  nid := 0xffff
  devName := []
  saltLen := 0
  saltLen_le := by decide
  numberLen := 0
  numberLen_le := by decide
  crypt := startCrypt
  verified := false
  outcome := ⟨false, false, [], false⟩
  chunks_le := by simp

/-- A `PING` from an address, broadcast to every node. -/
def pingRequest : Capture where
  bytes := List.replicate 6 255 ++ [2, 0, 0, 0, 0, 1] ++ [8, 0] ++
    [0x45, 0, 0, 48, 0, 0, 0, 0, 64, 17, 0, 0, 10, 0, 0, 1, 255, 255, 255, 255] ++
    [1, 0, 0xda, 0xda, 0, 28, 0, 0] ++
    (Endian.big.u32 3671771902 ++ [0, 0, 0, 0] ++ [0, 0, 0, 0] ++ [255, 255] ++ [0, 0] ++
      [10, 0, 0, 2])
  len := 62
  captured := by decide

end Replies

end NeonWrt.Ead
