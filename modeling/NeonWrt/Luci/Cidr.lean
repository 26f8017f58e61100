import NeonWrt.Lib.Number
import NeonWrt.Lib.Shell

/-!
# Address texts of luci.ip

The values of `luci-lib-ip` are addresses of one of three families with a prefix
length and, for link-local addresses, the interface they belong to. `parse_cidr`
guesses the family from the text, and `format_cidr` writes the text. The
conversions of the C library and of the kernel's interface table are outside the
sources and are parameters.
-/

namespace NeonWrt.Luci

open Lib

/-- The address families `AF_INET`, `AF_INET6` and `AF_PACKET`. -/
inductive Family
  | inet
  | inet6
  | packet
  deriving DecidableEq

/-- `AF_BITS`. -/
def Family.afBits : Family → ℕ
  | .inet => 32
  | .inet6 => 128
  | .packet => 48

/-- Bytes of an address, in network order. -/
abbrev Octets (n : ℕ) := { b : Bytes // b.length = n }

/-- The union `addr` with the family that says which member is in use. -/
inductive Addr
  | v4 (a : Octets 4)
  | v6 (a : Octets 16)
  | mac (a : Octets 6)
  deriving DecidableEq

/-- The tag of the union. -/
def Addr.family : Addr → Family
  | .v4 _ => .inet
  | .v6 _ => .inet6
  | .mac _ => .packet

/-- `cidr_t`. Only the parser sets a scope, and only of IPv6 addresses; the other
operations copy it or clear it. -/
structure Cidr where
  addr : Addr
  scope : ℕ
  scope_inet6 : scope ≠ 0 → addr.family = .inet6
  bits : ℤ
  deriving DecidableEq

/-- The value's family. -/
abbrev Cidr.family (c : Cidr) : Family := c.addr.family

/-- The functions of the C library that the source calls, with the width of
`unsigned long`. -/
structure Net where
  ulongBits : ℕ
  /-- `inet_pton(AF_INET, …)` -/
  pton4 : Bytes → Option (Octets 4)
  /-- `inet_pton(AF_INET6, …)` -/
  pton6 : Bytes → Option (Octets 16)
  /-- `inet_ntop(AF_INET, …)` -/
  ntop4 : Octets 4 → Bytes
  /-- `inet_ntop(AF_INET6, …)` -/
  ntop6 : Octets 16 → Bytes
  /-- `if_nametoindex`, zero for an unknown name -/
  nametoindex : Bytes → ℕ
  /-- `if_indextoname` -/
  indextoname : ℕ → Option Bytes

/-- What is documented of these functions. -/
structure Net.Lawful (net : Net) : Prop where
  ulongBits_ge : 32 ≤ net.ulongBits
  /-- `inet_pton` undoes `inet_ntop`. -/
  pton4_ntop4 : ∀ a, net.pton4 (net.ntop4 a) = some a
  pton6_ntop6 : ∀ a, net.pton6 (net.ntop6 a) = some a
  /-- Dotted decimal notation is digits and at least one dot. -/
  pton4_dotted : ∀ {t a}, net.pton4 t = some a → 46 ∈ t ∧ ∀ c ∈ t, isdigit c ∨ c = 46
  /-- The notation of IPv6 addresses has seven groups or more between colons (eight, or
  six and a dotted quad), or an empty one where `::` stands. -/
  pton6_groups : ∀ {t a}, net.pton6 t = some a → [] ∈ t.splitOn 58 ∨ 7 ≤ (t.splitOn 58).length
  pton6_colon : ∀ {t a}, net.pton6 t = some a → 58 ∈ t
  /-- `INET_ADDRSTRLEN`, and the longest text that `inet_ntop` writes. -/
  length_ntop4 : ∀ a, (net.ntop4 a).length ≤ 15
  length_ntop6 : ∀ a, (net.ntop6 a).length ≤ 39
  ntop6_chars : ∀ {a c}, c ∈ net.ntop6 a → digitVal c < 16 ∨ c = 58 ∨ c = 46
  /-- A known interface has a name, the name is that interface's, and names are shorter than
  `IF_NAMESIZE` and have no slash. -/
  indextoname_nametoindex : ∀ {s}, net.nametoindex s ≠ 0 →
    ∃ n, net.indextoname (net.nametoindex s) = some n
  nametoindex_indextoname : ∀ {i n}, net.indextoname i = some n → net.nametoindex n = i
  length_indextoname : ∀ {i n}, net.indextoname i = some n → n.length ≤ 15
  indextoname_chars : ∀ {i n}, net.indextoname i = some n → 0 ∉ n ∧ 47 ∉ n

/-- The loop of `parse_mac` from one octet on, with the separator seen so far. -/
def parseMacLoop (w : ℕ) : (left : ℕ) → (sep : UInt8) → Bytes → Option (Octets (left + 1))
  | 0, _, mac =>
    let (n, e) := strtoul w 16 mac
    if 0xFF < n ∨ e ≠ [] then none else some ⟨[UInt8.ofNat n], rfl⟩
  | left + 1, sep, mac =>
    let (n, e) := strtoul w 16 mac
    if 0xFF < n then none
    else
      let c := e.headD 0
      -- the first separator decides which one the rest must use
      let sep := if sep = 0 ∧ (c = 58 ∨ c = 45) then c else sep
      if sep = 0 ∨ c ≠ sep then none
      else (parseMacLoop w left sep e.tail).map fun a =>
        ⟨UInt8.ofNat n :: a.1, by rw [List.length_cons, a.2]⟩

/-- `parse_mac` -/
def parseMac (w : ℕ) (mac : Bytes) : Option (Octets 6) := parseMacLoop w 5 0 mac

/-- The loops of `parse_mask`: how many of the first `width` bits are set before the
first clear one. -/
def leadingOnes (width : ℕ) (m : Bytes) : ℕ :=
  ((List.range width).takeWhile fun i => (m.getD (i / 8) 0).toNat.testBit (7 - i % 8)).length

/-- The value of an `unsigned long` in an `int16_t`. -/
def toInt16 (n : ℕ) : ℤ := Int.bmod n 65536

/-- The last branch of `parse_mask`. -/
def parseBits (w : ℕ) (family : Family) (mask : Bytes) : Option ℤ :=
  let (n, e) := strtoul w 10 mask
  if e = mask ∨ e ≠ [] ∨ (family.afBits : ℤ) < toInt16 n then none else some (toInt16 n)

/-- The address that `parse_mask` tries to read as a netmask. -/
def maskAddr (net : Net) (family : Family) (mask : Bytes) : Option Bytes :=
  match family with
  | .inet => (net.pton4 mask).map (·.1)
  | .inet6 => (net.pton6 mask).map (·.1)
  | .packet => (parseMac net.ulongBits mask).map (·.1)

/-- `parse_mask` -/
def parseMask (net : Net) (family : Family) (mask : Bytes) : Option ℤ :=
  match maskAddr net family mask with
  | some m => some (leadingOnes family.afBits m)
  | none => parseBits net.ulongBits family mask

/-- `strncpy(buf, s, n)`, padded with NUL. -/
def strncpy (n : ℕ) (s : Bytes) : Bytes :=
  let t := (cstr s).take n
  t ++ List.replicate (n - t.length) 0

/-- `strchr(buf, c)` and the NUL written over the separator: the text before it, and
after it if it is there. -/
def cutAt (c : UInt8) (buf : Bytes) : Bytes × Option Bytes :=
  (Shell.beforeFirst c buf, if c ∈ buf then some (Shell.afterFirst c buf) else none)

/-- The family guessed from the text. -/
def parseAddr (net : Net) (buf : Bytes) : Option Addr :=
  match net.pton4 buf, net.pton6 buf, parseMac net.ulongBits buf with
  | some a, _, _ => some (.v4 a)
  | none, some a, _ => some (.v6 a)
  | none, none, some a => some (.mac a)
  | none, none, none => none

/-- The link-local test of `parse_cidr`. -/
def zoneAllowed (a : Octets 16) : Prop :=
  a.1.getD 0 0 = 0xFE ∧ 0x80 ≤ a.1.getD 1 0 ∧ a.1.getD 2 0 ≤ 0xBF

instance (a : Octets 16) : Decidable (zoneAllowed a) := by
  unfold zoneAllowed
  infer_instance

/-- The interface of a zone, which only a link-local IPv6 address may have. -/
def parseZone (net : Net) (addr : Addr) (s : Option Bytes) :
    Option { scope : ℕ // scope ≠ 0 → addr.family = .inet6 } :=
  match addr, s with
  | _, none => some ⟨0, fun h => absurd rfl h⟩
  | .v6 a, some s =>
    if zoneAllowed a ∧ net.nametoindex s ≠ 0 then some ⟨net.nametoindex s, fun _ => rfl⟩ else none
  | _, some _ => none

/-- The prefix length, the family's width without a mask. -/
def parsePrefix (net : Net) (family : Family) (p : Option Bytes) : Option ℤ :=
  match p with
  | none => some family.afBits
  | some p => parseMask net family p

/-- `parse_cidr`. The buffer has one byte more than `strncpy` may write, so a text of 93
bytes and more runs on into `tail`, which is whatever the stack holds there. -/
def parseCidr (net : Net) (tail dest : Bytes) : Option Cidr :=
  let buf := cstr (strncpy 93 dest ++ tail)
  let (buf, p) := cutAt 47 buf
  let (buf, s) := cutAt 37 buf
  (parseAddr net buf).bind fun addr =>
    (parseZone net addr s).bind fun scope =>
      (parsePrefix net addr.family p).map fun bits =>
        { addr := addr, scope := scope.1, scope_inet6 := scope.2, bits := bits }

/-- The address as text. -/
def formatAddr (net : Net) : Addr → Bytes
  | .v4 a => net.ntop4 a
  | .v6 a => net.ntop6 a
  | .mac a => join 58 (a.1.map hex02)

/-- The zone, if the interface is still there; `format_cidr` has none for MAC addresses. -/
def formatZone (net : Net) (c : Cidr) : Bytes :=
  if c.family ≠ .packet ∧ c.scope ≠ 0 then
    match net.indextoname c.scope with
    | some n => 37 :: n
    | none => []
  else []

/-- The prefix length, which addresses of single hosts go without. -/
def formatPrefix (c : Cidr) : Bytes :=
  if c.bits < c.family.afBits then 47 :: fmtInt c.bits else []

/-- The text that `format_cidr` writes. -/
def cidrText (net : Net) (c : Cidr) : Bytes :=
  formatAddr net c.addr ++ formatZone net c ++ formatPrefix c

/-- `format_cidr`: the text, unless it does not fit `buf`. -/
def formatCidr (net : Net) (c : Cidr) : Option Bytes :=
  if (cidrText net c).length < 46 + 1 + 16 + 4 then some (cidrText net c) else none

theorem cutAt_append {c : UInt8} {front back : Bytes} (h : c ∉ front) :
    cutAt c (front ++ c :: back) = (front, some back) := by
  rw [cutAt, if_pos (by simp), Shell.beforeFirst_append h, Shell.afterFirst_append h]

theorem cutAt_of_notMem {c : UInt8} {buf : Bytes} (h : c ∉ buf) : cutAt c buf = (buf, none) := by
  have hall : ∀ x ∈ buf, decide (x ≠ c) = true := fun x hx => by
    simpa using fun hxc : x = c => h (hxc ▸ hx)
  rw [cutAt, if_neg h, Shell.beforeFirst, List.takeWhile_eq_self_iff.mpr hall]

/-- A text that is short enough is copied whole, whatever is behind the buffer. -/
theorem cstr_strncpy {n : ℕ} {t tail : Bytes} (hnul : 0 ∉ t) (hlen : t.length < n) :
    cstr (strncpy n t ++ tail) = t := by
  have hall : ∀ c ∈ t, (c != 0) = true := fun c hc => by
    simpa using fun h : c = 0 => hnul (h ▸ hc)
  have hself : cstr t = t := cstr_eq_self hnul
  obtain ⟨k, hk⟩ : ∃ k, n - t.length = k + 1 := ⟨n - t.length - 1, by omega⟩
  rw [strncpy, hself, List.take_of_length_le hlen.le, hk, List.replicate_succ, List.append_assoc,
    cstr, List.takeWhile_append_of_pos hall, List.cons_append, List.takeWhile_cons_of_neg (by simp),
    List.append_nil]

/-- The octets written by `format_cidr` are read by `parse_mac`, also from the middle of the
address on. -/
theorem parseMacLoop_join {w : ℕ} (hw : 8 ≤ w) {left : ℕ} (a : Octets (left + 1)) {sep : UInt8}
    (hsep : sep = 0 ∨ sep = 58) :
    parseMacLoop w left sep (join 58 (a.1.map hex02)) = some a := by
  obtain ⟨a, ha⟩ := a
  induction left generalizing a sep with
  | zero =>
    obtain ⟨b, rfl⟩ := List.length_eq_one_iff.mp ha
    have hb := b.toNat_lt
    have hread : strtoul w 16 (join 58 ([b].map hex02)) = (b.toNat, []) := by
      have hone : strtoul w 16 (hex02 b ++ []) = (b.toNat, []) := strtoul_hex02 hw b (by simp)
      rwa [List.append_nil] at hone
    simp only [parseMacLoop, hread]
    rw [if_neg (by simp; omega)]
    simp
  | succ left ih =>
    obtain ⟨b, a, rfl⟩ := List.exists_cons_of_ne_nil (List.ne_nil_of_length_eq_add_one ha)
    have hlen : a.length = left + 1 := by simpa using ha
    have hb := b.toNat_lt
    have hne : a.map hex02 ≠ [] := by
      rw [Ne, List.map_eq_nil_iff]
      rintro rfl
      simp at hlen
    -- one octet, the separator, and the rest of the address
    have hsplit : join 58 ((b :: a).map hex02) = hex02 b ++ 58 :: join 58 (a.map hex02) := by
      rw [join, List.map_cons, List.intercalate_cons_of_ne_nil hne, List.append_assoc]
      rfl
    have hread : strtoul w 16 (join 58 ((b :: a).map hex02))
        = (b.toNat, 58 :: join 58 (a.map hex02)) := by
      rw [hsplit]
      exact strtoul_hex02 hw b (by simp; decide)
    have hnext : (if sep = 0 ∧ (True ∨ (58 : UInt8) = 45) then 58 else sep) = 58 := by
      rcases hsep with rfl | rfl <;> decide
    have hrest := ih (Or.inr rfl) a hlen
    simp only [parseMacLoop, hread, List.headD_cons, List.tail_cons]
    rw [if_neg (by omega), hnext, if_neg (by decide), hrest]
    simp

theorem parseMac_join {w : ℕ} (hw : 8 ≤ w) (a : Octets 6) :
    parseMac w (join 58 (a.1.map hex02)) = some a :=
  parseMacLoop_join hw a (Or.inl rfl)

/-- A number with nothing after it is not the start of an address. -/
theorem parseMacLoop_eq_none {w left : ℕ} {t : Bytes} (h : (strtoul w 16 t).2 = []) :
    parseMacLoop w (left + 1) 0 t = none := by
  have hend : (if (True ∧ ((0 : UInt8) = 58 ∨ (0 : UInt8) = 45)) then (0 : UInt8) else 0) = 0 :=
    ite_self 0
  simp only [parseMacLoop, h, List.headD_nil]
  rw [hend, if_pos (Or.inl rfl), ite_self]

section Addresses

variable {net : Net}

/-- A byte of an address as text. -/
def AddrChar (c : UInt8) : Prop := digitVal c < 16 ∨ c = 58 ∨ c = 46

theorem AddrChar.ne_separator {c : UInt8} (h : AddrChar c) : c ≠ 0 ∧ c ≠ 37 ∧ c ≠ 47 := by
  refine ⟨?_, ?_, ?_⟩ <;> rintro rfl <;> exact absurd h (by unfold AddrChar; decide)

theorem addrChar_of_isdigit {c : UInt8} (h : isdigit c = true) : AddrChar c :=
  Or.inl ((digitVal_lt_ten h).trans (by decide))

theorem addrChar_of_mem_join {a : Bytes} {c : UInt8} (hc : c ∈ join 58 (a.map hex02)) :
    digitVal c < 16 ∨ c = 58 := by
  rcases mem_join hc with rfl | ⟨w, hw, hc⟩
  · exact Or.inr rfl
  · obtain ⟨b, -, rfl⟩ := List.mem_map.mp hw
    exact Or.inl (digitVal_of_mem_hex02 hc)

theorem addrChar_of_mem_formatAddr (hnet : net.Lawful) {a : Addr} {c : UInt8}
    (hc : c ∈ formatAddr net a) : AddrChar c := by
  cases a with
  | v4 a =>
    rcases (hnet.pton4_dotted (hnet.pton4_ntop4 a)).2 c hc with h | h
    · exact addrChar_of_isdigit h
    · exact Or.inr (Or.inr h)
  | v6 a => exact hnet.ntop6_chars hc
  | mac a => exact (addrChar_of_mem_join hc).imp_right Or.inl

theorem pton4_eq_none_of_colon (hnet : net.Lawful) {t : Bytes} (h : 58 ∈ t) :
    net.pton4 t = none := by
  cases hp : net.pton4 t with
  | none => rfl
  | some a =>
    have := (hnet.pton4_dotted hp).2 58 h
    exact absurd this (by decide)

theorem pton4_eq_none_of_no_dot (hnet : net.Lawful) {t : Bytes} (h : 46 ∉ t) :
    net.pton4 t = none := by
  cases hp : net.pton4 t with
  | none => rfl
  | some a => exact absurd (hnet.pton4_dotted hp).1 h

/-- A text without colons is no IPv6 address. -/
theorem pton6_eq_none_of_no_colon (hnet : net.Lawful) {t : Bytes} (h : 58 ∉ t) :
    net.pton6 t = none := by
  cases hp : net.pton6 t with
  | none => rfl
  | some a => exact absurd (hnet.pton6_colon hp) h

/-- Six groups of two digits are too few for an IPv6 address, and none is empty. -/
theorem pton6_join (hnet : net.Lawful) (a : Octets 6) :
    net.pton6 (join 58 (a.1.map hex02)) = none := by
  have hne : a.1.map hex02 ≠ [] := by
    rw [Ne, List.map_eq_nil_iff]
    intro h
    simpa [h] using a.2
  have hcolon : ∀ g ∈ a.1.map hex02, 58 ∉ g := by
    intro g hg hmem
    obtain ⟨b, -, rfl⟩ := List.mem_map.mp hg
    exact absurd (digitVal_of_mem_hex02 hmem) (by decide)
  have hgroups : (join 58 (a.1.map hex02)).splitOn 58 = a.1.map hex02 :=
    splitOn_join hne hcolon
  cases hp : net.pton6 (join 58 (a.1.map hex02)) with
  | none => rfl
  | some b =>
    rcases hnet.pton6_groups hp with h | h
    · rw [hgroups] at h
      obtain ⟨c, -, hc⟩ := List.mem_map.mp h
      simp [hex02] at hc
    · rw [hgroups, List.length_map, a.2] at h
      omega

/-- The family of a printed address is guessed right. -/
theorem parseAddr_formatAddr (hnet : net.Lawful) (a : Addr) :
    parseAddr net (formatAddr net a) = some a := by
  cases a with
  | v4 a => simp only [parseAddr, formatAddr, hnet.pton4_ntop4]
  | v6 a =>
    have hcolon := hnet.pton6_colon (hnet.pton6_ntop6 a)
    simp only [parseAddr, formatAddr, hnet.pton6_ntop6, pton4_eq_none_of_colon hnet hcolon]
  | mac a =>
    have hdot : 46 ∉ join 58 (a.1.map hex02) := fun h =>
      absurd (addrChar_of_mem_join h) (by decide)
    have hw : 8 ≤ net.ulongBits := le_trans (by decide) hnet.ulongBits_ge
    simp only [parseAddr, formatAddr, pton4_eq_none_of_no_dot hnet hdot, pton6_join hnet,
      parseMac_join hw]

theorem length_formatAddr_le (hnet : net.Lawful) (a : Addr) : (formatAddr net a).length ≤ 39 := by
  cases a with
  | v4 a => exact (hnet.length_ntop4 a).trans (by decide)
  | v6 a => exact hnet.length_ntop6 a
  | mac a =>
    obtain ⟨a, ha⟩ := a
    have hlen := @length_join_le 58 2 (a.map hex02) (by
      intro w hw
      obtain ⟨b, -, rfl⟩ := List.mem_map.mp hw
      rfl)
    rw [List.length_map, ha] at hlen
    exact hlen.trans (by decide)

end Addresses

section Prefixes

variable {net : Net}

theorem toInt16_bounds (n : ℕ) : -32768 ≤ toInt16 n ∧ toInt16 n ≤ 32767 := by
  have hlo : -(((65536 : ℕ) : ℤ) / 2) ≤ toInt16 n := Int.le_bmod (m := 65536) (by decide)
  have hhi : toInt16 n < (((65536 : ℕ) : ℤ) + 1) / 2 := Int.bmod_lt (by decide : 0 < 65536)
  omega

/-- Reduction to an `int16_t` does not see a reduction to a wider word before it. -/
theorem bmod_emod_two_pow {w : ℕ} (hw : 16 ≤ w) {z : ℤ} (hlo : -32768 ≤ z) (hhi : z ≤ 32767) :
    (z % 2 ^ w).bmod 65536 = z := by
  have hdvd : ((65536 : ℕ) : ℤ) ∣ 2 ^ w := by
    have := pow_dvd_pow (2 : ℤ) hw
    simpa using this
  have hmod : (z % 2 ^ w) % ((65536 : ℕ) : ℤ) = z % ((65536 : ℕ) : ℤ) :=
    Int.emod_emod_of_dvd z hdvd
  rw [← Int.emod_bmod, hmod, Int.emod_bmod]
  exact Int.bmod_eq_of_le (by omega) (by omega)

theorem natAbs_lt_two_pow {w : ℕ} (hw : 16 ≤ w) {z : ℤ} (hlo : -32768 ≤ z) (hhi : z ≤ 32767) :
    z.natAbs < 2 ^ w := by
  have hpow : 2 ^ 16 ≤ 2 ^ w := pow_le_pow_right₀ (by decide : 1 ≤ 2) hw
  omega

/-- A number of an `int16_t` survives `%d` and `strtoul`, negative or not. -/
theorem toInt16_strtoul {w : ℕ} (hw : 16 ≤ w) {z : ℤ} (hlo : -32768 ≤ z) (hhi : z ≤ 32767) :
    toInt16 (strtoul w 10 (fmtInt z)).1 = z := by
  have hval := (strtoul_fmtInt (natAbs_lt_two_pow hw hlo hhi)).1
  unfold toInt16
  rw [hval]
  exact bmod_emod_two_pow hw hlo hhi

theorem mem_fmtInt {z : ℤ} {c : UInt8} (hc : c ∈ fmtInt z) : isdigit c = true ∨ c = 45 := by
  unfold fmtInt at hc
  split_ifs at hc
  · exact (List.mem_cons.mp hc).symm.imp_left isdigit_of_mem_dec
  · exact Or.inl (isdigit_of_mem_dec hc)

theorem fmtInt_ne_nil (z : ℤ) : fmtInt z ≠ [] := by
  unfold fmtInt
  split_ifs
  · simp
  · exact dec_ne_nil _

theorem length_fmtInt_le {z : ℤ} (hlo : -32768 ≤ z) (hhi : z ≤ 32767) :
    (fmtInt z).length ≤ 6 := by
  have := length_dec_le (n := z.natAbs) (k := 5) (by decide) (by omega)
  unfold fmtInt
  split_ifs
  · rw [List.length_cons]
    omega
  · omega

/-- A printed prefix length is not taken for a netmask. -/
theorem maskAddr_fmtInt (hnet : net.Lawful) (family : Family) (z : ℤ) :
    maskAddr net family (fmtInt z) = none := by
  cases family with
  | inet =>
    have hdot : 46 ∉ fmtInt z := fun h => absurd (mem_fmtInt h) (by decide)
    rw [maskAddr, pton4_eq_none_of_no_dot hnet hdot, Option.map_none]
  | inet6 =>
    have hcolon : 58 ∉ fmtInt z := fun h => absurd (mem_fmtInt h) (by decide)
    rw [maskAddr, pton6_eq_none_of_no_colon hnet hcolon, Option.map_none]
  | packet =>
    rw [maskAddr, parseMac, parseMacLoop_eq_none (strtoul_fmtInt_rest (by decide) (by decide) z), Option.map_none]

theorem parseMask_fmtInt (hnet : net.Lawful) {family : Family} {z : ℤ} (hlo : -32768 ≤ z)
    (hhi : z ≤ family.afBits) : parseMask net family (fmtInt z) = some z := by
  have hbits : family.afBits ≤ 128 := by cases family <;> decide
  have hw : 16 ≤ net.ulongBits := le_trans (by decide) hnet.ulongBits_ge
  have hval := toInt16_strtoul hw hlo (by omega : z ≤ 32767)
  have hend := @strtoul_fmtInt_rest net.ulongBits 10 (by decide) (by decide) z
  have hread : strtoul net.ulongBits 10 (fmtInt z)
      = ((strtoul net.ulongBits 10 (fmtInt z)).1, []) := Prod.ext rfl hend
  rw [parseMask, maskAddr_fmtInt hnet]
  simp only [parseBits]
  rw [hread, hval, if_neg]
  rintro (h | h | h)
  · exact fmtInt_ne_nil z h.symm
  · exact h rfl
  · omega

theorem leadingOnes_le (width : ℕ) (m : Bytes) : leadingOnes width m ≤ width := by
  have hle := ((List.range width).takeWhile_sublist
    fun i => (m.getD (i / 8) 0).toNat.testBit (7 - i % 8)).length_le
  rwa [List.length_range] at hle

/-- Whatever notation it has, a mask gives a prefix length that fits. It may be negative. -/
theorem parsePrefix_bounds {family : Family} {p : Option Bytes} {bits : ℤ}
    (h : parsePrefix net family p = some bits) : -32768 ≤ bits ∧ bits ≤ family.afBits := by
  cases p with
  | none =>
    obtain rfl : (family.afBits : ℤ) = bits := by simpa [parsePrefix] using h
    omega
  | some p =>
    rw [parsePrefix, parseMask] at h
    cases hm : maskAddr net family p with
    | some m =>
      rw [hm] at h
      obtain rfl : (leadingOnes family.afBits m : ℤ) = bits := by simpa using h
      have := leadingOnes_le family.afBits m
      omega
    | none =>
      rw [hm] at h
      simp only [parseBits] at h
      obtain ⟨hok, hbits⟩ := Option.ite_none_left_eq_some.mp h
      obtain rfl : toInt16 _ = bits := by simpa using hbits
      have := (toInt16_bounds (strtoul net.ulongBits 10 p).1).1
      omega

end Prefixes

section Roundtrip

variable {net : Net}

/-- What the parser leaves in a value: a prefix length that fits, and a scope only where the
zone of a link-local address named an interface. -/
structure Printable (net : Net) (c : Cidr) : Prop where
  bits_ge : -32768 ≤ c.bits
  bits_le : c.bits ≤ c.family.afBits
  zone : c.scope ≠ 0 →
    ∃ a n, c.addr = .v6 a ∧ zoneAllowed a ∧ net.indextoname c.scope = some n

theorem Printable.of_scope_zero {c : Cidr} (hscope : c.scope = 0) (hlo : 0 ≤ c.bits)
    (hhi : c.bits ≤ c.family.afBits) : Printable net c :=
  ⟨by omega, hhi, fun h => absurd hscope h⟩

theorem zone_of_parseZone (hnet : net.Lawful) {addr : Addr} {s : Option Bytes}
    {z : { scope : ℕ // scope ≠ 0 → addr.family = .inet6 }} (h : parseZone net addr s = some z)
    (hne : z.1 ≠ 0) :
    ∃ a n, addr = .v6 a ∧ zoneAllowed a ∧ net.indextoname z.1 = some n := by
  cases s with
  | none =>
    obtain rfl := Option.some.inj h
    exact absurd rfl hne
  | some s =>
    cases addr with
    | v4 a => exact absurd h (by simp [parseZone])
    | mac a => exact absurd h (by simp [parseZone])
    | v6 a =>
      obtain ⟨⟨hallowed, hknown⟩, hscope⟩ := Option.ite_none_right_eq_some.mp h
      obtain rfl := Option.some.inj hscope
      obtain ⟨n, hn⟩ := hnet.indextoname_nametoindex hknown
      exact ⟨a, n, rfl, hallowed, hn⟩

theorem printable_of_parseCidr (hnet : net.Lawful) {tail dest : Bytes} {c : Cidr}
    (h : parseCidr net tail dest = some c) : Printable net c := by
  obtain ⟨addr, -, h⟩ := Option.bind_eq_some_iff.mp h
  obtain ⟨scope, hzone, h⟩ := Option.bind_eq_some_iff.mp h
  obtain ⟨bits, hbits, rfl⟩ := Option.map_eq_some_iff.mp h
  obtain ⟨hge, hle⟩ := parsePrefix_bounds hbits
  refine ⟨hge, hle, fun hne => ?_⟩
  exact zone_of_parseZone hnet hzone hne

/-- The zone as written, and what the parser makes of it. -/
theorem Printable.zone_cases (hnet : net.Lawful) {c : Cidr} (hc : Printable net c) :
    (formatZone net c = [] ∧ parseZone net c.addr none = some ⟨c.scope, c.scope_inet6⟩) ∨
      ∃ n : Bytes, formatZone net c = 37 :: n ∧ n.length ≤ 15 ∧ 0 ∉ n ∧ 47 ∉ n ∧
        parseZone net c.addr (some n) = some ⟨c.scope, c.scope_inet6⟩ := by
  by_cases hscope : c.scope = 0
  · refine Or.inl ⟨by simp [formatZone, hscope], ?_⟩
    simp only [parseZone, hscope]
  · obtain ⟨a, n, ha, hallowed, hn⟩ := hc.zone hscope
    obtain ⟨hnul, hslash⟩ := hnet.indextoname_chars hn
    have hindex := hnet.nametoindex_indextoname hn
    obtain ⟨addr, scope, hsix, bits⟩ := c
    simp only at ha hscope hn hindex
    subst ha
    refine Or.inr ⟨n, ?_, hnet.length_indextoname hn, hnul, hslash, ?_⟩
    · simp [formatZone, Cidr.family, Addr.family, hscope, hn]
    · simp only [parseZone, hindex]
      rw [if_pos ⟨hallowed, hscope⟩]

/-- The prefix length as written, and what the parser makes of it. -/
theorem Printable.prefix_cases (hnet : net.Lawful) {c : Cidr} (hc : Printable net c) :
    (formatPrefix c = [] ∧ parsePrefix net c.family none = some c.bits) ∨
      (formatPrefix c = 47 :: fmtInt c.bits ∧
        parsePrefix net c.family (some (fmtInt c.bits)) = some c.bits) := by
  by_cases hlt : c.bits < c.family.afBits
  · refine Or.inr ⟨by rw [formatPrefix, if_pos hlt], ?_⟩
    rw [parsePrefix, parseMask_fmtInt hnet hc.bits_ge hc.bits_le]
  · refine Or.inl ⟨by rw [formatPrefix, if_neg hlt], ?_⟩
    rw [parsePrefix, le_antisymm hc.bits_le (not_lt.mp hlt)]

/-- The text has the address before the first separator, the zone between `%` and `/`, and the
prefix length at the end. -/
theorem parseCidr_cidrText (hnet : net.Lawful) {c : Cidr} (hc : Printable net c) :
    (cidrText net c).length < 67 ∧ ∀ tail, parseCidr net tail (cidrText net c) = some c := by
  have hbits : c.family.afBits ≤ 128 := by cases c.family <;> decide
  have haddr := parseAddr_formatAddr hnet c.addr
  have hsep : ∀ b ∈ formatAddr net c.addr, b ≠ 0 ∧ b ≠ 37 ∧ b ≠ 47 := fun b hb =>
    (addrChar_of_mem_formatAddr hnet hb).ne_separator
  have hlenA := length_formatAddr_le hnet c.addr
  have hle := hc.bits_le
  have hlenP := length_fmtInt_le hc.bits_ge (by omega)
  have hnulP : ∀ b ∈ fmtInt c.bits, b ≠ 0 := by
    rintro b hb rfl
    exact absurd (mem_fmtInt hb) (by decide)
  -- the address and the zone, which the prefix length is cut from
  have hfront : ∃ Z s, formatZone net c = Z ∧ Z.length ≤ 16 ∧ 0 ∉ formatAddr net c.addr ++ Z ∧
      47 ∉ formatAddr net c.addr ++ Z ∧ cutAt 37 (formatAddr net c.addr ++ Z)
        = (formatAddr net c.addr, s) ∧
      parseZone net c.addr s = some ⟨c.scope, c.scope_inet6⟩ := by
    have hnul : 0 ∉ formatAddr net c.addr := fun h => (hsep 0 h).1 rfl
    have hpercent : 37 ∉ formatAddr net c.addr := fun h => (hsep 37 h).2.1 rfl
    have hslash : 47 ∉ formatAddr net c.addr := fun h => (hsep 47 h).2.2 rfl
    rcases hc.zone_cases hnet with ⟨hZ, hz⟩ | ⟨n, hZ, hlen, hnulN, hslashN, hz⟩
    · refine ⟨[], none, hZ, by simp, ?_, ?_, ?_, hz⟩
      · simpa using hnul
      · simpa using hslash
      · rw [List.append_nil, cutAt_of_notMem hpercent]
    · refine ⟨37 :: n, some n, hZ, ?_, ?_, ?_, cutAt_append hpercent, hz⟩
      · rw [List.length_cons]
        omega
      · simp [hnul, hnulN]
      · simp [hslash, hslashN]
  obtain ⟨Z, s, hZ, hlenZ, hnul, hslash, hcut, hzone⟩ := hfront
  rcases hc.prefix_cases hnet with ⟨hP, hp⟩ | ⟨hP, hp⟩
  · have htext : cidrText net c = formatAddr net c.addr ++ Z := by
      rw [cidrText, hZ, hP, List.append_nil]
    have hlen : (cidrText net c).length < 67 := by
      rw [htext, List.length_append]
      omega
    refine ⟨hlen, fun tail => ?_⟩
    rw [parseCidr, cstr_strncpy (by rwa [htext]) (by omega), htext, cutAt_of_notMem hslash]
    simp only [hcut, haddr, Option.bind_some, hzone, hp, Option.map_some]
  · have htext : cidrText net c = formatAddr net c.addr ++ Z ++ 47 :: fmtInt c.bits := by
      rw [cidrText, hZ, hP]
    have hlen : (cidrText net c).length < 67 := by
      rw [htext, List.length_append, List.length_append, List.length_cons]
      omega
    have hnulT : 0 ∉ cidrText net c := by
      rw [htext, List.mem_append, List.mem_cons]
      rintro (h | h | h)
      · exact hnul h
      · exact absurd h (by decide)
      · exact hnulP 0 h rfl
    refine ⟨hlen, fun tail => ?_⟩
    rw [parseCidr, cstr_strncpy hnulT (by omega), htext, cutAt_append hslash]
    simp only [hcut, haddr, Option.bind_some, hzone, hp, Option.map_some]

/-- Values with a prefix length in range and without a zone, and all values that were ever
parsed, are printed to a text that is parsed to the same value. -/
theorem cidr_roundtrip (net : Net) (hnet : net.Lawful) :
    (∀ c : Cidr, (c.family = .inet6 → c.scope = 0) → 0 ≤ c.bits → c.bits ≤ c.family.afBits →
      ∃ text, formatCidr net c = some text ∧ ∀ tail, parseCidr net tail text = some c) ∧
    ∀ tail dest c, parseCidr net tail dest = some c →
      ∃ text, formatCidr net c = some text ∧ ∀ tail', parseCidr net tail' text = some c := by
  have hprinted : ∀ c, Printable net c →
      ∃ text, formatCidr net c = some text ∧ ∀ tail, parseCidr net tail text = some c := by
    intro c hc
    obtain ⟨hlen, hparse⟩ := parseCidr_cidrText hnet hc
    exact ⟨cidrText net c, if_pos hlen, hparse⟩
  constructor
  · intro c hzero hlo hhi
    have hscope : c.scope = 0 := by
      by_contra hne
      exact hne (hzero (c.scope_inet6 hne))
    exact hprinted c (.of_scope_zero hscope hlo hhi)
  · intro tail dest c h
    exact hprinted c (printable_of_parseCidr hnet h)

end Roundtrip

/-! ### A library

The conversions for texts without `::` and without leading zeros, and one interface. -/

/-- A dotted quad. -/
def quad (a : Bytes) : Bytes := join 46 (a.map fun b => dec b.toNat)

/-- The 16-bit groups of an IPv6 address, all of four digits. -/
def hexGroups : Bytes → List Bytes
  | x :: y :: a =>
    [hexDigit 87 (x.toNat / 16), hexDigit 87 (x.toNat % 16), hexDigit 87 (y.toNat / 16),
      hexDigit 87 (y.toNat % 16)] :: hexGroups a
  | _ => []

/-- The bytes of a run of hexadecimal digits. -/
def unhex : Bytes → Bytes
  | x :: y :: t => UInt8.ofNat (16 * digitVal x + digitVal y) :: unhex t
  | _ => []

/-- One interface, `eth0` with index two, and the conversions written out. -/
def stack : Net where
  ulongBits := 32
  pton4 t :=
    let a := (t.splitOn 46).map fun g => UInt8.ofNat (numeral 10 g)
    if h : a.length = 4 ∧ quad a = t then some ⟨a, h.1⟩ else none
  pton6 t :=
    let a := (t.splitOn 58).flatMap unhex
    if h : a.length = 16 ∧ join 58 (hexGroups a) = t then some ⟨a, h.1⟩ else none
  ntop4 a := quad a.1
  ntop6 a := join 58 (hexGroups a.1)
  nametoindex s := if s = ascii "eth0" then 2 else 0
  indextoname i := if i = 2 then some (ascii "eth0") else none

theorem length_hexGroups {a : Bytes} {n : ℕ} (h : a.length = 2 * n) :
    (hexGroups a).length = n ∧ (hexGroups a).flatMap unhex = a ∧
      ∀ g ∈ hexGroups a, g.length = 4 ∧ ∀ c ∈ g, digitVal c < 16 := by
  induction n generalizing a with
  | zero =>
    obtain rfl : a = [] := by simpa using h
    simp [hexGroups]
  | succ n ih =>
    obtain ⟨x, y, a, rfl⟩ : ∃ x y b, a = x :: y :: b := by
      match a, h with
      | x :: y :: b, _ => exact ⟨x, y, b, rfl⟩
    obtain ⟨hlen, hback, hgroups⟩ := ih (a := a) (by simp at h; omega)
    have hx := x.toNat_lt
    have hy := y.toNat_lt
    have hdigit : ∀ b : UInt8, digitVal (hexDigit 87 (b.toNat / 16)) = b.toNat / 16 ∧
        digitVal (hexDigit 87 (b.toNat % 16)) = b.toNat % 16 := by
      intro b
      have hb := b.toNat_lt
      exact ⟨digitVal_hexDigit_lower (by omega), digitVal_hexDigit_lower (by omega)⟩
    have hbyte : ∀ b : UInt8, UInt8.ofNat (16 * (b.toNat / 16) + b.toNat % 16) = b := by
      intro b
      rw [Nat.div_add_mod, UInt8.ofNat_toNat]
    refine ⟨by simp [hexGroups, hlen], ?_, ?_⟩
    · simp only [hexGroups, List.flatMap_cons, hback, unhex, hdigit, hbyte]
      rfl
    · intro g hg
      rcases List.mem_cons.mp hg with rfl | hg
      · refine ⟨rfl, ?_⟩
        simp only [List.mem_cons, List.not_mem_nil, or_false]
        rintro c (rfl | rfl | rfl | rfl) <;> simp only [hdigit] <;> omega
      · exact hgroups g hg

theorem dot_notMem_dec (n : ℕ) : 46 ∉ dec n := fun h =>
  absurd (isdigit_of_mem_dec h) (by decide)

theorem splitOn_quad {a : Bytes} (ha : a.length = 4) :
    (quad a).splitOn 46 = a.map fun b => dec b.toNat := by
  refine splitOn_join (by simpa using List.ne_nil_of_length_pos (by omega)) fun w hw => ?_
  obtain ⟨b, -, rfl⟩ := List.mem_map.mp hw
  exact dot_notMem_dec _

theorem splitOn_hexGroups {a : Bytes} (ha : a.length = 16) :
    (join 58 (hexGroups a)).splitOn 58 = hexGroups a := by
  obtain ⟨hlen, -, hgroups⟩ := length_hexGroups (n := 8) ha
  refine splitOn_join (List.ne_nil_of_length_pos (by omega)) fun g hg hmem => ?_
  exact absurd ((hgroups g hg).2 58 hmem) (by decide)

theorem mem_join_hexGroups {a : Bytes} (ha : a.length = 16) {c : UInt8}
    (hc : c ∈ join 58 (hexGroups a)) : digitVal c < 16 ∨ c = 58 ∨ c = 46 := by
  obtain ⟨-, -, hgroups⟩ := length_hexGroups (n := 8) ha
  rcases mem_join hc with rfl | ⟨g, hg, hmem⟩
  · exact Or.inr (Or.inl rfl)
  · exact Or.inl ((hgroups g hg).2 c hmem)

/-- A text that splits into several groups has the separator. -/
theorem mem_of_splitOn {delim : UInt8} {t : Bytes} (h : 2 ≤ (t.splitOn delim).length) :
    delim ∈ t := by
  by_contra hno
  rw [List.splitOn_eq_singleton hno] at h
  simp at h

theorem stack_pton4 {t : Bytes} {a : Octets 4} (h : stack.pton4 t = some a) :
    t = quad a.1 := by
  simp only [stack] at h
  split_ifs at h with hok
  obtain rfl := Option.some.inj h
  exact hok.2.symm

theorem stack_pton6 {t : Bytes} {a : Octets 16} (h : stack.pton6 t = some a) :
    t = join 58 (hexGroups a.1) := by
  simp only [stack] at h
  split_ifs at h with hok
  obtain rfl := Option.some.inj h
  exact hok.2.symm

theorem stack_indextoname {i : ℕ} {n : Bytes} (h : stack.indextoname i = some n) :
    i = 2 ∧ n = ascii "eth0" := by
  obtain ⟨hi, hn⟩ := Option.ite_none_right_eq_some.mp h
  exact ⟨hi, (Option.some.inj hn).symm⟩

theorem stack_lawful : stack.Lawful where
  ulongBits_ge := by decide
  pton4_ntop4 := by
    rintro ⟨a, ha⟩
    have hback : ((quad a).splitOn 46).map (fun g => UInt8.ofNat (numeral 10 g)) = a := by
      simp [splitOn_quad ha, Function.comp_def]
    simp only [stack, hback]
    exact dif_pos ⟨ha, trivial⟩
  pton6_ntop6 := by
    rintro ⟨a, ha⟩
    have hback : ((join 58 (hexGroups a)).splitOn 58).flatMap unhex = a := by
      rw [splitOn_hexGroups ha]
      exact (length_hexGroups (n := 8) ha).2.1
    simp only [stack, hback]
    exact dif_pos ⟨ha, trivial⟩
  pton4_dotted := by
    intro t a h
    obtain rfl := stack_pton4 h
    refine ⟨mem_of_splitOn ?_, fun c hc => ?_⟩
    · rw [splitOn_quad a.2, List.length_map, a.2]
      decide
    · rcases mem_join hc with rfl | ⟨w, hw, hmem⟩
      · exact Or.inr rfl
      · obtain ⟨b, -, rfl⟩ := List.mem_map.mp hw
        exact Or.inl (isdigit_of_mem_dec hmem)
  pton6_groups := by
    intro t a h
    obtain rfl := stack_pton6 h
    rw [splitOn_hexGroups a.2, (length_hexGroups (n := 8) a.2).1]
    exact Or.inr (by decide)
  pton6_colon := by
    intro t a h
    obtain rfl := stack_pton6 h
    refine mem_of_splitOn ?_
    rw [splitOn_hexGroups a.2, (length_hexGroups (n := 8) a.2).1]
    decide
  length_ntop4 := by
    rintro ⟨a, ha⟩
    have hlen := @length_join_le 46 3 (a.map fun b => dec b.toNat) (by
      intro w hw
      obtain ⟨b, -, rfl⟩ := List.mem_map.mp hw
      exact length_dec_le (by decide) (b.toNat_lt.trans_le (by decide)))
    rw [List.length_map, ha] at hlen
    exact hlen
  length_ntop6 := by
    rintro ⟨a, ha⟩
    obtain ⟨hcount, -, hgroups⟩ := length_hexGroups (n := 8) ha
    have hlen := @length_join_le 58 4 (hexGroups a) fun g hg =>
      (hgroups g hg).1.le
    rw [hcount] at hlen
    exact hlen
  ntop6_chars := fun {a} _ hc => mem_join_hexGroups a.2 hc
  indextoname_nametoindex := by
    intro s hs
    have hname : s = ascii "eth0" := by
      by_contra hne
      exact hs (if_neg hne)
    subst hname
    exact ⟨ascii "eth0", rfl⟩
  nametoindex_indextoname := by
    intro i n h
    obtain ⟨rfl, rfl⟩ := stack_indextoname h
    rfl
  length_indextoname := by
    intro i n h
    obtain ⟨-, rfl⟩ := stack_indextoname h
    decide
  indextoname_chars := by
    intro i n h
    obtain ⟨-, rfl⟩ := stack_indextoname h
    decide

/-- `192.168.1.0/24`, and a link-local address on an interface. -/
theorem cidr_roundtrip_stack :
    (∃ text, formatCidr stack ⟨.v4 ⟨[192, 168, 1, 0], rfl⟩, 0, fun h => absurd rfl h, 24⟩
        = some text ∧ ∀ tail, parseCidr stack tail text
          = some ⟨.v4 ⟨[192, 168, 1, 0], rfl⟩, 0, fun h => absurd rfl h, 24⟩) ∧
      ∃ c, c.scope = 2 ∧ c.bits = 64 ∧ ∃ text, formatCidr stack c = some text ∧
        ∀ tail, parseCidr stack tail text = some c := by
  have h := cidr_roundtrip stack stack_lawful
  refine ⟨h.1 _ (by decide) (by decide) (by decide), ?_⟩
  have hparse : (parseCidr stack []
      (ascii "fe80:1111:2222:3333:4444:5555:6666:7777%eth0/64")).map
        (fun c => decide (c.scope = 2 ∧ c.bits = 64)) = some true := by decide +kernel
  obtain ⟨c, hc, hfields⟩ := Option.map_eq_some_iff.mp hparse
  obtain ⟨hscope, hbits⟩ := of_decide_eq_true hfields
  exact ⟨c, hscope, hbits, h.2 _ _ c hc⟩

end NeonWrt.Luci
