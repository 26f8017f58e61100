import NeonWrt.BaseFiles.Ipv4
import NeonWrt.Lib.Hex
import NeonWrt.Lib.Shell

/-!
# Ranges of hosts in a network

`ipcalc.sh`: an address with a netmask or a prefix, and, if they are given, the first
and the last address of a range that begins at an offset and has at most some number of
addresses. The offset is taken modulo the size of the network; the range leaves out the
address itself at its ends, and the address of the network and the broadcast address
where there are such.
-/

namespace NeonWrt.BaseFiles

open Lib Shell

/-- The number that a variable with a decimal text is in arithmetic. -/
def num (t : Bytes) : Num := BitVec.ofNat 64 (numeral 10 t)

/-- How addresses are printed. -/
inductive Mode where
  | quad
  | decimal
  | hexadecimal
  deriving DecidableEq, Repr

/-- `ipaddr`, `netmask` and `prefix`. -/
structure Network where
  ipaddr : Num
  netmask : Num
  prefixLen : Num
  deriving DecidableEq, Repr

/-- The option for the output, and the arguments after it. -/
def parseMode : List Bytes → Mode × List Bytes
  | [] => (.quad, [])
  | a :: args =>
    if a = ascii "-d" then (.decimal, args)
    else if a = ascii "-x" then (.hexadecimal, args)
    else (.quad, a :: args)

/-- The network of the first argument, or of the first two, and the arguments after it. -/
def parseAddress : List Bytes → Option (Network × List Bytes)
  | [] => none
  | a :: args =>
    if 47 ∈ a ∧ 46 ∈ afterFirst 47 a then do
      -- `*/*.*`
      let ipaddr ← str2ip (beforeLast 47 a)
      let netmask ← str2ip (afterFirst 47 a)
      let prefixLen ← netmask2prefix netmask
      return (⟨num ipaddr, num netmask, num prefixLen⟩, args)
    else if 47 ∈ a then do
      -- `*/*`
      let ipaddr ← str2ip (beforeLast 47 a)
      let prefixLen ← assertUint32 (afterFirst 47 a)
      if 32 < prefixLen.toInt then none
      else
        let netmask ← prefix2netmask (afterFirst 47 a)
        return (⟨num ipaddr, num netmask, prefixLen⟩, args)
    else
      match args with
      | [] => none
      | m :: args => do
        let ipaddr ← str2ip a
        let netmask ← str2ip m
        let prefixLen ← netmask2prefix netmask
        return (⟨num ipaddr, num netmask, num prefixLen⟩, args)

namespace Network

variable (net : Network)

/-- The complement of the netmask. -/
def hostmask : Num := net.netmask ^^^ 0xffffffff

/-- `network` -/
def network : Num := net.ipaddr &&& net.netmask

/-- `broadcast` -/
def broadcast : Num := net.network ||| net.hostmask

/-- `count` -/
def count : Num := net.hostmask + 1

/-- `lower` -/
def lower : Num := if net.prefixLen.toInt ≤ 30 then net.network + 1 else net.network

/-- `upper` -/
def upper : Num :=
  if net.prefixLen.toInt ≤ 30 then (net.network ||| net.hostmask) - 1
  else if net.prefixLen.toInt = 31 then net.network ||| net.hostmask
  else net.network

/-- `start`, from the number that was given. -/
def start (s : Num) : Num :=
  let start := net.network ||| (s &&& net.hostmask)
  let start := if start.toInt < net.lower.toInt then net.lower else start
  if start.toInt = net.ipaddr.toInt then start + 1 else start

/-- `end`, from the start and the number of addresses that was given. -/
def last (start range : Num) : Num :=
  let last := start + range - 1
  let last := if net.upper.toInt < last.toInt then net.upper else last
  if last.toInt = net.ipaddr.toInt then last - 1 else last

/-- The ends of the range, if there is one. -/
def range (start limit : Bytes) : Option (Num × Num) :=
  (assertUint32 start).bind fun s =>
    (assertUint32 limit).bind fun l =>
      if (net.last (net.start s) l).toInt < (net.start s).toInt then none
      else some (net.start s, net.last (net.start s) l)

end Network

/-- `printf "%x"` of a number that is not negative. -/
def hexText (n : Num) : Bytes := hex n.toNat

/-- `_ip2str` -/
def ip2strMode (mode : Mode) (n : Num) : Option Bytes :=
  (assertUint32 (numText n)).bind fun n =>
    match mode with
    | .decimal => some (numText n)
    | .hexadecimal => some (hexText n)
    | .quad => ip2str (numText n)

/-- The lines about the network, as names and values. -/
def Network.lines (net : Network) (mode : Mode) : Option (List (String × Bytes)) := do
  let ip ← ip2strMode mode net.ipaddr
  let netmask ← ip2strMode mode net.netmask
  let network ← ip2strMode mode net.network
  let broadcast ←
    if net.prefixLen.toInt ≤ 30 then
      (ip2strMode mode net.broadcast).map fun b => [("BROADCAST", b)]
    else some []
  return [("IP", ip), ("NETMASK", netmask)] ++ broadcast ++
    [("NETWORK", network), ("PREFIX", numText net.prefixLen), ("COUNT", numText net.count)]

/-- What the script prints, and the status it exits with. -/
structure Output where
  lines : List (String × Bytes)
  status : ℕ
  deriving DecidableEq, Repr

/-- The lines about the range. -/
def rangeLines (mode : Mode) (ends : Num × Num) : Option (List (String × Bytes)) := do
  let start ← ip2strMode mode ends.1
  let last ← ip2strMode mode ends.2
  return [("START", start), ("END", last)]

/-- `ipcalc.sh`. What goes to the standard error is left out. -/
def ipcalc (argv : List Bytes) : Output :=
  let mode := (parseMode argv).1
  match parseAddress (parseMode argv).2 with
  | none => ⟨[], 1⟩
  | some (net, args) =>
    match args, net.lines mode with
    | _, none => ⟨[], 1⟩
    | [], some lines => ⟨lines, 0⟩
    | [start, limit], some lines =>
      if start ++ limit = [] then ⟨lines, 0⟩
      else
        match (net.range start limit).bind (rangeLines mode) with
        | none => ⟨lines, 1⟩
        | some more => ⟨lines ++ more, 0⟩
    | _, some _ => ⟨[], 1⟩

namespace Network

/-- The number of addresses of a network. -/
def size (p : ℕ) : ℕ := 2 ^ (32 - p)

variable (net : Network)

/-- The first address. -/
def first : ℕ := net.ipaddr.toNat - net.ipaddr.toNat % size net.prefixLen.toNat

/-- The last address. -/
def final : ℕ := net.first + size net.prefixLen.toNat - 1

/-- The addresses that hosts may have: not the first and the last one of a network with a prefix of
up to 30. -/
def Usable (n : ℕ) : Prop :=
  if net.prefixLen.toNat ≤ 30 then net.first < n ∧ n < net.final
  else net.first ≤ n ∧ n ≤ net.final

/-- Where the range begins: at the offset, taken modulo the size of the network, but not below the
hosts, and behind the address itself. -/
def adjusted (s : ℕ) : ℕ :=
  let n := net.first + s % size net.prefixLen.toNat
  let n := if net.prefixLen.toNat ≤ 30 then max n (net.first + 1) else n
  if n = net.ipaddr.toNat then n + 1 else n

/-- A range of hosts of at most some number of addresses, without the address itself at its
ends. -/
structure GoodRange (limit first last : ℕ) : Prop where
  first_usable : net.Usable first
  last_usable : net.Usable last
  le : first ≤ last
  count_le : last - first + 1 ≤ limit
  first_ne : first ≠ net.ipaddr.toNat
  last_ne : last ≠ net.ipaddr.toNat

/-- A network as the command line gives it. -/
structure Valid : Prop where
  ipaddr_lt : net.ipaddr.toNat < 2 ^ 32
  prefixLen_le : net.prefixLen.toNat ≤ 32
  netmask_eq : net.netmask.toNat = mask net.prefixLen.toNat

end Network

theorem num_dec {m : ℕ} (h : m < 2 ^ 64) : (num (dec m)).toNat = m := by
  rw [num, numeral_dec, BitVec.toNat_ofNat, Nat.mod_eq_of_lt h]

theorem num_of_str2ip {s t : Bytes} (h : str2ip s = some t) : (num t).toNat < 2 ^ 32 := by
  obtain ⟨a, ha, b, hb, c, hc, d, hd, rfl⟩ := str2ip_eq_some h
  rw [str2ip_quadText ha hb hc hd] at h
  have hlt := quadNumber_lt ha hb hc hd
  rw [← Option.some.inj h, num_dec (by omega)]
  exact hlt

/-- A netmask that has a prefix is the one of that prefix. -/
theorem valid_of_netmask {ip s m t : Bytes} {ipaddr : Bytes} (hip : str2ip ip = some ipaddr)
    (hs : str2ip s = some m) (ht : netmask2prefix m = some t) :
    Network.Valid ⟨num ipaddr, num m, num t⟩ := by
  obtain ⟨a, ha, b, hb, c, hc, d, hd, rfl⟩ := str2ip_eq_some hs
  rw [str2ip_quadText ha hb hc hd] at hs
  obtain rfl := Option.some.inj hs
  have hlt := quadNumber_lt ha hb hc hd
  obtain ⟨p, hp, hmask, rfl⟩ := (netmask2prefix_dec_iff hlt).mp ht
  refine ⟨num_of_str2ip hip, ?_, ?_⟩
  · rw [num_dec (by omega)]
    exact hp
  · rw [num_dec (by omega), num_dec (by omega), hmask]

theorem parseAddress_valid {args rest : List Bytes} {net : Network}
    (h : parseAddress args = some (net, rest)) : net.Valid := by
  cases args with
  | nil => cases h
  | cons a args =>
    unfold parseAddress at h
    dsimp only at h
    split_ifs at h with hmask hslash
    · obtain ⟨ipaddr, hip, h⟩ := Option.bind_eq_some_iff.mp h
      obtain ⟨netmask, hnetmask, h⟩ := Option.bind_eq_some_iff.mp h
      obtain ⟨p, hp, h⟩ := Option.bind_eq_some_iff.mp h
      obtain ⟨rfl, -⟩ := Prod.mk.inj (Option.some.inj h)
      exact valid_of_netmask hip hnetmask hp
    · obtain ⟨ipaddr, hip, h⟩ := Option.bind_eq_some_iff.mp h
      obtain ⟨p, hp, h⟩ := Option.bind_eq_some_iff.mp h
      split_ifs at h with hbig
      obtain ⟨netmask, hnetmask, h⟩ := Option.bind_eq_some_iff.mp h
      obtain ⟨rfl, -⟩ := Prod.mk.inj (Option.some.inj h)
      obtain ⟨q, hq, htext, rfl⟩ := prefix2netmask_eq_some_iff.mp hnetmask
      rw [htext, assertUint32_dec (by omega)] at hp
      obtain rfl := Option.some.inj hp
      have hlt := mask_lt q
      have hnat : (BitVec.ofNat 64 q).toNat = q := by
        rw [BitVec.toNat_ofNat]
        omega
      refine ⟨num_of_str2ip hip, ?_, ?_⟩
      · exact hnat.le.trans hq
      · rw [num_dec (by omega)]
        exact congrArg mask hnat.symm
    · cases args with
      | nil => cases h
      | cons m args =>
        obtain ⟨ipaddr, hip, h⟩ := Option.bind_eq_some_iff.mp h
        obtain ⟨netmask, hnetmask, h⟩ := Option.bind_eq_some_iff.mp h
        obtain ⟨p, hp, h⟩ := Option.bind_eq_some_iff.mp h
        obtain ⟨rfl, -⟩ := Prod.mk.inj (Option.some.inj h)
        exact valid_of_netmask hip hnetmask hp

namespace Network

theorem size_pos (p : ℕ) : 0 < size p := Nat.two_pow_pos _

theorem size_le (p : ℕ) : size p ≤ 2 ^ 32 := Nat.pow_le_pow_right (by decide) (Nat.sub_le 32 p)

theorem and_mask {i : ℕ} (hi : i < 2 ^ 32) (p : ℕ) : i &&& mask p = i - i % size p := by
  have hpos := size_pos p
  have hle := size_le p
  have hdiv : i - i % size p = size p * (i / size p) := by
    have hsplit := Nat.div_add_mod i (size p)
    omega
  have hmask : mask p = 2 ^ 32 - (size p - 1 + 1) := by
    rw [Nat.sub_add_cancel hpos]
    rfl
  rw [hdiv, hmask]
  apply Nat.eq_of_testBit_eq
  intro j
  rw [Nat.testBit_and, Nat.testBit_two_pow_sub_succ (by omega), size, Nat.testBit_two_pow_sub_one,
    Nat.testBit_two_pow_mul, Nat.testBit_div_two_pow]
  by_cases hj : 32 - p ≤ j
  · rw [Nat.sub_add_cancel hj]
    by_cases hbig : j < 32
    · simp [hj, hbig]
    · have hfalse : i.testBit j = false :=
        Nat.testBit_lt_two_pow (lt_of_lt_of_le hi (Nat.pow_le_pow_right (by decide) (by omega)))
      simp [hfalse]
  · simp [hj, Nat.lt_of_not_le hj]

/-- What the host part adds to the first address. -/
theorem or_host {i y p : ℕ} (hy : y < size p) : (i - i % size p) ||| y = i - i % size p + y := by
  have hdiv : i - i % size p = 2 ^ (32 - p) * (i / size p) := by
    have hsplit := Nat.div_add_mod i (size p)
    change _ = size p * (i / size p)
    omega
  rw [hdiv, Nat.two_pow_add_eq_or_of_lt hy]

theorem mask_xor : ∀ p ≤ 32, mask p ^^^ 4294967295 = size p - 1 := by
  decide +kernel

section Valid

variable {net : Network} (hvalid : net.Valid)

include hvalid

theorem Valid.toNat_network : net.network.toNat = net.first := by
  rw [network, BitVec.toNat_and, hvalid.netmask_eq, and_mask hvalid.ipaddr_lt, first]

theorem Valid.toNat_hostmask : net.hostmask.toNat = size net.prefixLen.toNat - 1 := by
  have hones : (0xffffffff : Num).toNat = 4294967295 := rfl
  rw [hostmask, BitVec.toNat_xor, hvalid.netmask_eq, hones, mask_xor _ hvalid.prefixLen_le]

theorem Valid.toNat_broadcast : (net.network ||| net.hostmask).toNat = net.final := by
  have hpos := size_pos net.prefixLen.toNat
  rw [BitVec.toNat_or, hvalid.toNat_network, hvalid.toNat_hostmask, first, or_host (by omega),
    final, first]
  omega

theorem Valid.toNat_start (s : Num) :
    (net.network ||| (s &&& net.hostmask)).toNat =
      net.first + s.toNat % size net.prefixLen.toNat := by
  rw [BitVec.toNat_or, BitVec.toNat_and, hvalid.toNat_network, hvalid.toNat_hostmask, size,
    Nat.and_two_pow_sub_one_eq_mod, first, ← size, or_host (Nat.mod_lt _ (size_pos _))]

theorem Valid.final_lt : net.first ≤ net.final ∧ net.final < 2 ^ 32 := by
  have hpos := size_pos net.prefixLen.toNat
  have hdvd : size net.prefixLen.toNat ∣ 2 ^ 32 := Nat.pow_dvd_pow 2 (Nat.sub_le 32 _)
  have hlt := hvalid.ipaddr_lt
  obtain ⟨k, hk⟩ := hdvd
  -- the block of the address is one of the blocks of its size below 2 ^ 32
  have hblock : net.ipaddr.toNat / size net.prefixLen.toNat < k :=
    Nat.div_lt_of_lt_mul (hk ▸ hlt)
  have hfirst : net.first = size net.prefixLen.toNat *
      (net.ipaddr.toNat / size net.prefixLen.toNat) := by
    have hsplit := Nat.div_add_mod net.ipaddr.toNat (size net.prefixLen.toNat)
    rw [first]
    omega
  have hnext : size net.prefixLen.toNat * (net.ipaddr.toNat / size net.prefixLen.toNat + 1) ≤
      size net.prefixLen.toNat * k := Nat.mul_le_mul_left _ hblock
  rw [Nat.mul_add, Nat.mul_one, ← hfirst, ← hk] at hnext
  unfold final
  omega

end Valid

theorem toInt_of_toNat {n : Num} {m : ℕ} (hn : n.toNat = m) (h : m < 2 ^ 63) : n.toInt = m := by
  rw [BitVec.toInt_eq_toNat_cond, hn, if_pos (by omega)]

theorem toInt_add_sub_one {a b : Num} {x y : ℕ} (ha : a.toNat = x) (hb : b.toNat = y)
    (hx : x < 2 ^ 40) (hy : y < 2 ^ 40) : (a + b - 1).toInt = x + y - 1 := by
  have hone : (1 : Num).toInt = 1 := rfl
  have hsum : (a + b).toInt = x + y := by
    rw [BitVec.toInt_add, toInt_of_toNat ha (by omega), toInt_of_toNat hb (by omega)]
    exact Int.bmod_eq_of_le_mul_two (by omega) (by omega)
  rw [BitVec.toInt_sub, hsum, hone]
  exact Int.bmod_eq_of_le_mul_two (by omega) (by omega)

theorem toInt_sub_one {a : Num} (hlo : -1 ≤ a.toInt) (hhi : a.toInt < 2 ^ 40) :
    (a - 1).toInt = a.toInt - 1 := by
  have hone : (1 : Num).toInt = 1 := rfl
  rw [BitVec.toInt_sub, hone]
  exact Int.bmod_eq_of_le_mul_two (by omega) (by omega)

section Valid

variable {net : Network} (hvalid : net.Valid)

include hvalid

theorem Valid.toInt_prefixLen : net.prefixLen.toInt = net.prefixLen.toNat := by
  have hle := hvalid.prefixLen_le
  exact toInt_of_toNat rfl (by omega)

theorem Valid.toInt_ipaddr : net.ipaddr.toInt = net.ipaddr.toNat := by
  have hlt := hvalid.ipaddr_lt
  exact toInt_of_toNat rfl (by omega)

omit hvalid in
/-- A network with a prefix of up to 30 has four addresses at least. -/
theorem first_add_three_le (h : net.prefixLen.toNat ≤ 30) : net.first + 3 ≤ net.final := by
  have hfour : 2 ^ 2 ≤ size net.prefixLen.toNat := Nat.pow_le_pow_right (by decide) (by omega)
  unfold final
  omega

theorem Valid.toNat_lower : net.lower.toNat =
    if net.prefixLen.toNat ≤ 30 then net.first + 1 else net.first := by
  obtain ⟨hle, hlt⟩ := hvalid.final_lt
  have hone : (1 : Num).toNat = 1 := rfl
  rw [lower, hvalid.toInt_prefixLen]
  by_cases h : net.prefixLen.toNat ≤ 30
  · rw [if_pos (by omega), if_pos h, BitVec.toNat_add, hvalid.toNat_network, hone]
    omega
  · rw [if_neg (by omega), if_neg h, hvalid.toNat_network]

theorem Valid.toInt_upper : net.upper.toInt =
    if net.prefixLen.toNat ≤ 30 then (net.final : ℤ) - 1 else net.final := by
  obtain ⟨hle, hlt⟩ := hvalid.final_lt
  rw [upper, hvalid.toInt_prefixLen]
  have hbroadcast : (net.network ||| net.hostmask).toInt = net.final :=
    toInt_of_toNat hvalid.toNat_broadcast (by omega)
  by_cases h : net.prefixLen.toNat ≤ 30
  · rw [if_pos (by omega), if_pos h, toInt_sub_one (by omega) (by omega), hbroadcast]
  · rw [if_neg (by omega), if_neg h]
    by_cases hlast : net.prefixLen.toNat = 31
    · rw [if_pos (by omega), hbroadcast]
    · -- with a prefix of 32 the network is its only address
      have hp : net.prefixLen.toNat = 32 := by
        have hp := hvalid.prefixLen_le
        omega
      have hone : net.final = net.first := by
        rw [final, hp]
        rfl
      rw [if_neg (by omega), toInt_of_toNat hvalid.toNat_network (by omega), hone]

/-- The start is the adjusted offset, which may be one behind the last address. -/
theorem Valid.toNat_start_eq (s : Num) : (net.start s).toNat = net.adjusted s.toNat ∧
    net.first ≤ net.adjusted s.toNat ∧ net.adjusted s.toNat ≤ net.final + 1 := by
  obtain ⟨hle, hlt⟩ := hvalid.final_lt
  have hmod := Nat.mod_lt s.toNat (size_pos net.prefixLen.toNat)
  have hfinal : net.final = net.first + size net.prefixLen.toNat - 1 := rfl
  have hip := hvalid.toInt_ipaddr
  have hone : (1 : Num).toNat = 1 := rfl
  have hbase := hvalid.toNat_start s
  have hlower := hvalid.toNat_lower
  have hbaseInt := toInt_of_toNat hbase (by omega)
  have hlowerInt : net.lower.toInt = net.lower.toNat := toInt_of_toNat rfl (by
    rw [hlower]
    split_ifs <;> omega)
  rw [start, adjusted]
  -- the start before it is compared with the address
  generalize hc : (if (net.network ||| (s &&& net.hostmask)).toInt < net.lower.toInt then net.lower
    else net.network ||| (s &&& net.hostmask)) = c
  generalize hn : (if net.prefixLen.toNat ≤ 30 then
      max (net.first + s.toNat % size net.prefixLen.toNat) (net.first + 1)
    else net.first + s.toNat % size net.prefixLen.toNat) = n
  have hclamped : c.toNat = n ∧ net.first ≤ n ∧ n ≤ net.final := by
    rw [← hc, ← hn, hbaseInt, hlowerInt, hlower]
    by_cases h : net.prefixLen.toNat ≤ 30
    · have hfour := first_add_three_le h
      rw [if_pos h, if_pos h]
      split_ifs with hlow
      · rw [hlower, if_pos h]
        omega
      · rw [hbase]
        omega
    · rw [if_neg h, if_neg h, if_neg (by omega), hbase]
      omega
  obtain ⟨hcn, hlow, hhigh⟩ := hclamped
  rw [toInt_of_toNat hcn (by omega), hip]
  by_cases heq : n = net.ipaddr.toNat
  · rw [if_pos (by omega), if_pos heq, BitVec.toNat_add, hcn, hone]
    omega
  · rw [if_neg (by omega), if_neg heq, hcn]
    omega

omit hvalid in
theorem toNat_of_nonneg {n : Num} (h : 0 ≤ n.toInt) : (n.toNat : ℤ) = n.toInt := by
  have hlt := n.isLt
  rw [BitVec.toInt_eq_toNat_cond] at h ⊢
  split_ifs at h ⊢ <;> omega

/-- The end is the last address, or the last one that the limit allows, but not the address
itself. -/
theorem Valid.toInt_last {start range : Num} {x y : ℕ} (hx : start.toNat = x)
    (hy : range.toNat = y) (hxlt : x < 2 ^ 40) (hylt : y < 2 ^ 40) :
    (net.last start range).toInt =
      (let n := min net.upper.toInt (x + y - 1)
       if n = net.ipaddr.toNat then n - 1 else n) := by
  obtain ⟨hle, hlt⟩ := hvalid.final_lt
  have hip := hvalid.toInt_ipaddr
  have hend := toInt_add_sub_one hx hy hxlt hylt
  have hupper : 0 ≤ net.upper.toInt ∧ net.upper.toInt < 2 ^ 32 := by
    rw [hvalid.toInt_upper]
    split_ifs with h
    · have hfour := first_add_three_le h
      omega
    · omega
  rw [last, hip, hend]
  dsimp only
  generalize hc : (if net.upper.toInt < (x : ℤ) + y - 1 then net.upper
    else start + range - 1) = c
  have hcn : c.toInt = min net.upper.toInt (x + y - 1) := by
    rw [← hc]
    split_ifs with hbig
    · omega
    · rw [hend]
      omega
  rw [← hcn]
  split_ifs with heq
  · exact toInt_sub_one (by omega) (by omega)
  · rfl

omit hvalid in
theorem usable_iff (n : ℕ) : net.Usable n ↔
    (if net.prefixLen.toNat ≤ 30 then net.first + 1 else net.first) ≤ n ∧
      (n : ℤ) ≤ if net.prefixLen.toNat ≤ 30 then (net.final : ℤ) - 1 else net.final := by
  unfold Usable
  split_ifs <;> omega

omit hvalid in
theorem lower_le_adjusted (s : ℕ) :
    (if net.prefixLen.toNat ≤ 30 then net.first + 1 else net.first) ≤ net.adjusted s := by
  unfold adjusted
  dsimp only
  split_ifs <;> omega

omit hvalid in
theorem adjusted_ne (s : ℕ) : net.adjusted s ≠ net.ipaddr.toNat := by
  unfold adjusted
  dsimp only
  split_ifs <;> omega

omit hvalid in
/-- A range begins at the adjusted offset exactly if that is a host and the limit is not zero. -/
theorem exists_goodRange_iff (s l : ℕ) :
    (∃ last, net.GoodRange l (net.adjusted s) last) ↔ net.Usable (net.adjusted s) ∧ 0 < l := by
  constructor
  · rintro ⟨last, hgood⟩
    exact ⟨hgood.first_usable, lt_of_lt_of_le (Nat.succ_pos _) hgood.count_le⟩
  · rintro ⟨husable, hpos⟩
    exact ⟨_, husable, husable, Nat.le_refl _, by omega, adjusted_ne s, adjusted_ne s⟩

/-- What the script computes for a start and a limit it accepts. -/
theorem Valid.range_eq {start limit : Bytes} {s : Num} {m : ℕ}
    (hs : assertUint32 start = some s) (hm : m < 2 ^ 32)
    (hl : assertUint32 limit = some (BitVec.ofNat 64 m)) :
    ∃ e : Num, net.range start limit =
        (if e.toInt < net.adjusted s.toNat then none else some (net.start s, e)) ∧
      e.toInt =
        (let u : ℤ := if net.prefixLen.toNat ≤ 30 then (net.final : ℤ) - 1 else net.final
         let n := min u (net.adjusted s.toNat + m - 1)
         if n = net.ipaddr.toNat then n - 1 else n) := by
  obtain ⟨hle, hlt⟩ := hvalid.final_lt
  obtain ⟨hstart, -, hbound⟩ := hvalid.toNat_start_eq s
  have hm' : (BitVec.ofNat 64 m).toNat = m := by
    rw [BitVec.toNat_ofNat, Nat.mod_eq_of_lt (by omega)]
  refine ⟨net.last (net.start s) (BitVec.ofNat 64 m), ?_, ?_⟩
  · rw [range, hs, Option.bind_some, hl, Option.bind_some, toInt_of_toNat hstart (by omega)]
  · rw [hvalid.toInt_last hstart hm' (by omega) (by omega), hvalid.toInt_upper]

/-- If there is a range from the adjusted offset on, one is computed. -/
theorem Valid.range_of_exists {start limit : Bytes} {s : Num} {m : ℕ}
    (hs : assertUint32 start = some s) (hm : m < 2 ^ 32)
    (hl : assertUint32 limit = some (BitVec.ofNat 64 m))
    (h : ∃ last, net.GoodRange m (net.adjusted s.toNat) last) :
    ∃ last : Num, net.range start limit = some (net.start s, last) ∧
      net.GoodRange m (net.adjusted s.toNat) last.toNat := by
  obtain ⟨husable, hpos⟩ := (exists_goodRange_iff s.toNat m).mp h
  obtain ⟨hlow, hhigh⟩ := (usable_iff _).mp husable
  obtain ⟨e, hrange, he⟩ := hvalid.range_eq hs hm hl
  have hne : net.adjusted s.toNat ≠ net.ipaddr.toNat := adjusted_ne s.toNat
  dsimp only at he
  generalize hu : (if net.prefixLen.toNat ≤ 30 then (net.final : ℤ) - 1 else net.final) = u
    at he hhigh
  -- the start is a host that is not the address, so that the end stays behind it
  have hbounds : (net.adjusted s.toNat : ℤ) ≤ e.toInt ∧ e.toInt ≤ u ∧
      e.toInt ≤ net.adjusted s.toNat + m - 1 ∧ e.toInt ≠ net.ipaddr.toNat := by
    split_ifs at he with heq <;> omega
  obtain ⟨hge, hleu, hcount, hneq⟩ := hbounds
  have hnat := toNat_of_nonneg (n := e) (by omega)
  refine ⟨e, ?_, husable, (usable_iff _).mpr ⟨by omega, ?_⟩, by omega, by omega, hne, by omega⟩
  · rw [hrange, if_neg (by omega)]
  · rw [hu]
    omega

/-- If there is no range from the adjusted offset on, none is computed. -/
theorem Valid.range_of_not_exists {start limit : Bytes} {s : Num} {m : ℕ}
    (hs : assertUint32 start = some s) (hm : m < 2 ^ 32)
    (hl : assertUint32 limit = some (BitVec.ofNat 64 m))
    (h : ¬ ∃ last, net.GoodRange m (net.adjusted s.toNat) last) :
    net.range start limit = none := by
  rw [exists_goodRange_iff, usable_iff, and_iff_right (lower_le_adjusted _)] at h
  obtain ⟨e, hrange, he⟩ := hvalid.range_eq hs hm hl
  dsimp only at he
  generalize (if net.prefixLen.toNat ≤ 30 then (net.final : ℤ) - 1 else net.final) = u at he h
  rw [hrange, if_pos]
  split_ifs at he with heq <;> omega

end Valid

end Network

theorem exists_ip2strMode (mode : Mode) {n : Num} (h : n.toNat < 2 ^ 32) :
    ∃ t, ip2strMode mode n = some t := by
  have htext : numText n = dec n.toNat := numText_of_toNat rfl (by omega)
  rw [ip2strMode, htext, assertUint32_dec h, Option.bind_some]
  cases mode with
  | decimal => exact ⟨_, rfl⟩
  | hexadecimal => exact ⟨_, rfl⟩
  | quad =>
    dsimp only
    rw [numText_ofNat (by omega), ip2str_dec h]
    exact ⟨_, rfl⟩

theorem Network.Valid.exists_lines {net : Network} (hvalid : net.Valid) (mode : Mode) :
    ∃ lines, net.lines mode = some lines := by
  obtain ⟨hle, hlt⟩ := hvalid.final_lt
  obtain ⟨ip, hip⟩ := exists_ip2strMode mode hvalid.ipaddr_lt
  obtain ⟨netmask, hnetmask⟩ := exists_ip2strMode mode (n := net.netmask) (by
    rw [hvalid.netmask_eq]
    exact mask_lt _)
  obtain ⟨network, hnetwork⟩ := exists_ip2strMode mode (n := net.network) (by
    rw [hvalid.toNat_network]
    omega)
  obtain ⟨broadcast, hbroadcast⟩ := exists_ip2strMode mode (n := net.broadcast) (by
    rw [Network.broadcast, hvalid.toNat_broadcast]
    omega)
  simp only [Network.lines, hip, hnetmask, hnetwork, hbroadcast, bind, Option.bind, pure,
    Option.map_some]
  split_ifs <;> exact ⟨_, rfl⟩

/-- For a network, a start and a limit that are accepted: if there is a range of hosts from the
adjusted offset on that fits the limit and leaves out the address itself at its ends, then such a
range is printed, and otherwise the script fails without one. -/
theorem ipcalc_range_exact {argv : List Bytes} {net : Network} {start limit : Bytes} {s l : Num}
    (hargs : parseAddress (parseMode argv).2 = some (net, [start, limit]))
    (hs : assertUint32 start = some s) (hl : assertUint32 limit = some l) :
    ∃ lines, net.lines (parseMode argv).1 = some lines ∧
      ((∃ last, net.GoodRange l.toNat (net.adjusted s.toNat) last) →
        ∃ last v w, net.GoodRange l.toNat (net.adjusted s.toNat) last ∧
          ip2strMode (parseMode argv).1 (BitVec.ofNat 64 (net.adjusted s.toNat)) = some v ∧
          ip2strMode (parseMode argv).1 (BitVec.ofNat 64 last) = some w ∧
          ipcalc argv = ⟨lines ++ [("START", v), ("END", w)], 0⟩) ∧
      ((¬ ∃ last, net.GoodRange l.toNat (net.adjusted s.toNat) last) →
        ipcalc argv = ⟨lines, 1⟩) := by
  have hvalid := parseAddress_valid hargs
  obtain ⟨m, hm, rfl, rfl⟩ := assertUint32_eq_some_iff.mp hl
  have hm' : (BitVec.ofNat 64 m).toNat = m := by
    rw [BitVec.toNat_ofNat, Nat.mod_eq_of_lt (by omega)]
  obtain ⟨lines, hlines⟩ := hvalid.exists_lines (parseMode argv).1
  have hne : start ++ dec m ≠ [] := List.append_ne_nil_of_right_ne_nil _ (dec_ne_nil m)
  have hrun : ipcalc argv =
      (match (net.range start (dec m)).bind (rangeLines (parseMode argv).1) with
        | none => ⟨lines, 1⟩
        | some more => ⟨lines ++ more, 0⟩) := by
    unfold ipcalc
    simp only [hargs, hlines, if_neg hne]
  rw [hm']
  refine ⟨lines, hlines, fun h => ?_, fun h => ?_⟩
  · obtain ⟨last, hrange, hgood⟩ := hvalid.range_of_exists hs hm hl h
    obtain ⟨hstart, -, -⟩ := hvalid.toNat_start_eq s
    obtain ⟨hle, hlt⟩ := hvalid.final_lt
    have hlast : last.toNat < 2 ^ 32 := by
      have husable := ((Network.usable_iff _).mp hgood.last_usable).2
      split_ifs at husable <;> omega
    have hfirst : (net.start s).toNat < 2 ^ 32 := by
      have hle := hgood.le
      omega
    obtain ⟨v, hv⟩ := exists_ip2strMode (parseMode argv).1 hfirst
    obtain ⟨w, hw⟩ := exists_ip2strMode (parseMode argv).1 hlast
    refine ⟨last.toNat, v, w, hgood, ?_, ?_, ?_⟩
    · rw [← hstart, BitVec.ofNat_toNat, BitVec.setWidth_eq]
      exact hv
    · rw [BitVec.ofNat_toNat, BitVec.setWidth_eq]
      exact hw
    · have hmore : (net.range start (dec m)).bind (rangeLines (parseMode argv).1) =
          some [("START", v), ("END", w)] := by
        simp only [hrange, rangeLines, hv, hw, bind, pure, Option.bind]
      rw [hrun, hmore]
  · rw [hrun, hvalid.range_of_not_exists hs hm hl h]
    rfl

/-- The addresses that are leased in a network of a router. -/
theorem ipcalc_lan :
    ∃ lines v w, ipcalc [ascii "192.168.1.1/24", ascii "100", ascii "150"] =
      ⟨lines ++ [("START", v), ("END", w)], 0⟩ := by
  have hargs : parseAddress (parseMode [ascii "192.168.1.1/24", ascii "100", ascii "150"]).2 =
      some (⟨0xC0A80101, 0xFFFFFF00, 24⟩, [ascii "100", ascii "150"]) := by
    decide +kernel
  obtain ⟨lines, -, hrange, -⟩ := ipcalc_range_exact hargs
    (by decide +kernel : assertUint32 (ascii "100") = some 100)
    (by decide +kernel : assertUint32 (ascii "150") = some 150)
  -- 192.168.1.100 to 192.168.1.249
  have hgood : Network.GoodRange ⟨0xC0A80101, 0xFFFFFF00, 24⟩ 150
      (Network.adjusted ⟨0xC0A80101, 0xFFFFFF00, 24⟩ 100) 0xC0A801F9 :=
    ⟨by simp only [Network.Usable]; decide, by simp only [Network.Usable]; decide,
      by decide, by decide, by decide, by decide⟩
  obtain ⟨-, v, w, -, -, -, hrun⟩ := hrange ⟨0xC0A801F9, hgood⟩
  exact ⟨lines, v, w, hrun⟩

end NeonWrt.BaseFiles
