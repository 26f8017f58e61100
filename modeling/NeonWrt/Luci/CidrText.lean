import NeonWrt.Luci.Cidr

/-!
# What the parser of luci.ip accepts

Netmasks, MAC addresses and zones as they are meant to be written. The parser
reads their numbers with `strtoul`, which also takes blanks, signs, `0x` and
leading zeros, and lets them through; on texts without these it accepts what the
notation allows.
-/

namespace NeonWrt.Luci

open Lib

/-- The bits of an address, the first the highest. -/
def maskBits (width : ℕ) (m : Bytes) : List Bool :=
  (List.range width).map fun i => (m.getD (i / 8) 0).toNat.testBit (7 - i % 8)

/-- A netmask of `k` ones. -/
def Mask (width k : ℕ) (m : Bytes) : Prop :=
  k ≤ width ∧ maskBits width m = List.replicate k true ++ List.replicate (width - k) false

/-- A decimal number. -/
def Decimal (s : Bytes) : Prop := s ≠ [] ∧ ∀ c ∈ s, isdigit c = true

instance (s : Bytes) : Decidable (Decimal s) :=
  have : Decidable (∀ c ∈ s, isdigit c = true) := List.decidableBAll _ s
  inferInstanceAs (Decidable (_ ∧ _))

/-- What `strtoul` skips in front of a number. -/
def isSkipped (c : UInt8) : Bool := isspace c || c = 43 || c = 45

section Masks

variable {net : Net} {family : Family} {s m : Bytes} {k : ℕ}

theorem leadingOnes_eq (width : ℕ) (m : Bytes) :
    leadingOnes width m = ((maskBits width m).takeWhile id).length := by
  rw [maskBits, List.takeWhile_map, List.length_map]
  rfl

theorem leadingOnes_of_mask {width : ℕ} (h : Mask width k m) : leadingOnes width m = k := by
  rw [leadingOnes_eq, h.2, List.takeWhile_append_of_pos (by simp)]
  cases width - k <;> simp [List.replicate_succ]

/-- A netmask is read as the number of its ones. -/
theorem parseMask_of_mask (h : maskAddr net family s = some m) (hmask : Mask family.afBits k m) :
    parseMask net family s = some (k : ℤ) ∧ (maskBits family.afBits m).count true = k := by
  refine ⟨by simp only [parseMask, h, leadingOnes_of_mask hmask], ?_⟩
  rw [hmask.2]
  simp [List.count_replicate]

theorem digitVal_lt_ten_iff (c : UInt8) : digitVal c < 10 ↔ isdigit c = true := by
  refine ⟨fun h => ?_, digitVal_lt_ten⟩
  by_contra hc
  simp only [digitVal, isdigit, Bool.and_eq_true, decide_eq_true_eq, UInt8.le_iff_toNat_le,
    UInt8.reduceToNat] at h hc
  split_ifs at h <;> omega

/-- A decimal number is no address of any family. -/
theorem maskAddr_of_decimal (hnet : net.Lawful) (h : Decimal s) : maskAddr net family s = none := by
  obtain ⟨hne, hdigit⟩ := h
  cases family with
  | inet =>
    have hdot : 46 ∉ s := fun hc => absurd (hdigit 46 hc) (by decide)
    rw [maskAddr, pton4_eq_none_of_no_dot hnet hdot, Option.map_none]
  | inet6 =>
    have hcolon : 58 ∉ s := fun hc => absurd (hdigit 58 hc) (by decide)
    rw [maskAddr, pton6_eq_none_of_no_colon hnet hcolon, Option.map_none]
  | packet =>
    have hrun : Run 16 s [] :=
      ⟨hne, fun c hc => (digitVal_lt_ten (hdigit c hc)).trans (by decide), by simp⟩
    have hread := (hrun.strtoul (w := net.ulongBits) (by decide)).1
    rw [List.append_nil] at hread
    rw [maskAddr, parseMac, parseMacLoop_eq_none (by rw [hread]), Option.map_none]

/-- What `strtoul` makes of a text that starts with nothing it skips. -/
theorem strtoul_ten {w : ℕ} (hskip : ∀ c ∈ s.head?, isSkipped c = false) :
    strtoul w 10 s = if s.takeWhile (digitVal · < 10) = [] then (0, s)
      else (if 2 ^ w ≤ numeral 10 (s.takeWhile (digitVal · < 10)) then 2 ^ w - 1
        else numeral 10 (s.takeWhile (digitVal · < 10)), s.dropWhile (digitVal · < 10)) := by
  cases s with
  | nil => simp [strtoul]
  | cons c s =>
    have hc := hskip c rfl
    simp only [isSkipped, Bool.or_eq_false_iff, decide_eq_false_iff_not] at hc
    obtain ⟨⟨hspace, hplus⟩, hminus⟩ := hc
    have hdrop : (c :: s).dropWhile isspace = c :: s :=
      List.dropWhile_cons_of_neg (by simp [hspace])
    simp [strtoul, hdrop, hplus, hminus]

/-- A text that is no address and has nothing to skip in front is accepted if and only if it is
a decimal number in range, as this number. The number is one that an `int16_t` holds. -/
theorem parseMask_of_plain (hnet : net.Lawful) (haddr : maskAddr net family s = none)
    (hskip : ∀ c ∈ s.head?, isSkipped c = false) (hfit : Decimal s → numeral 10 s < 32768) :
    parseMask net family s =
      if Decimal s ∧ numeral 10 s ≤ family.afBits then some (numeral 10 s : ℤ) else none := by
  have hp : ∀ c : UInt8, (decide (digitVal c < 10)) = isdigit c := fun c => by
    rw [Bool.eq_iff_iff, decide_eq_true_eq, digitVal_lt_ten_iff]
  have hparse : parseMask net family s = parseBits net.ulongBits family s := by
    rw [parseMask, haddr]
  have hread := strtoul_ten (w := net.ulongBits) hskip
  simp only [hp] at hread
  rw [hparse]
  by_cases hdec : Decimal s
  · have htake : s.takeWhile isdigit = s := List.takeWhile_eq_self_iff.mpr hdec.2
    have hdrop : s.dropWhile isdigit = [] := List.dropWhile_eq_nil_iff.mpr hdec.2
    have hlt := hfit hdec
    have hpow : 2 ^ 16 ≤ 2 ^ net.ulongBits :=
      Nat.pow_le_pow_right (by decide) (le_trans (by decide) hnet.ulongBits_ge)
    have hvalue : toInt16 (numeral 10 s) = numeral 10 s :=
      Int.bmod_eq_of_le (by omega) (by omega)
    rw [htake, hdrop, if_neg hdec.1, if_neg (by omega)] at hread
    simp only [parseBits, hread, hvalue]
    by_cases hle : numeral 10 s ≤ family.afBits
    · have hok : ¬([] = s ∨ ([] : Bytes) ≠ [] ∨ (family.afBits : ℤ) < (numeral 10 s : ℤ)) := by
        rintro (h | h | h)
        · exact hdec.1 h.symm
        · exact h rfl
        · omega
      rw [if_neg hok, if_pos ⟨hdec, hle⟩]
    · rw [if_pos (Or.inr (Or.inr (by omega))), if_neg (fun h => hle h.2)]
  · rw [if_neg (fun h => hdec h.1)]
    by_cases hnil : s.takeWhile isdigit = []
    · rw [if_pos hnil] at hread
      simp only [parseBits, hread, true_or, if_true]
    · have hrest : s.dropWhile isdigit ≠ [] := fun h =>
        hdec ⟨fun hs => hnil (by rw [hs]; rfl), List.dropWhile_eq_nil_iff.mp h⟩
      rw [if_neg hnil] at hread
      simp only [parseBits, hread]
      rw [if_pos (Or.inr (Or.inl hrest))]

end Masks

/-- A separator of MAC addresses. -/
def isMacSep (c : UInt8) : Bool := c = 58 || c = 45

/-- A group of a MAC address. -/
def MacGroup (g : Bytes) : Prop := g ≠ [] ∧ g.length ≤ 2 ∧ ∀ c ∈ g, digitVal c < 16

/-- The notation of a MAC address. -/
def MacNotation (s : Bytes) (a : Octets 6) : Prop :=
  ∃ sep groups, isMacSep sep = true ∧ groups.length = 6 ∧ (∀ g ∈ groups, MacGroup g) ∧
    s = join sep groups ∧ a.1 = groups.map fun g => UInt8.ofNat (numeral 16 g)

/-- The groups between separators have nothing of what `strtoul` reads beside digits: they are
not empty, have no blanks, signs and no `x`, and not more than two digits behind a zero. -/
def Tidy (s : Bytes) : Prop :=
  ∀ g ∈ s.splitOnP isMacSep, g ≠ [] ∧ (∀ c ∈ g, isSkipped c = false ∧ c ≠ 120 ∧ c ≠ 88) ∧
    (g.head? = some 48 → g.length ≤ 2)

section Macs

variable {w left : ℕ} {m g rest : Bytes} {sep : UInt8}

theorem numeral_ge (n : ℕ) (t : Bytes) :
    n * 16 ^ t.length ≤ t.foldl (fun n c => n * 16 + digitVal c) n := by
  induction t generalizing n with
  | nil => simp
  | cons c t ih =>
    have hrest := ih (n * 16 + digitVal c)
    rw [List.foldl_cons, List.length_cons, pow_succ']
    refine le_trans ?_ hrest
    rw [← Nat.mul_assoc]
    exact Nat.mul_le_mul_right _ (Nat.le_add_right _ _)

/-- A run of digits below 256 that does not start with a zero has at most two. -/
theorem length_le_two {c : UInt8} (hc : c ≠ 48) (h : numeral 16 (c :: g) ≤ 0xFF) :
    (c :: g).length ≤ 2 := by
  have hone : 1 ≤ digitVal c := by
    by_contra hzero
    simp only [digitVal, isdigit, Bool.and_eq_true, decide_eq_true_eq, UInt8.le_iff_toNat_le,
      UInt8.reduceToNat] at hzero
    refine hc (UInt8.toNat_inj.mp ?_)
    rw [show (48 : UInt8).toNat = 48 from rfl]
    split_ifs at hzero <;> omega
  by_contra hlong
  have hge : digitVal c * 16 ^ g.length ≤ numeral 16 (c :: g) := by
    have := numeral_ge (digitVal c) g
    simpa [numeral] using this
  have hpow : 16 ^ 2 ≤ 16 ^ g.length := by
    refine Nat.pow_le_pow_right (by decide) ?_
    rw [List.length_cons] at hlong
    omega
  have := Nat.mul_le_mul hone hpow
  omega

theorem digitVal_of_isMacSep {c : UInt8} (h : isMacSep c = true) : digitVal c = 36 := by
  simp only [isMacSep, Bool.or_eq_true, decide_eq_true_eq] at h
  rcases h with rfl | rfl <;> decide

/-- The group read by `strtoul`, with the separator that the rest starts with. -/
theorem strtoul_macGroup (hw : 8 ≤ w) (hg : MacGroup g) (hrest : ∀ c ∈ rest.head?, isMacSep c = true) :
    strtoul w 16 (g ++ rest) = (numeral 16 g, rest) ∧ numeral 16 g ≤ 0xFF := by
  obtain ⟨hne, hlen, hhex⟩ := hg
  have hrun : Run 16 g rest := ⟨hne, hhex, fun c hc => digitVal_of_isMacSep (hrest c hc)⟩
  have hlt : numeral 16 g < 256 := by
    match g, hne, hlen, hhex with
    | [c], _, _, hhex =>
      have := hhex c (by simp)
      simp only [numeral, List.foldl_cons, List.foldl_nil]
      omega
    | [c, d], _, _, hhex =>
      have hc := hhex c (by simp)
      have hd := hhex d (by simp)
      simp only [numeral, List.foldl_cons, List.foldl_nil]
      omega
  have hpow : 2 ^ 8 ≤ 2 ^ w := Nat.pow_le_pow_right (by decide) hw
  have hread := (hrun.strtoul (w := w) (by decide)).1
  rw [if_neg (by omega)] at hread
  exact ⟨hread, by omega⟩

theorem join_cons_cons (sep : UInt8) (g g' : Bytes) (groups : List Bytes) :
    join sep (g :: g' :: groups) = g ++ sep :: join sep (g' :: groups) := by
  rw [join, List.intercalate_cons_of_ne_nil (by simp), List.append_assoc]
  rfl

/-- Groups joined by one separator are read, also from the middle of the address on. -/
theorem parseMacLoop_groups (hw : 8 ≤ w) {d : UInt8} (hd : isMacSep d = true) {groups : List Bytes}
    (hgroups : ∀ g ∈ groups, MacGroup g) (hlen : groups.length = left + 1)
    (hsep : sep = 0 ∨ sep = d) : ∃ a : Octets (left + 1),
      parseMacLoop w left sep (join d groups) = some a ∧
        a.1 = groups.map fun g => UInt8.ofNat (numeral 16 g) := by
  induction left generalizing groups sep with
  | zero =>
    obtain ⟨g, rfl⟩ := List.length_eq_one_iff.mp hlen
    obtain ⟨hread, hle⟩ := @strtoul_macGroup w g [] hw (hgroups g (by simp)) (by simp)
    rw [List.append_nil] at hread
    have hjoin : join d [g] = g := by simp [join]
    refine ⟨⟨[UInt8.ofNat (numeral 16 g)], rfl⟩, ?_, rfl⟩
    simp only [parseMacLoop, hjoin, hread]
    rw [if_neg (by simp; omega)]
  | succ left ih =>
    obtain ⟨g, groups, rfl⟩ := List.exists_cons_of_length_eq_add_one hlen
    obtain ⟨g', groups, rfl⟩ :=
      List.exists_cons_of_length_eq_add_one (show groups.length = left + 1 by simpa using hlen)
    obtain ⟨a, hrest, ha⟩ := @ih d (g' :: groups)
      (fun x hx => hgroups x (List.mem_cons_of_mem _ hx)) (by simpa using hlen) (Or.inr rfl)
    obtain ⟨hread, hle⟩ := @strtoul_macGroup w g (d :: join d (g' :: groups)) hw
      (hgroups g (by simp)) (by simpa using hd)
    have hne : d ≠ 0 := by
      rintro rfl
      exact absurd hd (by decide)
    have hchar : d = 58 ∨ d = 45 := by simpa [isMacSep] using hd
    have hnext : (if sep = 0 ∧ (d = 58 ∨ d = 45) then d else sep) = d := by
      rcases hsep with rfl | rfl
      · rw [if_pos ⟨rfl, hchar⟩]
      · exact ite_self _
    refine ⟨⟨UInt8.ofNat (numeral 16 g) :: a.1, by rw [List.length_cons, a.2]⟩, ?_, ?_⟩
    · rw [join_cons_cons]
      simp only [parseMacLoop, hread, List.headD_cons, List.tail_cons]
      rw [if_neg (by omega), hnext, if_neg (by simp [hne]), hrest]
      rfl
    · exact congrArg (UInt8.ofNat (numeral 16 g) :: ·) ha

/-- What `strtoul` makes of a text without what it skips and without `0x`. -/
theorem strtoul_hex {s : Bytes} (hskip : ∀ c ∈ s.head?, isSkipped c = false)
    (hplain : hexPrefix s = false) :
    strtoul w 16 s = if s.takeWhile (digitVal · < 16) = [] then (0, s)
      else (if 2 ^ w ≤ numeral 16 (s.takeWhile (digitVal · < 16)) then 2 ^ w - 1
        else numeral 16 (s.takeWhile (digitVal · < 16)), s.dropWhile (digitVal · < 16)) := by
  cases s with
  | nil => simp [strtoul, hexPrefix]
  | cons c s =>
    have hc := hskip c rfl
    simp only [isSkipped, Bool.or_eq_false_iff, decide_eq_false_iff_not] at hc
    obtain ⟨⟨hspace, hplus⟩, hminus⟩ := hc
    have hdrop : (c :: s).dropWhile isspace = c :: s :=
      List.dropWhile_cons_of_neg (by simp [hspace])
    simp [strtoul, hdrop, hplus, hminus, hplain]

/-- The first group of a tidy text, with what follows it. -/
theorem Tidy.cases (h : Tidy m) : ∃ g rest, m = g ++ rest ∧ g ≠ [] ∧
    (∀ c ∈ g, isMacSep c = false ∧ isSkipped c = false ∧ c ≠ 120 ∧ c ≠ 88) ∧
    (g.head? = some 48 → g.length ≤ 2) ∧
    (rest = [] ∨ ∃ d r, rest = d :: r ∧ isMacSep d = true ∧ Tidy r) := by
  have hfirst : ∀ c ∈ m.takeWhile fun c => !isMacSep c, isMacSep c = false := fun c hc => by
    simpa using List.mem_takeWhile_imp hc
  have hsplit := List.takeWhile_append_dropWhile (p := fun c => !isMacSep c) (l := m)
  cases hrest : m.dropWhile fun c => !isMacSep c with
  | nil =>
    rw [hrest, List.append_nil] at hsplit
    rw [hsplit] at hfirst
    have hgroups := List.splitOnP_eq_singleton hfirst
    obtain ⟨hne, hchars, hzero⟩ := h m (by rw [hgroups]; simp)
    exact ⟨m, [], by simp, hne, fun c hc => ⟨hfirst c hc, hchars c hc⟩, hzero, Or.inl rfl⟩
  | cons d r =>
    rw [hrest] at hsplit
    have hd : isMacSep d = true := by
      have := List.head_dropWhile_not (p := fun c => !isMacSep c) (l := m) (by rw [hrest]; simp)
      simpa [hrest] using this
    have hgroups := List.splitOnP_append_cons_of_forall_mem hfirst d hd r
    rw [hsplit] at hgroups
    obtain ⟨hne, hchars, hzero⟩ := h _ (by rw [hgroups]; exact List.mem_cons_self ..)
    refine ⟨_, d :: r, hsplit.symm, hne, fun c hc => ⟨hfirst c hc, hchars c hc⟩, hzero,
      Or.inr ⟨d, r, rfl, hd, fun g hg => h g ?_⟩⟩
    rw [hgroups]
    exact List.mem_cons_of_mem _ hg

/-- What is read of a tidy text: the digits of its first group, and what follows them. -/
theorem Tidy.strtoul (hw : 16 ≤ w) (h : Tidy m) (hle : (Lib.strtoul w 16 m).1 ≤ 0xFF) :
    (Lib.strtoul w 16 m).2 ≠ [] ∧ (∀ c ∈ (Lib.strtoul w 16 m).2.head?, isMacSep c = false) ∨
      ∃ g rest, MacGroup g ∧ m = g ++ rest ∧ Lib.strtoul w 16 m = (numeral 16 g, rest) ∧
        (rest = [] ∨ ∃ d r, rest = d :: r ∧ isMacSep d = true ∧ Tidy r) := by
  obtain ⟨g, rest, rfl, hne, hchars, hzero, hrest⟩ := h.cases
  obtain ⟨c, g, rfl⟩ := List.exists_cons_of_ne_nil hne
  have hstop : ∀ d ∈ rest.head?, digitVal d = 36 ∧ isMacSep d = true := by
    rintro d hd
    rcases hrest with rfl | ⟨d', r, rfl, hsep, -⟩
    · cases hd
    · obtain rfl : d' = d := by simpa using hd
      exact ⟨digitVal_of_isMacSep hsep, hsep⟩
  have hskip : ∀ d ∈ ((c :: g) ++ rest).head?, isSkipped d = false := by
    rintro d hd
    obtain rfl : c = d := by simpa using hd
    exact (hchars c (by simp)).2.1
  have hplain : hexPrefix ((c :: g) ++ rest) = false := by
    have hx : ∀ x ∈ ((c :: g) ++ rest)[1]?, x ≠ 120 ∧ x ≠ 88 := by
      intro x hx
      cases g with
      | nil =>
        have hmem : x ∈ rest.head? := by
          rw [List.head?_eq_getElem?]
          simpa using hx
        have := (hstop x hmem).1
        constructor <;> rintro rfl <;> exact absurd this (by decide)
      | cons y g =>
        obtain rfl : y = x := by simpa using hx
        exact (hchars y (by simp)).2.2
    have hlow : ((c :: g) ++ rest)[1]? ≠ some 120 := fun hc => (hx 120 hc).1 rfl
    have hupp : ((c :: g) ++ rest)[1]? ≠ some 88 := fun hc => (hx 88 hc).2 rfl
    have hletter : (((c :: g) ++ rest)[1]? == some 120 || ((c :: g) ++ rest)[1]? == some 88) =
        false := by
      rw [Bool.or_eq_false_iff]
      exact ⟨beq_eq_false_iff_ne.mpr hlow, beq_eq_false_iff_ne.mpr hupp⟩
    rw [hexPrefix, hletter, Bool.and_false, Bool.false_and]
  have hread := strtoul_hex (w := w) hskip hplain
  by_cases hall : ∀ d ∈ c :: g, digitVal d < 16
  · -- all of the group is digits
    have hrun : Run 16 (c :: g) rest := ⟨hne, hall, fun d hd => (hstop d hd).1⟩
    have hvalue := (hrun.strtoul (w := w) (by decide)).1
    have hpow : 2 ^ 16 ≤ 2 ^ w := Nat.pow_le_pow_right (by decide) hw
    rw [hvalue] at hle
    have hlt : ¬2 ^ w ≤ numeral 16 (c :: g) := by
      intro hover
      rw [if_pos hover] at hle
      omega
    rw [if_neg hlt] at hvalue hle
    refine Or.inr ⟨c :: g, rest, ⟨hne, ?_, hall⟩, rfl, hvalue, hrest⟩
    by_cases hc : c = 48
    · exact hzero (by rw [hc]; rfl)
    · exact length_le_two hc hle
  · -- something in the group stops the number
    left
    obtain ⟨x, back, hback, hxg⟩ : ∃ x back,
        ((c :: g) ++ rest).dropWhile (digitVal · < 16) = x :: back ∧ x ∈ c :: g := by
      have hdrop : (c :: g).dropWhile (digitVal · < 16) ≠ [] := by
        intro hnil
        exact hall (by simpa using List.dropWhile_eq_nil_iff.mp hnil)
      obtain ⟨x, back, hback⟩ := List.exists_cons_of_ne_nil hdrop
      refine ⟨x, back ++ rest, ?_, ?_⟩
      · rw [List.dropWhile_append, hback]
        simp
      · exact (List.dropWhile_sublist _).subset (hback ▸ List.mem_cons_self ..)
    have hsepx := (hchars x hxg).1
    rw [hread]
    by_cases htake : ((c :: g) ++ rest).takeWhile (digitVal · < 16) = []
    · rw [if_pos htake]
      refine ⟨by simp, fun d hd => ?_⟩
      obtain rfl : c = d := by simpa using hd
      exact (hchars c (by simp)).1
    · rw [if_neg htake, hback]
      refine ⟨by simp, fun d hd => ?_⟩
      obtain rfl : x = d := by simpa using hd
      exact hsepx

theorem groups_of_parseMacLoop (hw : 16 ≤ w) (hsep : sep = 0 ∨ isMacSep sep = true)
    (htidy : Tidy m) {a : Octets (left + 1)} (h : parseMacLoop w left sep m = some a) :
    ∃ d groups, isMacSep d = true ∧ (sep = 0 ∨ sep = d) ∧ groups.length = left + 1 ∧
      (∀ g ∈ groups, MacGroup g) ∧ m = join d groups ∧
      a.1 = groups.map fun g => UInt8.ofNat (numeral 16 g) := by
  induction left generalizing sep m with
  | zero =>
    simp only [parseMacLoop] at h
    obtain ⟨hok, ha⟩ := Option.ite_none_left_eq_some.mp h
    rw [not_or, not_lt, not_not] at hok
    rcases htidy.strtoul hw hok.1 with ⟨hstop, -⟩ | ⟨g, rest, hg, rfl, hread, -⟩
    · exact absurd hok.2 hstop
    · rw [hread] at hok ha
      obtain rfl : rest = [] := hok.2
      obtain rfl := Option.some.inj ha
      obtain ⟨d, hd, hsame⟩ : ∃ d, isMacSep d = true ∧ (sep = 0 ∨ sep = d) := by
        rcases hsep with rfl | hsep
        · exact ⟨58, by decide, Or.inl rfl⟩
        · exact ⟨sep, hsep, Or.inr rfl⟩
      refine ⟨d, [g], hd, hsame, rfl, by simpa using hg, by simp [join], rfl⟩
  | succ left ih =>
    simp only [parseMacLoop] at h
    obtain ⟨hle, h⟩ := Option.ite_none_left_eq_some.mp h
    obtain ⟨hok, h⟩ := Option.ite_none_left_eq_some.mp h
    rw [not_or, not_not] at hok
    obtain ⟨a', hrest, rfl⟩ := Option.map_eq_some_iff.mp h
    rcases htidy.strtoul hw (not_lt.mp hle) with ⟨hne, hstop⟩ | ⟨g, rest, hg, rfl, hread, hmore⟩
    · -- the text goes on with no separator
      obtain ⟨c, e, he⟩ := List.exists_cons_of_ne_nil hne
      have hc := hstop c (by rw [he]; rfl)
      rw [he, List.headD_cons] at hok
      have hnot : ¬(c = 58 ∨ c = 45) := by
        intro hchar
        have : isMacSep c = true := by simpa [isMacSep] using hchar
        rw [this] at hc
        cases hc
      rw [if_neg (fun hand => hnot hand.2)] at hok
      rcases hsep with hsep | hsep
      · exact absurd hsep hok.1
      · rw [← hok.2, hc] at hsep
        cases hsep
    · rw [hread] at hok hrest
      rcases hmore with rfl | ⟨c, r, rfl, hc, hr⟩
      · exact absurd hok.2.symm hok.1
      · simp only [List.headD_cons, List.tail_cons] at hok hrest
        rw [← hok.2] at hrest
        obtain ⟨d, groups, hd, hsame, hlen, hgroups, rfl, ha⟩ := ih (Or.inr hc) hr hrest
        obtain rfl : c = d := by
          rcases hsame with rfl | rfl
          · exact absurd hc (by decide)
          · rfl
        refine ⟨c, g :: groups, hd, ?_, by rw [List.length_cons, hlen], ?_, ?_, ?_⟩
        · by_cases hzero : sep = 0
          · exact Or.inl hzero
          · have hkeep : ¬(sep = 0 ∧ (c = 58 ∨ c = 45)) := fun hand => hzero hand.1
            simp only [hkeep, if_false] at hok
            exact Or.inr hok.2.symm
        · rw [List.forall_mem_cons]
          exact ⟨hg, hgroups⟩
        · obtain ⟨g', groups', rfl⟩ := List.exists_cons_of_length_eq_add_one hlen
          rw [join_cons_cons]
        · rw [hread]
          exact congrArg (UInt8.ofNat (numeral 16 g) :: ·) ha

/-- A tidy text is read if and only if it is six groups of one or two digits joined by one
separator, with the values of the groups. -/
theorem parseMac_iff (hw : 16 ≤ w) {s : Bytes} (h : Tidy s) (a : Octets 6) :
    parseMac w s = some a ↔ MacNotation s a := by
  constructor
  · intro hread
    obtain ⟨d, groups, hd, -, hlen, hgroups, hs, ha⟩ :=
      groups_of_parseMacLoop hw (Or.inl rfl) h hread
    exact ⟨d, groups, hd, hlen, hgroups, hs, ha⟩
  · rintro ⟨d, groups, hd, hlen, hgroups, rfl, ha⟩
    obtain ⟨b, hread, hb⟩ := parseMacLoop_groups (w := w) (by omega) hd hgroups hlen (Or.inl rfl)
    obtain rfl : b = a := Subtype.ext (hb.trans ha.symm)
    exact hread

end Macs

/-- The test of `cidr_is6linklocal`. -/
def cidrIs6linklocal : Addr → Bool
  | .v6 a => a.1.getD 0 0 = 0xFE && 0x80 ≤ a.1.getD 1 0 && a.1.getD 1 0 ≤ 0xBF
  | _ => false

/-- The parser looks at the third byte where `cidr_is6linklocal` looks at the second one. This
makes no difference if both are in range or both are not. -/
def SameRange (a : Addr) : Prop :=
  ∀ v6, a = .v6 v6 → (v6.1.getD 1 0 ≤ 0xBF ↔ v6.1.getD 2 0 ≤ 0xBF)

section Zones

variable {net : Net} {a : Addr} {t z : Bytes}

theorem parseZone_isSome_iff (h : SameRange a) : (parseZone net a (some z)).isSome ↔
    cidrIs6linklocal a = true ∧ net.nametoindex z ≠ 0 := by
  cases a with
  | v4 a => simp [parseZone, cidrIs6linklocal]
  | mac a => simp [parseZone, cidrIs6linklocal]
  | v6 a =>
    have hallowed : zoneAllowed a ↔ cidrIs6linklocal (.v6 a) = true := by
      simp only [zoneAllowed, cidrIs6linklocal, Bool.and_eq_true, decide_eq_true_eq, h a rfl]
      tauto
    simp only [parseZone, ← hallowed]
    split_ifs with hok
    · exact ⟨fun _ => hok, fun _ => rfl⟩
    · exact ⟨fun hsome => absurd hsome (by simp), fun hand => absurd hand hok⟩

/-- The text of an address with a zone, and a prefix length if there is one. -/
def zoneText (t z : Bytes) (p : Option Bytes) : Bytes :=
  t ++ 37 :: z ++ p.elim [] (47 :: ·)

/-- A zone is accepted if and only if it names an interface and the address is link-local. -/
theorem parseCidr_zone_iff {tail : Bytes} {p : Option Bytes} (haddr : parseAddr net t = some a)
    (hrange : SameRange a) (ht : 37 ∉ t ∧ 47 ∉ t) (hz : 47 ∉ z)
    (hp : ∀ q ∈ p, (parseMask net a.family q).isSome) (hnul : 0 ∉ zoneText t z p)
    (hlen : (zoneText t z p).length < 93) :
    (parseCidr net tail (zoneText t z p)).isSome ↔
      cidrIs6linklocal a = true ∧ net.nametoindex z ≠ 0 := by
  have hslash : 47 ∉ t ++ 37 :: z := by simp [ht.2, hz]
  have hcut : cutAt 47 (zoneText t z p) = (t ++ 37 :: z, p) := by
    cases p with
    | none =>
      rw [zoneText, Option.elim_none, List.append_nil]
      exact cutAt_of_notMem hslash
    | some q => exact cutAt_append hslash
  have hplain : ∃ bits, parsePrefix net a.family p = some bits := by
    cases p with
    | none => exact ⟨_, rfl⟩
    | some q => exact Option.isSome_iff_exists.mp (hp q rfl)
  obtain ⟨bits, hbits⟩ := hplain
  rw [← parseZone_isSome_iff hrange, parseCidr, cstr_strncpy hnul hlen]
  simp only [hcut, cutAt_append ht.1, haddr, Option.bind_some, hbits, Option.map_some]
  cases parseZone net a (some z) <;> rfl

/-- The texts of prefix lengths, MAC addresses and zones that are accepted, and what they are
read as. -/
theorem cidr_texts (net : Net) (hnet : net.Lawful) :
    (∀ family s m k, maskAddr net family s = some m → Mask family.afBits k m →
      parseMask net family s = some (k : ℤ) ∧ (maskBits family.afBits m).count true = k) ∧
    (∀ family s, Decimal s → maskAddr net family s = none) ∧
    (∀ family s, maskAddr net family s = none → (∀ c ∈ s.head?, isSkipped c = false) →
      (Decimal s → numeral 10 s < 32768) →
      parseMask net family s =
        if Decimal s ∧ numeral 10 s ≤ family.afBits then some (numeral 10 s : ℤ) else none) ∧
    (∀ s a, Tidy s → (parseMac net.ulongBits s = some a ↔ MacNotation s a)) ∧
    ∀ tail t z p a, parseAddr net t = some a → SameRange a → 37 ∉ t ∧ 47 ∉ t → 47 ∉ z →
      (∀ q ∈ p, (parseMask net a.family q).isSome) → 0 ∉ zoneText t z p →
      (zoneText t z p).length < 93 →
      ((parseCidr net tail (zoneText t z p)).isSome ↔
        cidrIs6linklocal a = true ∧ net.nametoindex z ≠ 0) := by
  have hw : 16 ≤ net.ulongBits := le_trans (by decide) hnet.ulongBits_ge
  refine ⟨fun _ _ _ _ h hmask => parseMask_of_mask h hmask, fun _ _ => maskAddr_of_decimal hnet,
    fun _ _ => parseMask_of_plain hnet, fun _ a h => parseMac_iff hw h a, ?_⟩
  intro tail t z p a haddr hrange ht hz hp hnul hlen
  exact parseCidr_zone_iff haddr hrange ht hz hp hnul hlen

theorem cidr_texts_stack : parseMask stack .inet (ascii "24") = some 24 ∧
    ∀ a, parseMac stack.ulongBits (ascii "0:14:22:1:23:45") = some a ↔
      MacNotation (ascii "0:14:22:1:23:45") a := by
  obtain ⟨-, hdecimal, hplain, hmac, -⟩ := cidr_texts stack stack_lawful
  refine ⟨?_, fun a => hmac _ a (by unfold Tidy; decide +kernel)⟩
  rw [hplain .inet (ascii "24") (hdecimal .inet _ (by decide +kernel)) (by decide +kernel)
    (by decide +kernel)]
  decide +kernel

/-- A netmask may be written as a MAC address, and a zone has to name an interface. -/
theorem not_cidr_texts :
    parseMask stack .packet (ascii "FF:FF:FF:00:00:00") = some 24 ∧
      ¬Decimal (ascii "FF:FF:FF:00:00:00") ∧
      cidrIs6linklocal (.v6 ⟨[0xFE, 0x80, 0, 0, 0, 0, 0, 0, 0, 0, 0, 0, 0, 0, 0, 1], rfl⟩) = true ∧
      parseZone stack (.v6 ⟨[0xFE, 0x80, 0, 0, 0, 0, 0, 0, 0, 0, 0, 0, 0, 0, 0, 1], rfl⟩)
        (some (ascii "eth1")) = none := by
  refine ⟨by decide +kernel, by decide, by decide, by decide +kernel⟩

end Zones

end NeonWrt.Luci
