import NeonWrt.Hostapd.Bssid
import Mathlib.Algebra.Order.BigOperators.Group.List

/-!
# The addresses that are handed out

Behind the search for kept BSSes, the table lists the kept and the static ones with their places,
but for a static first one whose address a kept one has; that one is moved by the first pass of the
loop of step 6. From then on each pass leaves the settled addresses different and listed, so that an
address that is not listed is new.
-/

namespace NeonWrt.Hostapd.Bssid

open NeonWrt.Lib Wireless

section Assign

variable (env : ReloadEnv) (old bss : List Bss)

/-- What an entry says of the configurations: static addresses are there, fixed ones as configured,
and that of the running first BSS as it was. -/
structure EntryFine (k : ℕ) (b : Bss) (q : Option ℕ) (c : Bss) : Prop where
  config : bss[k]? = some c
  default : b.defaultMacaddr = c.defaultMacaddr
  static : IsStatic b → ∃ a, addr b = some a ∧ a ∉ env.mld
  fixed : Fixed c → addr b = addr c
  first : q = some 0 → ∀ {f}, old[0]? = some f → addr b = addr f

/-- What holds before addresses are handed out: kept BSSes and static ones are listed with their
place, but for a static first one whose address a kept BSS has. -/
structure Ready (s : List Entry × MacaddrList) : Prop where
  length : s.1.length = bss.length
  entry : ∀ {k : ℕ} {b q}, s.1[k]? = some (b, q) → ∃ c, EntryFine env old bss k b q c
  kept : ∀ {k : ℕ} {b p}, s.1[k]? = some (b, some p) → s.2.get? (addr b) = some (k : ℤ) ∧
    ∃ a, addr b = some a ∧ a ∉ env.mld
  static : ∀ {k : ℕ} {b}, k ≠ 0 → s.1[k]? = some (b, none) → IsStatic b →
    s.2.get? (addr b) = some (k : ℤ)
  static_zero : ∀ {b}, s.1[0]? = some (b, none) → IsStatic b →
    ∃ j : ℕ, s.2.get? (addr b) = some (j : ℤ) ∧ (j = 0 ∨ ∃ c p d, s.1[j]? = some (c, some p) ∧
      p ≠ 0 ∧ bss[j]? = some d ∧ ¬Fixed d)
  mld : ∀ a ∈ env.mld, (s.2.get? (some a)).isSome
  unplaced : ∀ {k : ℕ} {b x}, s.1[k]? = some (b, none) → ¬IsStatic b →
    s.2.get? x ≠ some (k : ℤ)

/-- An entry whose address is settled at a place of the loop of step 6. -/
def Settled (i k : ℕ) (b : Bss) (q : Option ℕ) : Prop := q.isSome ∨ IsStatic b ∨ k < i

/-- What holds in the loop of step 6, behind its first pass. -/
structure AssignInv (i : ℕ) (s : List Entry × MacaddrList) : Prop where
  length : s.1.length = bss.length
  entry : ∀ {k : ℕ} {b q}, s.1[k]? = some (b, q) → ∃ c, EntryFine env old bss k b q c
  settled : ∀ {k : ℕ} {b q}, s.1[k]? = some (b, q) → Settled i k b q →
    (s.2.get? (addr b)).isSome ∧ ∃ a, addr b = some a ∧ a ∉ env.mld
  inj : ∀ {j k : ℕ} {b c q r}, s.1[j]? = some (b, q) → s.1[k]? = some (c, r) →
    Settled i j b q → Settled i k c r → addr b = addr c → j = k
  static : ∀ {k : ℕ} {b}, i ≤ k → s.1[k]? = some (b, none) → IsStatic b →
    s.2.get? (addr b) = some (k : ℤ)
  mld : ∀ a ∈ env.mld, (s.2.get? (some a)).isSome
  unplaced : ∀ {k : ℕ} {b x}, i ≤ k → s.1[k]? = some (b, none) → ¬IsStatic b →
    s.2.get? x ≠ some (k : ℤ)

variable {env old bss}

theorem ready_init {s : List Entry × MacaddrList} (h : Ready env old bss s) :
    Ready env old bss (s.1, ifaceMacaddrInit env s.2) where
  length := h.length
  entry := h.entry
  kept hb := ⟨get?_ifaceMacaddrInit (h.kept hb).1, (h.kept hb).2⟩
  static hk hb hs := get?_ifaceMacaddrInit (h.static hk hb hs)
  static_zero hb hs := by
    obtain ⟨j, hj, hcases⟩ := h.static_zero hb hs
    exact ⟨j, get?_ifaceMacaddrInit hj, hcases⟩
  mld a ha := by
    obtain ⟨v, hv⟩ := Option.isSome_iff_exists.mp (h.mld a ha)
    rw [get?_ifaceMacaddrInit hv]
    rfl
  unplaced hb hs hget := by
    rcases get?_ifaceMacaddrInit_cases hget with hget | heq
    · exact h.unplaced hb hs hget
    · omega

/-- Behind the loop of step 1, if a BSS is kept. -/
theorem ready_of_keepInv (hstatic : Distinct env.mld bss IsStatic)
    (hrunning : Distinct env.mld old fun _ => True) (hcompat : Compatible env old bss)
    {s : List Entry × MacaddrList} (h : KeepInv env old bss bss.length s) :
    Ready env old bss s := by
  have hfine : ∀ {k : ℕ} {b q}, s.1[k]? = some (b, q) → ∃ c, bss[k]? = some c ∧
      (matching env old bss)[k]? = some q ∧ b.defaultMacaddr = c.defaultMacaddr ∧
      ((q = none ∧ addr b = addr c) ∨ ∃ p prev, q = some p ∧ old[p]? = some prev ∧
        addr b = keptAddr c prev) := by
    intro k b q hb
    obtain ⟨hm, c, hc, hdefault, -, haddr⟩ := h.entry hb
    refine ⟨c, hc, hm, hdefault, ?_⟩
    rcases haddr with ⟨-, p, prev, hq, hprev, haddr⟩ | ⟨hle | hnone, haddr⟩
    · exact Or.inr ⟨p, prev, hq, hprev, haddr⟩
    · have hlt := (List.getElem?_eq_some_iff.mp hc).1
      exact absurd hlt (by omega)
    · exact Or.inl ⟨hnone, haddr⟩
  have hpresent : ∀ {p : ℕ} {c prev : Bss} {k : ℕ}, bss[k]? = some c → old[p]? = some prev →
      ∃ a, keptAddr c prev = some a ∧ a ∉ env.mld := by
    intro p c prev k hc hprev
    by_cases hf : Fixed c
    · rw [keptAddr_of_fixed hf]
      exact hstatic.present hc hf.1
    · rw [keptAddr_of_not hf]
      exact hrunning.present hprev trivial
  have hkept : ∀ {k : ℕ} {b p}, s.1[k]? = some (b, some p) → ∃ c prev, bss[k]? = some c ∧
      old[p]? = some prev ∧ addr b = keptAddr c prev ∧
      (matching env old bss)[k]? = some (some p) := by
    intro k b p hb
    obtain ⟨c, hc, hm, -, ⟨hq, -⟩ | ⟨p', prev, hq, hprev, haddr⟩⟩ := hfine hb
    · cases hq
    · cases hq
      exact ⟨c, prev, hc, hprev, haddr, hm⟩
  refine ⟨h.length, fun {k b q} hb => ?_, fun {k b p} hb => ?_, fun {k b} hk hb hs => ?_,
    fun {b} hb hs => ?_, fun a ha => ?_, fun {k b x} hb hs hget => ?_⟩
  · obtain ⟨c, hc, hm, hdefault, haddr⟩ := hfine hb
    refine ⟨c, hc, hdefault, fun hs => ?_, fun hf => ?_, fun hq {f} hf => ?_⟩
    · rcases haddr with ⟨-, haddr⟩ | ⟨p, prev, -, hprev, haddr⟩
      · rw [haddr]
        exact hstatic.present hc (hdefault.symm.trans hs)
      · rw [haddr]
        exact hpresent hc hprev
    · rcases haddr with ⟨-, haddr⟩ | ⟨p, prev, -, -, haddr⟩
      · exact haddr
      · rw [haddr, keptAddr_of_fixed hf]
    · rcases haddr with ⟨hnone, -⟩ | ⟨p, prev, hsome, hprev, haddr⟩
      · rw [hq] at hnone
        cases hnone
      · rw [hq] at hsome hm
        cases hsome
        obtain rfl := Option.some.inj (hf.symm.trans hprev)
        by_cases hfixed : Fixed c
        · rw [haddr, keptAddr_of_fixed hfixed]
          exact hcompat.first hm hc hf hfixed
        · rw [haddr, keptAddr_of_not hfixed]
  · obtain ⟨c, prev, hc, hprev, haddr, hm⟩ := hkept hb
    have hlt := (List.getElem?_eq_some_iff.mp hc).1
    rw [haddr]
    exact ⟨h.kept hlt ⟨p, c, prev, hm, hc, hprev, rfl⟩, hpresent hc hprev⟩
  · obtain ⟨c, hc, -, hdefault, ⟨-, haddr⟩ | ⟨p, prev, hq, -⟩⟩ := hfine hb
    · exact h.static hk ⟨c, hc, hdefault.symm.trans hs, haddr⟩
    · cases hq
  · obtain ⟨c, hc, hm, hdefault, ⟨-, haddr⟩ | ⟨p, prev, hq, -⟩⟩ := hfine hb
    · have hzero : StaticAt bss 0 (addr b) := ⟨c, hc, hdefault.symm.trans hs, haddr⟩
      obtain ⟨v, hv⟩ := Option.isSome_iff_exists.mp (h.static_zero hzero)
      rcases h.listed hv with ⟨-, a, ha, heq⟩ |
        ⟨k, rfl, hk | ⟨hlt, p, d, prev, hm', hd, hprev, heq⟩⟩
      · rw [heq] at hzero
        exact absurd ha (hzero.not_mld hstatic)
      · exact ⟨k, hv, Or.inl (hk.unique hstatic hzero)⟩
      · by_cases hfixed : Fixed d
        · rw [keptAddr_of_fixed hfixed] at heq
          exact ⟨k, hv, Or.inl (StaticAt.unique hstatic ⟨d, hd, hfixed.1, heq⟩ hzero)⟩
        · rw [keptAddr_of_not hfixed] at heq
          obtain ⟨-, hother⟩ := hcompat.kept hm' hd hprev hfixed
          rcases hother hc (hdefault.symm.trans hs) (haddr.symm.trans heq) with rfl | ⟨-, hp, -⟩
          · exact ⟨0, hv, Or.inl rfl⟩
          · have hltk : k < s.1.length := h.length ▸ hlt
            obtain ⟨⟨e, q⟩, he⟩ : ∃ e, s.1[k]? = some e := ⟨_, List.getElem?_eq_getElem hltk⟩
            have hq := (h.entry he).1
            rw [hm'] at hq
            cases hq
            exact ⟨k, hv, Or.inr ⟨e, p, d, he, hp, hd, hfixed⟩⟩
    · cases hq
  · rw [h.mld a ha]
    rfl
  · rcases h.listed hget with ⟨heq, -⟩ | ⟨k', heq, hk⟩
    · omega
    · obtain rfl : k = k' := by omega
      obtain ⟨c, hc, hm, hdefault, -⟩ := hfine hb
      rcases hk with ⟨c', hc', hcs, -⟩ | ⟨-, p, c', prev, hm', -⟩
      · obtain rfl := Option.some.inj (hc.symm.trans hc')
        exact hs (hdefault.trans hcs)
      · rw [hm] at hm'
        cases hm'

/-- Step 2 keeps the running first BSS for the first place. -/
theorem ready_first (hstatic : Distinct env.mld bss IsStatic)
    (hrunning : Distinct env.mld old fun _ => True) (hcompat : Compatible env old bss)
    {b b' f : Bss} {q : Option ℕ} {rest : List Entry} {list : MacaddrList}
    (hinv : KeepInv env old bss bss.length ((b, q) :: rest, list))
    (hnone : ∀ e ∈ (b, q) :: rest, e.2 = none) (hf : old[0]? = some f)
    (hdefault : b'.defaultMacaddr = b.defaultMacaddr) (haddr : addr b' = addr f)
    (hsame : IsStatic b → addr b' = addr b) :
    Ready env old bss ((b', some 0) :: rest, list.set (addr f) 0) := by
  have hr := ready_of_keepInv hstatic hrunning hcompat hinv
  obtain rfl : q = none := hnone (b, q) (List.mem_cons_self ..)
  obtain ⟨-, c, hc, hbc, -, haddrs⟩ := hinv.entry (k := 0) rfl
  have hbaddr : addr b = addr c := by
    rcases haddrs with ⟨-, p, prev, hq, -⟩ | ⟨-, haddrs⟩
    · cases hq
    · exact haddrs
  have hunmatched : ∀ r ∈ matching env old bss, r = none := by
    intro r hr'
    obtain ⟨k, hk⟩ := List.mem_iff_getElem?.mp hr'
    have hlt := (List.getElem?_eq_some_iff.mp hk).1
    rw [matching_length, ← hinv.length] at hlt
    have he := hinv.entry (List.getElem?_eq_getElem hlt)
    rw [hk] at he
    rw [Option.some.inj he.1]
    exact hnone _ (List.getElem_mem hlt)
  have hother : ∀ {k : ℕ} {d}, k ≠ 0 → ((b, none) :: rest)[k]? = some (d, none) → IsStatic d →
      addr d ≠ addr f := by
    intro k d hk hd hs heq
    obtain ⟨-, c', hc', hdc, -, hdaddr⟩ := hinv.entry hd
    have hdaddr : addr d = addr c' := by
      rcases hdaddr with ⟨-, p, prev, hq, -⟩ | ⟨-, hdaddr⟩
      · cases hq
      · exact hdaddr
    have hs' : IsStatic c' := hdc.symm.trans hs
    by_cases hcs : IsStatic c
    · have hsb : addr f = addr c := by rw [← haddr, hsame (hbc.trans hcs), hbaddr]
      exact hk (hstatic.inj hc' hc hs' hcs (by rw [← hdaddr, heq, hsb]))
    · exact hcompat.unmatched hunmatched hc hcs hf hc' hs' (hdaddr.symm.trans heq)
  refine ⟨hr.length, fun {k d r} hd => ?_, fun {k d p} hd => ?_, fun {k d} hk hd hs => ?_,
    fun {d} hd hs => ?_, fun a ha => ?_, fun {k d x} hd hs hget => ?_⟩
  · cases k with
    | zero =>
      cases hd
      refine ⟨c, hc, hdefault.trans hbc, fun _ => ?_, fun hfix => ?_, fun _ {f'} hf' => ?_⟩
      · rw [haddr]
        exact hrunning.present hf trivial
      · rw [hsame (hbc.trans hfix.1), hbaddr]
      · rw [haddr, Option.some.inj (hf.symm.trans hf')]
    | succ k => exact hr.entry (k := k + 1) hd
  · cases k with
    | zero =>
      cases hd
      rw [haddr, Table.get?_set_self]
      exact ⟨rfl, hrunning.present hf trivial⟩
    | succ k =>
      have hmem : (d, some p) ∈ rest := List.mem_of_getElem? hd
      cases hnone _ (List.mem_cons_of_mem _ hmem)
  · obtain ⟨k, rfl⟩ := Nat.exists_eq_succ_of_ne_zero hk
    have hd' : ((b, none) :: rest)[k + 1]? = some (d, none) := hd
    rw [Table.get?_set_ne (hother hk hd' hs)]
    exact hr.static hk hd' hs
  · cases hd
  · rw [Table.get?_set]
    split_ifs
    · rfl
    · exact hr.mld a ha
  · cases k with
    | zero => cases hd
    | succ k =>
      rw [Table.get?_set] at hget
      split_ifs at hget with hx
      · have := Option.some.inj hget
        omega
      · exact hr.unplaced (k := k + 1) hd hs hget

theorem ready_keepFirst (hstatic : Distinct env.mld bss IsStatic)
    (hrunning : Distinct env.mld old fun _ => True) (hcompat : Compatible env old bss)
    {s t : List Entry × MacaddrList} (hinv : KeepInv env old bss bss.length s)
    (hnone : ∀ e ∈ s.1, e.2 = none) (h : keepFirst old s = some t) : Ready env old bss t := by
  obtain ⟨entries, list⟩ := s
  cases entries with
  | nil => cases h
  | cons e rest =>
    obtain ⟨b, q⟩ := e
    cases old with
    | nil => cases h
    | cons f tail =>
      simp only [keepFirst] at h
      split_ifs at h with hne hdefault
      · cases h
        exact ready_first hstatic hrunning hcompat hinv hnone rfl rfl rfl fun hs => by
          rw [IsStatic, hdefault] at hs
          cases hs
      · cases h
        have heq : addr b = addr f := not_not.mp hne
        rw [heq]
        exact ready_first hstatic hrunning hcompat hinv hnone rfl rfl heq fun _ => rfl

/-- A BSS whose place is not settled is given an address that is not listed. -/
theorem assignInv_set {i j : ℕ} {a : Bytes} {c : Bss} {r : Option ℕ} {s : List Entry × MacaddrList}
    {list : MacaddrList} (hlen : s.1.length = bss.length)
    (hentry : ∀ {k : ℕ} {b q}, s.1[k]? = some (b, q) → ∃ d, EntryFine env old bss k b q d)
    (hj : s.1[j]? = some (c, r)) (hji : j ≤ i ∨ r.isSome)
    (hfree : r ≠ some 0 ∧ ∀ {d}, bss[j]? = some d → ¬Fixed d)
    (hsettled : ∀ {k : ℕ} {b q}, k ≠ j → s.1[k]? = some (b, q) → Settled (i + 1) k b q →
      (s.2.get? (addr b)).isSome ∧ ∃ a, addr b = some a ∧ a ∉ env.mld)
    (hinj : ∀ {k l : ℕ} {b c q r}, k ≠ j → l ≠ j → s.1[k]? = some (b, q) →
      s.1[l]? = some (c, r) → Settled (i + 1) k b q → Settled (i + 1) l c r →
      addr b = addr c → k = l)
    (hstatic : ∀ {k : ℕ} {b}, i + 1 ≤ k → s.1[k]? = some (b, none) → IsStatic b →
      s.2.get? (addr b) = some (k : ℤ))
    (hmld : ∀ a ∈ env.mld, (s.2.get? (some a)).isSome)
    (hunplaced : ∀ {k : ℕ} {b x}, i + 1 ≤ k → s.1[k]? = some (b, none) → ¬IsStatic b →
      s.2.get? x ≠ some (k : ℤ))
    (hsub : ∀ {x}, (s.2.get? x).isSome → (list.get? x).isSome)
    (hkeep : ∀ {x} {k : ℕ}, s.2.get? x = some (k : ℤ) → list.get? x = some (k : ℤ))
    (hnew : ∀ {x v}, list.get? x = some v → s.2.get? x = some v ∨ v = (i : ℤ))
    (ha : list.get? (some a) = none) :
    AssignInv env old bss (i + 1) (s.1.set j (setBssid (some a) c, r), list.set (some a) i) := by
  have hlt := (List.getElem?_eq_some_iff.mp hj).1
  have hlisted : ∀ {x}, (s.2.get? x).isSome → x ≠ some a := by
    rintro x hx rfl
    have := hsub hx
    rw [ha] at this
    cases this
  have hmlda : a ∉ env.mld := fun hmem => hlisted (hmld a hmem) rfl
  have hset : ∀ {x}, (s.2.get? x).isSome → ((list.set (some a) i).get? x).isSome := by
    intro x hx
    rw [Table.get?_set_ne (hlisted hx)]
    exact hsub hx
  have hcases : ∀ {k : ℕ} {b q}, (s.1.set j (setBssid (some a) c, r))[k]? = some (b, q) →
      (k = j ∧ b = setBssid (some a) c ∧ q = r) ∨ (k ≠ j ∧ s.1[k]? = some (b, q)) := by
    intro k b q hb
    by_cases hk : k = j
    · subst hk
      rw [List.getElem?_set_self hlt] at hb
      cases hb
      exact Or.inl ⟨rfl, rfl, rfl⟩
    · rw [List.getElem?_set_ne (Ne.symm hk)] at hb
      exact Or.inr ⟨hk, hb⟩
  refine ⟨by rw [List.length_set, hlen], fun {k b q} hb => ?_, fun {k b q} hb hs => ?_,
    fun {k l b d q r'} hb hd hbs hds heq => ?_, fun {k b} hk hb hs => ?_,
    fun m hm => hset (hmld m hm), fun {k b x} hk hb hs hget => ?_⟩
  · rcases hcases hb with ⟨rfl, rfl, rfl⟩ | ⟨-, hb⟩
    · obtain ⟨d, hfine⟩ := hentry hj
      exact ⟨d, hfine.config, hfine.default, fun _ => ⟨a, rfl, hmlda⟩,
        fun hfix => absurd hfix (hfree.2 hfine.config), fun hq => absurd hq hfree.1⟩
    · exact hentry hb
  · rcases hcases hb with ⟨rfl, rfl, rfl⟩ | ⟨hk, hb⟩
    · rw [addr_setBssid, Table.get?_set_self]
      exact ⟨rfl, a, rfl, hmlda⟩
    · obtain ⟨hsome, hpresent⟩ := hsettled hk hb hs
      exact ⟨hset hsome, hpresent⟩
  · rcases hcases hb with ⟨hkj, hbj, -⟩ | ⟨hk, hb'⟩
    · rcases hcases hd with ⟨hlj, -, -⟩ | ⟨hl, hd'⟩
      · rw [hkj, hlj]
      · rw [hbj, addr_setBssid] at heq
        exact absurd heq.symm (hlisted (hsettled hl hd' hds).1)
    · rcases hcases hd with ⟨-, hdj, -⟩ | ⟨hl, hd'⟩
      · rw [hdj, addr_setBssid] at heq
        exact absurd heq (hlisted (hsettled hk hb' hbs).1)
      · exact hinj hk hl hb' hd' hbs hds heq
  · rcases hcases hb with ⟨rfl, -, hq⟩ | ⟨-, hb⟩
    · rcases hji with hle | hsome
      · omega
      · rw [← hq] at hsome
        cases hsome
    · have hget := hstatic hk hb hs
      rw [Table.get?_set_ne (hlisted (by rw [hget]; rfl))]
      exact hkeep hget
  · rcases hcases hb with ⟨rfl, -, hq⟩ | ⟨-, hb⟩
    · rcases hji with hle | hsome
      · omega
      · rw [← hq] at hsome
        cases hsome
    · rw [Table.get?_set] at hget
      split_ifs at hget with hx
      · have := Option.some.inj hget
        omega
      · rcases hnew hget with hget | heq
        · exact hunplaced hk hb hs hget
        · omega

/-- The table behind the entry of a new BSS whose address was listed without a place. -/
theorem listed_new (list : MacaddrList) (x : Addr) (i : ℕ) :
    (∀ {y}, (list.get? y).isSome →
      ((if (list.get? x).any (· < 0) then list.set x i else list).get? y).isSome) ∧
    (∀ {y} {k : ℕ}, list.get? y = some (k : ℤ) →
      (if (list.get? x).any (· < 0) then list.set x i else list).get? y = some (k : ℤ)) ∧
    (∀ {y v}, (if (list.get? x).any (· < 0) then list.set x i else list).get? y = some v →
      list.get? y = some v ∨ v = (i : ℤ)) := by
  by_cases hneg : (list.get? x).any (· < 0) = true
  · rw [if_pos hneg]
    refine ⟨fun {y} hy => ?_, fun {y k} hy => ?_, fun {y v} hy => ?_⟩
    · rw [Table.get?_set]
      split_ifs
      · rfl
      · exact hy
    · rw [Table.get?_set]
      split_ifs with hx
      · rw [hx] at hy
        rw [hy] at hneg
        simp only [Option.any_some, decide_eq_true_eq] at hneg
        omega
      · exact hy
    · rw [Table.get?_set] at hy
      split_ifs at hy
      · exact Or.inr (Option.some.inj hy).symm
      · exact Or.inl hy
  · rw [if_neg hneg]
    exact ⟨id, id, Or.inl⟩

/-- A pass over an entry whose address is settled. -/
theorem AssignInv.succ {i : ℕ} {s : List Entry × MacaddrList} (h : AssignInv env old bss i s)
    (hi : ∀ {b q}, s.1[i]? = some (b, q) → q.isSome ∨ IsStatic b) :
    AssignInv env old bss (i + 1) s := by
  have hsettled : ∀ {k : ℕ} {b q}, s.1[k]? = some (b, q) → Settled (i + 1) k b q →
      Settled i k b q := by
    intro k b q hb hs
    rcases hs with hq | hstatic | hlt
    · exact Or.inl hq
    · exact Or.inr (Or.inl hstatic)
    · rcases (Nat.lt_succ_iff.mp hlt).eq_or_lt with rfl | hlt
      · exact (hi hb).imp_right Or.inl
      · exact Or.inr (Or.inr hlt)
  exact ⟨h.length, h.entry, fun hb hs => h.settled hb (hsettled hb hs),
    fun hb hc hbs hcs => h.inj hb hc (hsettled hb hbs) (hsettled hc hcs),
    fun hk => h.static (by omega), h.mld, fun hk => h.unplaced (by omega)⟩

/-- A pass of the loop of step 6 behind the first place. -/
theorem assignStep_inv {i : ℕ} {s t : List Entry × MacaddrList} (h : AssignInv env old bss i s)
    (hstep : assignStep env s i = some t) : AssignInv env old bss (i + 1) t := by
  rw [assignStep] at hstep
  cases hentry : s.1[i]? with
  | none =>
    rw [hentry] at hstep
    cases hstep
    exact h.succ fun hb => by rw [hentry] at hb; cases hb
  | some e =>
    obtain ⟨b, q⟩ := e
    rw [hentry] at hstep
    cases q with
    | some p =>
      cases hstep
      exact h.succ fun hb => by
        rw [hentry] at hb
        cases hb
        exact Or.inl rfl
    | none =>
      simp only at hstep
      by_cases hs : IsStatic b
      · -- a static BSS is listed with its place
        have hget := h.static le_rfl hentry hs
        have hpos : ¬(i : ℤ) < 0 := by omega
        rw [hget, if_pos rfl, Option.any_some, decide_eq_false hpos, if_neg Bool.false_ne_true]
          at hstep
        cases hstep
        exact h.succ fun hb => by
          rw [hentry] at hb
          cases hb
          exact Or.inr hs
      · rw [if_neg (h.unplaced le_rfl hentry hs)] at hstep
        have hdefault : b.defaultMacaddr = true := by
          rw [IsStatic, Bool.not_eq_false] at hs
          exact hs
        rw [hdefault, if_pos rfl] at hstep
        simp only [Option.bind_eq_bind, Option.bind_some, hentry] at hstep
        obtain ⟨a, ha, hstep⟩ := Option.bind_eq_some_iff.mp hstep
        cases hstep
        obtain ⟨hsub, hkeep, hnew⟩ := listed_new s.2 (addr b) i
        refine assignInv_set h.length h.entry hentry (Or.inl le_rfl) ⟨by simp, ?_⟩ ?_ ?_
          (fun hk => h.static (by omega)) h.mld (fun hk => h.unplaced (by omega)) hsub hkeep hnew
          (env.unlisted ha)
        · intro d hd hfix
          obtain ⟨d', hfine⟩ := h.entry hentry
          obtain rfl := Option.some.inj (hd.symm.trans hfine.config)
          exact hs (hfine.default.trans hfix.1)
        · intro k c r hk hc hsettled
          exact h.settled hc (hsettled.imp_right (Or.imp_right fun hlt => by omega))
        · intro k l c d r r' hk hl hc hd hcs hds
          exact h.inj hc hd (hcs.imp_right (Or.imp_right fun hlt => by omega))
            (hds.imp_right (Or.imp_right fun hlt => by omega))

theorem assignStep_zero {s t : List Entry × MacaddrList} (h : Ready env old bss s)
    (hstep : assignStep env s 0 = some t) : AssignInv env old bss 1 t := by
  -- what is kept, and what is static behind the first place
  have hplaced : ∀ {k : ℕ} {b q}, s.1[k]? = some (b, q) → (q.isSome ∨ (k ≠ 0 ∧ IsStatic b)) →
      s.2.get? (addr b) = some (k : ℤ) ∧ ∃ a, addr b = some a ∧ a ∉ env.mld := by
    intro k b q hb hs
    cases q with
    | some p => exact h.kept hb
    | none =>
      rcases hs with hs | ⟨hk, hs⟩
      · cases hs
      · obtain ⟨c, hfine⟩ := h.entry hb
        exact ⟨h.static hk hb hs, hfine.static hs⟩
  have hbehind : ∀ {k : ℕ} {b q}, k ≠ 0 → Settled 1 k b q → q.isSome ∨ (k ≠ 0 ∧ IsStatic b) := by
    rintro k b q hk (hq | hs | hlt)
    · exact Or.inl hq
    · exact Or.inr ⟨hk, hs⟩
    · omega
  -- the addresses are settled if that of the first place is
  have hready : (∀ {b q}, s.1[0]? = some (b, q) → s.2.get? (addr b) = some 0 ∧
      ∃ a, addr b = some a ∧ a ∉ env.mld) → AssignInv env old bss 1 s := by
    intro hzero
    have hall : ∀ {k : ℕ} {b q}, s.1[k]? = some (b, q) → Settled 1 k b q →
        s.2.get? (addr b) = some (k : ℤ) ∧ ∃ a, addr b = some a ∧ a ∉ env.mld := by
      intro k b q hb hs
      by_cases hk : k = 0
      · subst hk
        exact hzero hb
      · exact hplaced hb (hbehind hk hs)
    refine ⟨h.length, h.entry, fun hb hs => ⟨by rw [(hall hb hs).1]; rfl, (hall hb hs).2⟩, ?_,
      fun hk hb hs => h.static (by omega) hb hs, h.mld, fun _ => h.unplaced⟩
    intro j k b c q r hb hc hbs hcs heq
    have hj := (hall hb hbs).1
    rw [heq, (hall hc hcs).1] at hj
    have := Option.some.inj hj
    omega
  rw [assignStep] at hstep
  cases hentry : s.1[0]? with
  | none =>
    rw [hentry] at hstep
    cases hstep
    exact hready fun hb => by rw [hentry] at hb; cases hb
  | some e =>
    obtain ⟨b, q⟩ := e
    rw [hentry] at hstep
    cases q with
    | some p =>
      cases hstep
      refine hready fun hb => ?_
      rw [hentry] at hb
      cases hb
      exact h.kept hentry
    | none =>
      simp only at hstep
      by_cases hs : IsStatic b
      · obtain ⟨j, hget, hj⟩ := h.static_zero hentry hs
        have hpos : ¬(j : ℤ) < 0 := by omega
        have hresolve : resolve s.1.length (some (j : ℤ)) = some j := by
          rw [resolve, if_pos (by omega), Int.toNat_natCast]
        have hdefault : b.defaultMacaddr = false := hs
        rw [hget, Option.any_some, decide_eq_false hpos, if_neg Bool.false_ne_true] at hstep
        by_cases hjz : j = 0
        · rw [hjz, if_pos rfl] at hstep
          cases hstep
          refine hready fun hb => ?_
          rw [hentry] at hb
          cases hb
          obtain ⟨c, hfine⟩ := h.entry hentry
          exact ⟨by rw [hget, hjz]; rfl, hfine.static hs⟩
        · -- a kept BSS has the address of the first one: it is the one to move
          obtain hjz' | ⟨c, p, d, hc, hp, hd, hfixed⟩ := hj
          · exact absurd hjz' hjz
          have hne : ¬(some (j : ℤ) = some ((0 : ℕ) : ℤ)) := by
            rw [Option.some.injEq]
            omega
          rw [if_neg hne, hdefault, if_neg Bool.false_ne_true, hresolve] at hstep
          simp only [Option.bind_eq_bind, Option.bind_some, hc] at hstep
          obtain ⟨a, ha, hstep⟩ := Option.bind_eq_some_iff.mp hstep
          cases hstep
          -- each settled place but that one is listed with another place
          have hval : ∀ {k : ℕ} {b q}, k ≠ j → s.1[k]? = some (b, q) → Settled 1 k b q →
              (s.2.get? (addr b) = some ((if k = 0 then j else k : ℕ) : ℤ)) ∧
                ∃ a, addr b = some a ∧ a ∉ env.mld := by
            intro k b' q hk hb hsettled
            by_cases hkz : k = 0
            · subst hkz
              rw [hentry] at hb
              cases hb
              obtain ⟨c', hfine⟩ := h.entry hentry
              exact ⟨hget, hfine.static hs⟩
            · rw [if_neg hkz]
              exact hplaced hb (hbehind hkz hsettled)
          refine assignInv_set h.length h.entry hc (Or.inr rfl) ⟨by simpa using hp, ?_⟩ ?_ ?_
            (fun hk => h.static (by omega)) h.mld (fun _ => h.unplaced) id id Or.inl
            (env.unlisted ha)
          · intro d' hd'
            obtain rfl := Option.some.inj (hd.symm.trans hd')
            exact hfixed
          · intro k b' q hk hb hsettled
            obtain ⟨hv, hpresent⟩ := hval hk hb hsettled
            exact ⟨by rw [hv]; rfl, hpresent⟩
          · intro k l b' d' q r hk hl hb hd' hbs hds heq
            have hv := (hval hk hb hbs).1
            rw [heq, (hval hl hd' hds).1] at hv
            have := Option.some.inj hv
            split_ifs at this <;> omega
      · have hfree : ¬s.2.get? (addr b) = some ((0 : ℕ) : ℤ) := h.unplaced hentry hs
        rw [if_neg hfree] at hstep
        have hdefault : b.defaultMacaddr = true := by
          rw [IsStatic, Bool.not_eq_false] at hs
          exact hs
        rw [hdefault, if_pos rfl] at hstep
        simp only [Option.bind_eq_bind, Option.bind_some, hentry] at hstep
        obtain ⟨a, ha, hstep⟩ := Option.bind_eq_some_iff.mp hstep
        cases hstep
        obtain ⟨hsub, hkeep, hnew⟩ := listed_new s.2 (addr b) 0
        refine assignInv_set h.length h.entry hentry (Or.inl le_rfl) ⟨by simp, ?_⟩ ?_ ?_
          (fun hk => h.static (by omega)) h.mld (fun _ => h.unplaced) hsub hkeep hnew
          (env.unlisted ha)
        · intro d hd hfix
          obtain ⟨d', hfine⟩ := h.entry hentry
          obtain rfl := Option.some.inj (hd.symm.trans hfine.config)
          exact hs (hfine.default.trans hfix.1)
        · intro k c r hk hc hsettled
          obtain ⟨hv, hpresent⟩ := hplaced hc (hbehind hk hsettled)
          exact ⟨by rw [hv]; rfl, hpresent⟩
        · intro k l c d r r' hk hl hc hd hcs hds heq
          have hv := (hplaced hc (hbehind hk hcs)).1
          rw [heq, (hplaced hd (hbehind hl hds)).1] at hv
          have := Option.some.inj hv
          omega

/-- The addresses behind the loop of step 6. -/
theorem assign_distinct {s t : List Entry × MacaddrList} (h : Ready env old bss s)
    (hrun : assign env s.1 s.2 = some t) (hne : bss ≠ []) :
    AssignInv env old bss bss.length t := by
  have hpos : 0 < bss.length := List.length_pos_of_ne_nil hne
  rw [assign, h.length] at hrun
  have hinv := foldlM_range_inv (fun i s => (i = 0 → Ready env old bss s) ∧
      (0 < i → AssignInv env old bss i s))
    ⟨fun _ => h, fun hlt => absurd hlt (lt_irrefl 0)⟩ (fun i _ s t hinv hstep => ?_) hrun
  · exact hinv.2 hpos
  · refine ⟨fun hi => absurd hi (Nat.succ_ne_zero i), fun _ => ?_⟩
    cases i with
    | zero => exact assignStep_zero (hinv.1 rfl) hstep
    | succ i => exact assignStep_inv (hinv.2 (Nat.succ_pos i)) hstep

end Assign

section Functions

variable {env : ReloadEnv} {old bss : List Bss}

theorem exists_entry {entries : List Entry} {i : ℕ} {b : Bss}
    (h : (entries.map (·.1))[i]? = some b) : ∃ q, entries[i]? = some (b, q) := by
  rw [List.getElem?_map, Option.map_eq_some_iff] at h
  obtain ⟨⟨b', q⟩, he, rfl⟩ := h
  exact ⟨q, he⟩

theorem addr_of_sameBss (h : sameBss old bss = true) {i : ℕ} {b c : Bss} (hb : old[i]? = some b)
    (hc : bss[i]? = some c) : addr b = addr c := by
  simp only [sameBss, Bool.and_eq_true, List.all_eq_true] at h
  have hmem : (b, c) ∈ old.zip bss :=
    List.mem_of_getElem? (List.getElem?_zip_eq_some.mpr ⟨hb, hc⟩)
  have hequal := h.2 _ hmem
  simp only [Bss.isEqual, Bool.and_eq_true, and_assoc] at hequal
  exact (Property.isEqual_iff.mp hequal.2.2.2.1).1

/-- A configuration with the running BSSes has their addresses. -/
theorem reloadSound_of_sameBss (hrunning : Distinct env.mld old fun _ => True)
    (h : sameBss old bss = true) :
    ReloadSound env old bss (bss.zipIdx.map fun e => (e.1, some e.2)) := by
  have hentry : ∀ {i : ℕ} {b q}, (bss.zipIdx.map fun e => (e.1, some e.2))[i]? = some (b, q) →
      bss[i]? = some b ∧ q = some i ∧ ∃ f, old[i]? = some f ∧ addr f = addr b := by
    intro i b q hb
    rw [List.getElem?_map, List.getElem?_zipIdx] at hb
    cases hc : bss[i]? with
    | none =>
      rw [hc] at hb
      cases hb
    | some c =>
      rw [hc] at hb
      cases hb
      have hlt : i < old.length := by
        rw [length_eq_of_sameBss h]
        exact (List.getElem?_eq_some_iff.mp hc).1
      have hf := List.getElem?_eq_getElem hlt
      exact ⟨rfl, by simp, old[i], hf, addr_of_sameBss h hf hc⟩
  refine ⟨by simp, ⟨fun {i b} hb _ => ?_, fun {i j b c} hb hc _ _ heq => ?_⟩,
    fun {i c e} hc _ he => ?_, fun {i b f} hb hf => ?_⟩
  · obtain ⟨q, he⟩ := exists_entry hb
    obtain ⟨-, -, f, hf, haddr⟩ := hentry he
    rw [← haddr]
    exact hrunning.present hf trivial
  · obtain ⟨q, he⟩ := exists_entry hb
    obtain ⟨r, he'⟩ := exists_entry hc
    obtain ⟨-, -, f, hf, haddr⟩ := hentry he
    obtain ⟨-, -, f', hf', haddr'⟩ := hentry he'
    exact hrunning.inj hf hf' trivial trivial (by rw [haddr, haddr', heq])
  · obtain ⟨hb, -⟩ := hentry he
    rw [Option.some.inj (hc.symm.trans hb)]
  · obtain ⟨-, hq, f', hf', haddr⟩ := hentry hb
    obtain rfl : 0 = i := Option.some.inj hq
    rw [Option.some.inj (hf.symm.trans hf'), haddr]

theorem reloadSound_of_assignInv {s : List Entry × MacaddrList}
    (h : AssignInv env old bss bss.length s) : ReloadSound env old bss s.1 := by
  have hsettled : ∀ {i : ℕ} {b q}, s.1[i]? = some (b, q) → Settled bss.length i b q := by
    intro i b q hb
    have hlt := (List.getElem?_eq_some_iff.mp hb).1
    exact Or.inr (Or.inr (h.length ▸ hlt))
  refine ⟨h.length, ⟨fun {i b} hb _ => ?_, fun {i j b c} hb hc _ _ heq => ?_⟩,
    fun {i c e} hc hfix he => ?_, fun {i b f} hb hf => ?_⟩
  · obtain ⟨q, he⟩ := exists_entry hb
    exact (h.settled he (hsettled he)).2
  · obtain ⟨q, he⟩ := exists_entry hb
    obtain ⟨r, he'⟩ := exists_entry hc
    exact h.inj he he' (hsettled he) (hsettled he') heq
  · obtain ⟨c', hfine⟩ := h.entry he
    obtain rfl := Option.some.inj (hc.symm.trans hfine.config)
    exact hfine.fixed hfix
  · obtain ⟨c', hfine⟩ := h.entry hb
    exact hfine.first rfl hf

theorem ready_keep (hstatic : Distinct env.mld bss IsStatic)
    (hrunning : Distinct env.mld old fun _ => True) (hcompat : Compatible env old bss)
    {mbssid : Bool} {s : List Entry × MacaddrList} (h : keep env old mbssid bss = some s) :
    Ready env old bss s ∧ bss ≠ [] := by
  obtain ⟨s', hloop, h⟩ := Option.bind_eq_some_iff.mp h
  have hinv := keepLoop_kept hstatic hrunning hcompat hloop
  split_ifs at h with hmbssid hall
  · -- nothing is kept: the running first BSS is
    have hnone : ∀ e ∈ s'.1, e.2 = none := by
      intro e he
      exact Option.isNone_iff_eq_none.mp (List.all_eq_true.mp hall e he)
    refine ⟨ready_keepFirst hstatic hrunning hcompat hinv hnone h, ?_⟩
    rintro rfl
    obtain ⟨entries, list⟩ := s'
    obtain rfl : entries = [] := List.eq_nil_of_length_eq_zero hinv.length
    cases h
  · obtain rfl := Option.some.inj h
    refine ⟨ready_of_keepInv hstatic hrunning hcompat hinv, ?_⟩
    rintro rfl
    have hnil : s'.1 = [] := List.eq_nil_of_length_eq_zero hinv.length
    rw [hnil] at hall
    exact hall rfl

/-- A reload that returns true assigns different addresses. -/
theorem reload_sound (hstatic : Distinct env.mld bss IsStatic)
    (hrunning : Distinct env.mld old fun _ => True) (hcompat : Compatible env old bss)
    {mbssid : Bool} {entries : List Entry}
    (h : ifaceReloadConfig env old mbssid bss = some entries) :
    ReloadSound env old bss entries := by
  rw [ifaceReloadConfig] at h
  by_cases hsame : sameBss old bss = true
  · rw [if_pos hsame] at h
    cases h
    exact reloadSound_of_sameBss hrunning hsame
  rw [if_neg hsame] at h
  obtain ⟨s, hkeep, h⟩ := Option.bind_eq_some_iff.mp h
  obtain ⟨hready, hne⟩ := ready_keep hstatic hrunning hcompat hkeep
  rw [assignAll] at h
  by_cases hprepare : env.prepare = false
  · rw [if_pos hprepare] at h
    cases h
  rw [if_neg hprepare] at h
  obtain ⟨t, hassign, h⟩ := Option.bind_eq_some_iff.mp h
  by_cases hfinish : env.finish = false
  · rw [if_pos hfinish] at h
    cases h
  rw [if_neg hfinish] at h
  cases h
  exact reloadSound_of_assignInv (assign_distinct (ready_init hready) hassign hne)

theorem restartLoop_getElem? (env : ReloadEnv) {i : ℕ} {c : Bss} (list : MacaddrList)
    (hc : bss[i]? = some c) (hs : IsStatic c) : (restartLoop env bss list)[i]? = some c := by
  induction bss generalizing i list with
  | nil => cases hc
  | cons b rest ih =>
    rw [restartLoop]
    cases i with
    | zero =>
      cases hc
      rw [if_neg (by rw [hs]; exact Bool.false_ne_true)]
      rfl
    | succ i =>
      split_ifs
      · exact ih _ hc
      · exact ih _ hc

/-- The loop of a restart leaves static addresses, and the others are not listed before. -/
theorem restartLoop_distinct (htotal : ∀ list, (env.macaddrNext list).isSome)
    (hpair : bss.Pairwise fun b c => IsStatic b → IsStatic c → addr b ≠ addr c)
    {list : MacaddrList} (hmld : ∀ a ∈ env.mld, (list.get? (some a)).isSome)
    (hstatic : ∀ c ∈ bss, IsStatic c → (list.get? (addr c)).isSome ∧
      ∃ a, addr c = some a ∧ a ∉ env.mld) :
    (restartLoop env bss list).length = bss.length ∧
    ((restartLoop env bss list).map addr).Nodup ∧
      ∀ x ∈ (restartLoop env bss list).map addr, (∃ a, x = some a ∧ a ∉ env.mld) ∧
        (list.get? x = none ∨ ∃ c ∈ bss, IsStatic c ∧ addr c = x) := by
  induction bss generalizing list with
  | nil => exact ⟨rfl, List.nodup_nil, by simp [restartLoop]⟩
  | cons b rest ih =>
    obtain ⟨hhead, hrest⟩ := List.pairwise_cons.mp hpair
    have hstatic' : ∀ c ∈ rest, IsStatic c → (list.get? (addr c)).isSome ∧
        ∃ a, addr c = some a ∧ a ∉ env.mld := fun c hc => hstatic c (List.mem_cons_of_mem _ hc)
    rw [restartLoop]
    cases hdefault : b.defaultMacaddr with
    | false =>
      rw [if_neg Bool.false_ne_true, List.map_cons, List.nodup_cons]
      obtain ⟨hlen, hnodup, hall⟩ := ih hrest hmld hstatic'
      obtain ⟨hsome, hpresent⟩ := hstatic b (List.mem_cons_self ..) hdefault
      refine ⟨by rw [List.length_cons, hlen, List.length_cons], ⟨fun hmem => ?_, hnodup⟩, ?_⟩
      · rcases (hall _ hmem).2 with hnone | ⟨c, hc, hs, heq⟩
        · rw [hnone] at hsome
          cases hsome
        · exact hhead c hc hdefault hs heq.symm
      · intro x hx
        rcases List.mem_cons.mp hx with rfl | hx
        · exact ⟨hpresent, Or.inr ⟨b, List.mem_cons_self .., hdefault, rfl⟩⟩
        · obtain ⟨hpres, hnone | ⟨c, hc, hcs⟩⟩ := hall x hx
          · exact ⟨hpres, Or.inl hnone⟩
          · exact ⟨hpres, Or.inr ⟨c, List.mem_cons_of_mem _ hc, hcs⟩⟩
    | true =>
      obtain ⟨a, ha⟩ := Option.isSome_iff_exists.mp (htotal list)
      have hfree := env.unlisted ha
      have hne : ∀ {x}, (list.get? x).isSome → x ≠ some a := by
        rintro x hx rfl
        rw [hfree] at hx
        cases hx
      have hset : ∀ {x}, (list.get? x).isSome → ((list.set (some a) (-1)).get? x).isSome := by
        intro x hx
        rw [Table.get?_set_ne (hne hx)]
        exact hx
      rw [if_pos rfl, ha]
      simp only [Option.elim_some]
      rw [List.map_cons, List.nodup_cons, addr_setBssid]
      obtain ⟨hlen, hnodup, hall⟩ := ih hrest (fun m hm => hset (hmld m hm))
        fun c hc hs => ⟨hset (hstatic' c hc hs).1, (hstatic' c hc hs).2⟩
      refine ⟨by rw [List.length_cons, hlen, List.length_cons], ⟨fun hmem => ?_, hnodup⟩, ?_⟩
      · rcases (hall _ hmem).2 with hnone | ⟨c, hc, hs, heq⟩
        · rw [Table.get?_set_self] at hnone
          cases hnone
        · exact hne (hstatic' c hc hs).1 heq
      · intro x hx
        rcases List.mem_cons.mp hx with rfl | hx
        · exact ⟨⟨a, rfl, fun hmem => hne (hmld a hmem) rfl⟩, Or.inl hfree⟩
        · obtain ⟨hpres, hnone | ⟨c, hc, hcs⟩⟩ := hall x hx
          · rw [Table.get?_set] at hnone
            split_ifs at hnone
            exact ⟨hpres, Or.inl hnone⟩
          · exact ⟨hpres, Or.inr ⟨c, List.mem_cons_of_mem _ hc, hcs⟩⟩

theorem restart_sound (hstatic : Distinct env.mld bss IsStatic)
    (htotal : ∀ list, (env.macaddrNext list).isSome) :
    RestartSound env bss (ifaceRestart env bss) := by
  have hpair : bss.Pairwise fun b c => IsStatic b → IsStatic c → addr b ≠ addr c := by
    rw [List.pairwise_iff_getElem]
    intro i j hi hj hlt hb hc heq
    have := hstatic.inj (List.getElem?_eq_getElem hi) (List.getElem?_eq_getElem hj) hb hc heq
    omega
  have hmld : ∀ a ∈ env.mld,
      ((ifaceMacaddrInit env (ifaceConfigMacaddrList env.mld bss)).get? (some a)).isSome := by
    intro a ha
    have hinit : KeepInv env [] bss 0 _ := keepInv_zero hstatic
    rw [get?_ifaceMacaddrInit (hinit.mld a ha)]
    rfl
  have hlisted : ∀ c ∈ bss, IsStatic c →
      ((ifaceMacaddrInit env (ifaceConfigMacaddrList env.mld bss)).get? (addr c)).isSome ∧
        ∃ a, addr c = some a ∧ a ∉ env.mld := by
    intro c hc hs
    obtain ⟨k, hk⟩ := List.mem_iff_getElem?.mp hc
    refine ⟨?_, hstatic.present hk hs⟩
    rcases get?_ifaceConfigMacaddrList env.mld bss (addr c) with ⟨j, -, hget⟩ | ⟨hnone, -⟩
    · rw [get?_ifaceMacaddrInit hget]
      rfl
    · exact absurd ⟨c, hk, hs, rfl⟩ (hnone k)
  obtain ⟨hlen, hnodup, hall⟩ := restartLoop_distinct htotal hpair hmld hlisted
  refine ⟨hlen, ⟨fun {i b} hb _ => ?_, fun {i j b c} hb hc _ _ heq => ?_⟩,
    fun {i b c} hc hs hb => ?_⟩
  · exact (hall _ (List.mem_map_of_mem (List.mem_of_getElem? hb))).1
  · have hlt := (List.getElem?_eq_some_iff.mp hb).1
    apply (List.getElem?_inj (by rw [List.length_map]; exact hlt) hnodup).mp
    rw [List.getElem?_map, List.getElem?_map]
    change ((ifaceRestart env bss)[i]?).map addr = ((ifaceRestart env bss)[j]?).map addr
    rw [hb, hc]
    exact congrArg some heq
  · have hget := restartLoop_getElem? env
      (ifaceMacaddrInit env (ifaceConfigMacaddrList env.mld bss)) hc hs
    exact Option.some.inj (hb.symm.trans hget)

end Functions

/-- An address that is not in a table: one of four, or else one that is too long. -/
def sampleNext (list : MacaddrList) : Option Bytes :=
  some ((["02:00:00:00:00:01", "02:00:00:00:00:02", "02:00:00:00:00:03",
    "02:00:00:00:00:04"].map ascii).find? (fun a => (list.get? (some a)).isNone) |>.getD
      (List.replicate ((list.keys.map fun x => (x.getD []).length).sum + 1) 0))

theorem sampleNext_unlisted {list : MacaddrList} {a : Bytes} (h : sampleNext list = some a) :
    list.get? (some a) = none := by
  obtain rfl := Option.some.inj h
  cases hfind : (["02:00:00:00:00:01", "02:00:00:00:00:02", "02:00:00:00:00:03",
      "02:00:00:00:00:04"].map ascii).find? (fun a => (list.get? (some a)).isNone) with
  | some a =>
    rw [Option.getD_some]
    exact Option.isNone_iff_eq_none.mp
      (List.find?_some (p := fun a : Bytes => (list.get? (some a)).isNone) hfind)
  | none =>
    rw [Option.getD_none, Table.get?_eq_none]
    intro hmem
    have hle := List.le_sum_of_mem
      (List.mem_map_of_mem (f := fun x : Addr => (x.getD []).length) hmem)
    simp only [Option.getD_some, List.length_replicate] at hle
    omega

/-- A reload in which everything goes well. -/
def sampleEnv : ReloadEnv where
  isFullmac := false
  hash := List.flatten
  forceReload _ := false
  hasBss _ := true
  mld := []
  wdevs := []
  prepare := true
  finish := true
  macaddrNext := sampleNext
  unlisted := sampleNext_unlisted

/-- A BSS with some settings and an address. -/
def sampleBss (ifname data bssid : String) (defaultMacaddr : Bool) : Bss where
  ifname := some (ascii ifname)
  data := [ascii data]
  hash _ := none
  bssid := some (some (ascii bssid))
  nasid := none
  mldAp := none
  mldBssid := none
  defaultMacaddr := defaultMacaddr
  randomMacaddr := false

/-- Two running BSSes. -/
def runningBss : List Bss :=
  [sampleBss "wlan0" "a" "02:00:00:00:00:10" false, sampleBss "wlan1" "b" "02:00:00:00:00:11" true]

/-- The two with a third one. -/
def widerBss : List Bss := runningBss ++ [sampleBss "wlan2" "c" "02:00:00:00:00:12" true]

/-- The two, with the address of the second one for the first one. -/
def takenBss : List Bss :=
  [sampleBss "wlan0" "a" "02:00:00:00:00:11" false, sampleBss "wlan1" "b" "02:00:00:00:00:12" true]

/-- A BSS of other settings, and one with the address of the running first one. -/
def movedBss : List Bss :=
  [sampleBss "wlan0" "c" "02:00:00:00:00:12" true, sampleBss "wlan1" "d" "02:00:00:00:00:10" false]

theorem distinct_of_pairwise {mld : List Bytes} {bss : List Bss} {P : Bss → Prop}
    (hpresent : ∀ b ∈ bss, P b → ∃ a, addr b = some a ∧ a ∉ mld)
    (hpair : bss.Pairwise fun b c => P b → P c → addr b ≠ addr c) : Distinct mld bss P where
  present hb hp := hpresent _ (List.mem_of_getElem? hb) hp
  inj {i j b c} hb hc hbp hcp heq := by
    obtain ⟨hi, rfl⟩ := List.getElem?_eq_some_iff.mp hb
    obtain ⟨hj, rfl⟩ := List.getElem?_eq_some_iff.mp hc
    rcases lt_trichotomy i j with hlt | rfl | hlt
    · exact absurd heq (List.pairwise_iff_getElem.mp hpair i j hi hj hlt hbp hcp)
    · rfl
    · exact absurd heq.symm (List.pairwise_iff_getElem.mp hpair j i hj hi hlt hcp hbp)

theorem distinct_running : Distinct sampleEnv.mld runningBss fun _ => True := by
  apply distinct_of_pairwise
  · intro b hb _
    rcases List.mem_pair.mp hb with rfl | rfl
    · exact ⟨_, rfl, List.not_mem_nil⟩
    · exact ⟨_, rfl, List.not_mem_nil⟩
  · rw [runningBss, List.pairwise_pair]
    exact fun _ _ => by decide +kernel

theorem distinct_static_wider : Distinct sampleEnv.mld widerBss IsStatic := by
  apply distinct_of_pairwise
  · intro b hb _
    rcases List.mem_append.mp hb with hb | hb
    · obtain ⟨i, hi⟩ := List.mem_iff_getElem?.mp hb
      exact distinct_running.present hi trivial
    · rw [List.mem_singleton.mp hb]
      exact ⟨_, rfl, List.not_mem_nil⟩
  · simp [widerBss, runningBss, IsStatic, sampleBss]

theorem compatible_wider : Compatible sampleEnv runningBss widerBss := by
  have hmatching : matching sampleEnv runningBss widerBss = [some 0, some 1, none] := by
    decide +kernel
  refine ⟨fun {i p c prev} hm hc hprev hfix => ?_, fun {i c prev} hm hc hprev _ => ?_,
    fun {c prev} hnone _ _ _ {k c'} _ _ => ?_⟩
  · rw [hmatching] at hm
    match i, hm with
    | 0, hm =>
      cases hm
      cases hc
      exact absurd ⟨rfl, rfl⟩ hfix
    | 1, hm =>
      cases hm
      cases hc
      cases hprev
      refine ⟨⟨rfl, rfl⟩, fun {k c'} hc' hs heq => ?_⟩
      match k, hc' with
      | 0, hc' =>
        cases hc'
        exact absurd heq (by decide +kernel)
      | 1, _ => exact Or.inl rfl
      | 2, hc' =>
        cases hc'
        cases hs
    | 2, hm => cases hm
    | i + 3, hm => cases hm
  · rw [hmatching] at hm
    match i, hm with
    | 0, _ =>
      cases hc
      cases hprev
      rfl
    | 1, hm => cases hm
    | 2, hm => cases hm
    | i + 3, hm => cases hm
  · rw [hmatching] at hnone
    cases hnone (some 0) (List.mem_cons_self ..)

end NeonWrt.Hostapd.Bssid
