import NeonWrt.Hostapd.Config
import NeonWrt.Wireless.Macaddr
import NeonWrt.Lib.Run

/-!
# The addresses of the BSSes of an interface

Each BSS of a configuration has an address of its own: one that is configured, or one that is handed
out when the interface is restarted. A reload keeps BSSes that run with the same settings, and with
them their addresses where it can, and hands out addresses to the others. A table from addresses to
the places of BSSes says which are taken; the addresses of MLD interfaces are in it with -1.

The table is asked for a place as for a truth value, so the first place counts as free; a kept BSS
whose address is taken is left with the one of the new file; and the test for the first BSS never
holds. So the addresses are as wanted only where no such case comes up.
-/

namespace NeonWrt.Hostapd.Bssid

open NeonWrt.Lib Wireless

/-- An address as a key of the table; a missing one is a key of its own. -/
abbrev Addr := Option Bytes

/-- A table from addresses to places. -/
abbrev MacaddrList := Table Addr ℤ

/-- A BSS with the place in the old configuration of the BSS that is kept for it. -/
abbrev Entry := Bss × Option ℕ

/-- `bss.bssid = bssid` -/
def setBssid (bssid : Addr) (b : Bss) : Bss := { b with bssid := some bssid }

/-- `bss.bssid` -/
def addr (b : Bss) : Addr := b.bssid.value

@[simp] theorem addr_setBssid (a : Addr) (b : Bss) : addr (setBssid a b) = a := rfl

@[simp] theorem defaultMacaddr_setBssid (a : Addr) (b : Bss) :
    (setBssid a b).defaultMacaddr = b.defaultMacaddr := rfl

@[simp] theorem randomMacaddr_setBssid (a : Addr) (b : Bss) :
    (setBssid a b).randomMacaddr = b.randomMacaddr := rfl

/-- What a reload finds: the kind of the phy, `bss_config_hash`, which old BSSes are to be reloaded
and which `get_config_bss` finds, the addresses of the MLD interfaces and of all interfaces, whether
the changes to the running interface succeed, before and after addresses are handed out, and
`macaddr_next`. -/
structure ReloadEnv where
  isFullmac : Bool
  hash : List Bytes → Bytes
  forceReload : ℕ → Bool
  hasBss : ℕ → Bool
  mld : List Bytes
  wdevs : List Bytes
  prepare : Bool
  finish : Bool
  macaddrNext : MacaddrList → Option Bytes
  /-- an address that is handed out is not listed yet -/
  unlisted : ∀ {list a}, macaddrNext list = some a → list.get? (some a) = none

/-- `iface_config_macaddr_list` -/
def ifaceConfigMacaddrList (mld : List Bytes) (bss : List Bss) : MacaddrList :=
  bss.zipIdx.foldl
    (fun list e => if e.1.defaultMacaddr then list else list.set (addr e.1) e.2)
    (mld.foldl (fun list a => list.set (some a) (-1)) ∅)

section Reload

variable (env : ReloadEnv) (old : List Bss)

/-- `iface_macaddr_init` -/
def ifaceMacaddrInit (list : MacaddrList) : MacaddrList :=
  macaddrInit (.object list) (env.wdevs.map some)

/-- `bss_find_existing`: the place, and the hashes without that of its BSS. -/
def bssFindExisting (hash : Bytes) (prevHash : List (Option Bytes)) :
    Option ℕ × List (Option Bytes) :=
  match prevHash.findIdx? (· = some hash) with
  | some i => (some i, prevHash.set i none)
  | none => (none, prevHash)

/-- The places that the loop of step 1 finds, from a place on. -/
def matchLoop : ℕ → List Bss → List (Option Bytes) → List (Option ℕ)
  | _, [], _ => []
  | i, cur :: rest, prevHash =>
    let (prev, prevHash) :=
      if i = 0 ∧ env.isFullmac then (some 0, prevHash.set 0 none)
      else bssFindExisting (env.hash cur.data) prevHash
    prev.filter (fun p => !env.forceReload p) :: matchLoop (i + 1) rest prevHash

/-- The old place of each BSS that is kept. -/
def matching (bss : List Bss) : List (Option ℕ) :=
  matchLoop env 0 bss (old.map fun b => some (env.hash b.data))

/-- The test whether a BSS keeps its address. -/
def keepsAddr (list : MacaddrList) (cur prev : Bss) : Bool :=
  (cur.defaultMacaddr || cur.randomMacaddr) && cur.randomMacaddr == prev.randomMacaddr &&
    cur.defaultMacaddr == prev.defaultMacaddr && (list.get? (addr prev)).getD 0 == 0

/-- A pass of the loop of step 1, at a place. -/
def keepStep (s : List Entry × MacaddrList) (i : ℕ) : Option (List Entry × MacaddrList) :=
  match s.1[i]? with
  | some (cur, some p) =>
    match old[p]? with
    | none => none
    | some prev =>
      if env.hasBss p = false then none
      else if keepsAddr s.2 cur prev then
        some (s.1.set i (setBssid (addr prev) cur, some p), s.2.set (addr prev) i)
      else some s
  | _ => some s

/-- The loop of step 1. -/
def keepLoop (bss : List Bss) (list : MacaddrList) : Option (List Entry × MacaddrList) :=
  (List.range bss.length).foldlM (keepStep env old) (bss.zip (matching env old bss), list)

/-- Step 2: the first BSS is kept for the first one. -/
def keepFirst (s : List Entry × MacaddrList) : Option (List Entry × MacaddrList) :=
  match s.1, old with
  | (b, _) :: rest, first :: _ =>
    if addr b ≠ addr first then
      if b.defaultMacaddr then
        some ((setBssid (addr first) b, some 0) :: rest, s.2.set (addr first) 0)
      else none
    else some ((b, some 0) :: rest, s.2.set (addr b) 0)
  | _, _ => none

/-- The place of `config.bss[mac_idx]`, which counts from the end if it is negative. -/
def resolve (n : ℕ) : Option ℤ → Option ℕ
  | none => none
  | some k => if 0 ≤ k then some k.toNat else if 0 ≤ n + k then some (n + k).toNat else none

/-- A pass of the loop of step 6, at a place. -/
def assignStep (s : List Entry × MacaddrList) (i : ℕ) : Option (List Entry × MacaddrList) :=
  match s.1[i]? with
  | some (bsscfg, none) =>
    let macIdx := s.2.get? (addr bsscfg)
    let list := if macIdx.any (· < 0) then s.2.set (addr bsscfg) i else s.2
    if macIdx = some (i : ℤ) then some (s.1, list)
    else do
      let target ← if bsscfg.defaultMacaddr then some i else resolve s.1.length macIdx
      let changed ← s.1[target]?
      let a ← env.macaddrNext list
      return (s.1.set target (setBssid (some a) changed.1, changed.2), list.set (some a) i)
  | _ => some s

/-- The loop of step 6. -/
def assign (entries : List Entry) (list : MacaddrList) : Option (List Entry × MacaddrList) :=
  (List.range entries.length).foldlM (assignStep env) (entries, list)

/-- Steps 1 and 2. -/
def keep (mbssid : Bool) (bss : List Bss) : Option (List Entry × MacaddrList) :=
  (keepLoop env old bss (ifaceConfigMacaddrList env.mld bss)).bind fun s =>
    if mbssid ∧ s.1.head?.all (·.2.isNone) then none
    else if s.1.all (·.2.isNone) then keepFirst old s
    else some s

/-- Step 6, with the changes to the running interface before and after it. -/
def assignAll (s : List Entry × MacaddrList) : Option (List Entry) :=
  if env.prepare = false then none
  else (assign env s.1 (ifaceMacaddrInit env s.2)).bind fun s =>
    if env.finish = false then none else some s.1

/-- `iface_reload_config`, from the comparison of the BSSes on: the entries if it returns true. -/
def ifaceReloadConfig (mbssid : Bool) (bss : List Bss) : Option (List Entry) :=
  if sameBss old bss then some (bss.zipIdx.map fun e => (e.1, some e.2))
  else (keep env old mbssid bss).bind (assignAll env)

/-- The addresses that `iface_restart` assigns. -/
def restartLoop : List Bss → MacaddrList → List Bss
  | [], _ => []
  | b :: rest, list =>
    if b.defaultMacaddr then
      let a := env.macaddrNext list
      setBssid a b :: restartLoop rest (a.elim list fun a => list.set (some a) (-1))
    else b :: restartLoop rest list

/-- The BSSes of `iface_restart`. -/
def ifaceRestart (bss : List Bss) : List Bss :=
  restartLoop env bss (ifaceMacaddrInit env (ifaceConfigMacaddrList env.mld bss))

end Reload

/-- The addresses of the BSSes of a kind are there, are not those of MLD interfaces, and differ. -/
structure Distinct (mld : List Bytes) (bss : List Bss) (P : Bss → Prop) : Prop where
  present : ∀ {i : ℕ} {b}, bss[i]? = some b → P b → ∃ a, addr b = some a ∧ a ∉ mld
  inj : ∀ {i j : ℕ} {b c}, bss[i]? = some b → bss[j]? = some c → P b → P c → addr b = addr c → i = j

/-- A BSS without `default_macaddr`. -/
def IsStatic (b : Bss) : Prop := b.defaultMacaddr = false

/-- A BSS whose address is neither handed out nor chosen at random. -/
def Fixed (b : Bss) : Prop := b.defaultMacaddr = false ∧ b.randomMacaddr = false

instance (b : Bss) : Decidable (Fixed b) := inferInstanceAs (Decidable (_ ∧ _))

/-- What a reload that returns true makes of the addresses. -/
structure ReloadSound (env : ReloadEnv) (old bss : List Bss) (entries : List Entry) : Prop where
  length : entries.length = bss.length
  distinct : Distinct env.mld (entries.map (·.1)) fun _ => True
  fixed : ∀ {i : ℕ} {c e}, bss[i]? = some c → Fixed c → entries[i]? = some e → addr e.1 = addr c
  first : ∀ {i : ℕ} {b f}, entries[i]? = some (b, some 0) → old[0]? = some f → addr b = addr f

/-- What a restart makes of the addresses. -/
structure RestartSound (env : ReloadEnv) (bss assigned : List Bss) : Prop where
  length : assigned.length = bss.length
  distinct : Distinct env.mld assigned fun _ => True
  static : ∀ {i : ℕ} {b c}, bss[i]? = some c → IsStatic c → assigned[i]? = some b → b = c

/-- The kept BSSes can keep their addresses: one with an address that was handed out or random has
the same flags as before, and its address is that of no other static BSS (unless it is the new first
one, which the loop of step 6 looks after); the address of the running first BSS stays. -/
structure Compatible (env : ReloadEnv) (old bss : List Bss) : Prop where
  kept : ∀ {i p : ℕ} {c prev}, (matching env old bss)[i]? = some (some p) → bss[i]? = some c →
    old[p]? = some prev → ¬Fixed c →
    (c.randomMacaddr = prev.randomMacaddr ∧ c.defaultMacaddr = prev.defaultMacaddr) ∧
      ∀ {k : ℕ} {c'}, bss[k]? = some c' → IsStatic c' → addr c' = addr prev →
        k = i ∨ (k = 0 ∧ p ≠ 0 ∧ (matching env old bss)[0]? = some none)
  first : ∀ {i : ℕ} {c prev}, (matching env old bss)[i]? = some (some 0) → bss[i]? = some c →
    old[0]? = some prev → Fixed c → addr c = addr prev
  unmatched : ∀ {c prev}, (∀ q ∈ matching env old bss, q = none) → bss[0]? = some c →
    ¬IsStatic c → old[0]? = some prev → ∀ {k : ℕ} {c'}, bss[k]? = some c' → IsStatic c' →
      addr c' ≠ addr prev

section Matching

variable {env : ReloadEnv} {old bss : List Bss}

theorem bssFindExisting_spec {hash : Bytes} {prevHash rest : List (Option Bytes)} {q : Option ℕ}
    (h : bssFindExisting hash prevHash = (q, rest)) :
    (∀ p, q = some p → rest = prevHash.set p none ∧ ∃ v, prevHash[p]? = some (some v)) ∧
      (q = none → rest = prevHash) := by
  rw [bssFindExisting] at h
  cases hfind : prevHash.findIdx? (· = some hash) with
  | none =>
    rw [hfind] at h
    cases h
    exact ⟨fun p hp => (by cases hp), fun _ => rfl⟩
  | some i =>
    rw [hfind] at h
    cases h
    obtain ⟨hlt, hval, -⟩ := List.findIdx?_eq_some_iff_getElem.mp hfind
    refine ⟨fun p hp => ?_, fun hp => (by cases hp)⟩
    cases hp
    refine ⟨rfl, hash, ?_⟩
    rw [List.getElem?_eq_getElem hlt]
    exact congrArg some (by simpa using hval)

theorem matchLoop_length (env : ReloadEnv) (i : ℕ) (bss : List Bss)
    (prevHash : List (Option Bytes)) : (matchLoop env i bss prevHash).length = bss.length := by
  induction bss generalizing i prevHash with
  | nil => rfl
  | cons b bss ih => simp only [matchLoop, List.length_cons, ih]

@[simp] theorem matching_length (env : ReloadEnv) (old bss : List Bss) :
    (matching env old bss).length = bss.length := matchLoop_length _ _ _ _

theorem ne_of_set_none {l : List (Option Bytes)} {p q : ℕ} {v : Bytes}
    (h : (l.set p none)[q]? = some (some v)) : q ≠ p ∧ l[q]? = some (some v) := by
  by_cases hpq : p = q
  · subst hpq
    rw [List.getElem?_set_self'] at h
    cases hl : l[p]? with
    | none => simp [hl] at h
    | some w => simp [hl] at h
  · rw [List.getElem?_set_ne hpq] at h
    exact ⟨Ne.symm hpq, h⟩

/-- Behind the first place, the loop finds only places whose hash is still there. -/
theorem mem_matchLoop {i p : ℕ} {prevHash : List (Option Bytes)} (hi : 0 < i)
    (h : some p ∈ matchLoop env i bss prevHash) : ∃ v, prevHash[p]? = some (some v) := by
  induction bss generalizing i prevHash with
  | nil => cases h
  | cons b bss ih =>
    rw [matchLoop, if_neg (by omega)] at h
    cases hfind : bssFindExisting (env.hash b.data) prevHash with
    | mk q rest =>
      obtain ⟨hsome, hnone⟩ := bssFindExisting_spec hfind
      rw [hfind] at h
      rcases List.mem_cons.mp h with hq | hmem
      · obtain ⟨hq, -⟩ := Option.filter_eq_some_iff.mp hq.symm
        exact (hsome p hq).2
      · obtain ⟨v, hv⟩ := ih (Nat.succ_pos i) hmem
        cases q with
        | none =>
          rw [hnone rfl] at hv
          exact ⟨v, hv⟩
        | some p' =>
          rw [(hsome p' rfl).1] at hv
          exact ⟨v, (ne_of_set_none hv).2⟩

theorem matchLoop_inj {i : ℕ} {prevHash : List (Option Bytes)} {j k p : ℕ}
    (hj : (matchLoop env i bss prevHash)[j]? = some (some p))
    (hk : (matchLoop env i bss prevHash)[k]? = some (some p)) : j = k := by
  induction bss generalizing i prevHash j k with
  | nil => cases hj
  | cons b bss ih =>
    cases hstep : (if i = 0 ∧ env.isFullmac then (some 0, prevHash.set 0 none)
      else bssFindExisting (env.hash b.data) prevHash) with
    | mk q rest =>
      have hrest : ∀ p', q = some p' → rest = prevHash.set p' none := by
        intro p' hp'
        split_ifs at hstep with hfull
        · cases hstep
          cases hp'
          rfl
        · exact ((bssFindExisting_spec hstep).1 p' hp').1
      have hhead : ∀ {j' : ℕ}, q = some p → (matchLoop env (i + 1) bss rest)[j']? ≠
          some (some p) := by
        intro j' hq hmem
        obtain ⟨v, hv⟩ := mem_matchLoop (Nat.succ_pos i) (List.mem_of_getElem? hmem)
        rw [hrest p hq] at hv
        exact (ne_of_set_none hv).1 rfl
      rw [matchLoop, hstep] at hj hk
      cases j with
      | zero =>
        have hq := (Option.filter_eq_some_iff.mp (Option.some.inj hj)).1
        cases k with
        | zero => rfl
        | succ k => exact absurd hk (hhead hq)
      | succ j =>
        cases k with
        | zero => exact absurd hj (hhead (Option.filter_eq_some_iff.mp (Option.some.inj hk)).1)
        | succ k => rw [ih hj hk]

/-- Different BSSes are kept for different places. -/
theorem matching_inj {j k p : ℕ} (hj : (matching env old bss)[j]? = some (some p))
    (hk : (matching env old bss)[k]? = some (some p)) : j = k := matchLoop_inj hj hk

end Matching

section Lists

/-- A loop that enters the places of some BSSes under their addresses. -/
theorem get?_foldl_places (l : List (Bss × ℕ)) (list : MacaddrList) (x : Addr) :
    (∃ e ∈ l, IsStatic e.1 ∧ addr e.1 = x ∧
      (l.foldl (fun list e => if e.1.defaultMacaddr then list else list.set (addr e.1) e.2)
        list).get? x = some (e.2 : ℤ)) ∨
    ((∀ e ∈ l, IsStatic e.1 → addr e.1 ≠ x) ∧
      (l.foldl (fun list e => if e.1.defaultMacaddr then list else list.set (addr e.1) e.2)
        list).get? x = list.get? x) := by
  induction l generalizing list with
  | nil => exact Or.inr ⟨by simp, rfl⟩
  | cons e l ih =>
    rw [List.foldl_cons]
    rcases ih (if e.1.defaultMacaddr then list else list.set (addr e.1) e.2) with
      ⟨e', he', hstatic, hx, hget⟩ | ⟨hnone, hget⟩
    · exact Or.inl ⟨e', List.mem_cons_of_mem _ he', hstatic, hx, hget⟩
    · cases hdefault : e.1.defaultMacaddr with
      | true =>
        rw [hdefault, if_pos rfl] at hget
        refine Or.inr ⟨?_, ?_⟩
        · intro e' he' hstatic
          rcases List.mem_cons.mp he' with rfl | he'
          · exact absurd (hdefault.symm.trans hstatic) (by decide)
          · exact hnone e' he' hstatic
        · rw [if_pos rfl]
          exact hget
      | false =>
        rw [hdefault, if_neg Bool.false_ne_true] at hget
        rw [if_neg Bool.false_ne_true]
        by_cases hx : addr e.1 = x
        · refine Or.inl ⟨e, List.mem_cons_self .., hdefault, hx, ?_⟩
          rw [hget, hx, Table.get?_set_self]
        · refine Or.inr ⟨?_, ?_⟩
          · intro e' he' hstatic
            rcases List.mem_cons.mp he' with rfl | he'
            · exact hx
            · exact hnone e' he' hstatic
          · rw [hget, Table.get?_set_ne (Ne.symm hx)]

theorem get?_foldl_mld (mld : List Bytes) (list : MacaddrList) (x : Addr) :
    (mld.foldl (fun list a => list.set (some a) (-1)) list).get? x =
      if ∃ a ∈ mld, x = some a then some (-1) else list.get? x := by
  induction mld generalizing list with
  | nil => simp
  | cons a mld ih =>
    rw [List.foldl_cons, ih, Table.get?_set]
    by_cases hx : x = some a
    · simp [hx]
    · simp [hx]

variable {env : ReloadEnv} {bss : List Bss}

/-- A static BSS at a place with an address. -/
def StaticAt (bss : List Bss) (k : ℕ) (x : Addr) : Prop :=
  ∃ c, bss[k]? = some c ∧ IsStatic c ∧ x = addr c

theorem StaticAt.mem {k : ℕ} {x : Addr} (h : StaticAt bss k x) :
    ∃ e ∈ bss.zipIdx, IsStatic e.1 ∧ addr e.1 = x := by
  obtain ⟨c, hc, hstatic, rfl⟩ := h
  exact ⟨(c, k), List.mem_zipIdx_iff_getElem?.mpr hc, hstatic, rfl⟩

theorem get?_ifaceConfigMacaddrList (mld : List Bytes) (bss : List Bss) (x : Addr) :
    (∃ k : ℕ, StaticAt bss k x ∧ (ifaceConfigMacaddrList mld bss).get? x = some (k : ℤ)) ∨
    ((∀ k, ¬StaticAt bss k x) ∧ (ifaceConfigMacaddrList mld bss).get? x =
      if ∃ a ∈ mld, x = some a then some (-1) else none) := by
  rcases get?_foldl_places bss.zipIdx (mld.foldl (fun list a => list.set (some a) (-1)) ∅) x with
    ⟨e, he, hstatic, rfl, hget⟩ | ⟨hnone, hget⟩
  · exact Or.inl ⟨e.2, ⟨e.1, List.mem_zipIdx_iff_getElem?.mp he, hstatic, rfl⟩, hget⟩
  · refine Or.inr ⟨fun k hk => ?_, ?_⟩
    · obtain ⟨e, he, hstatic, hx⟩ := hk.mem
      exact hnone e he hstatic hx
    · rw [ifaceConfigMacaddrList, hget, get?_foldl_mld, Table.get?_empty]

theorem get?_foldl_wdevs (wdevs : List Addr) (list : MacaddrList) {x : Addr} {v : ℤ}
    (h : list.get? x = some v) :
    (wdevs.foldl (fun list a => if (list.get? a).isSome then list else list.set a (-1))
      list).get? x = some v := by
  induction wdevs generalizing list with
  | nil => exact h
  | cons a wdevs ih =>
    rw [List.foldl_cons]
    apply ih
    split_ifs with ha
    · exact h
    · have hne : x ≠ a := by
        rintro rfl
        exact ha (by rw [h]; rfl)
      rw [Table.get?_set_ne hne, h]

theorem get?_foldl_wdevs_cases (wdevs : List Addr) (list : MacaddrList) {x : Addr} {v : ℤ}
    (h : (wdevs.foldl (fun list a => if (list.get? a).isSome then list else list.set a (-1))
      list).get? x = some v) : list.get? x = some v ∨ v = -1 := by
  induction wdevs generalizing list with
  | nil => exact Or.inl h
  | cons a wdevs ih =>
    rw [List.foldl_cons] at h
    rcases ih _ h with h | h
    · split_ifs at h with ha
      · exact Or.inl h
      · rw [Table.get?_set] at h
        split_ifs at h with hx
        · exact Or.inr (Option.some.inj h).symm
        · exact Or.inl h
    · exact Or.inr h

theorem get?_foldl_set (list : MacaddrList) (x : Addr) :
    (list.entries.foldl (fun list e => list.set e.1 e.2) (∅ : MacaddrList)).get? x =
      list.get? x := by
  rw [Table.get?_foldl_entries (h := fun _ v _ => some v)
    (fun u k v l => by rw [Table.get?_set]) list ∅ x]
  cases list.get? x with
  | none => rfl
  | some v => rfl

/-- What is in the table stays there with its place. -/
theorem get?_ifaceMacaddrInit {list : MacaddrList} {x : Addr} {v : ℤ} (h : list.get? x = some v) :
    (ifaceMacaddrInit env list).get? x = some v := by
  apply get?_foldl_wdevs
  rw [get?_foldl_set]
  exact h

theorem get?_ifaceMacaddrInit_cases {list : MacaddrList} {x : Addr} {v : ℤ}
    (h : (ifaceMacaddrInit env list).get? x = some v) : list.get? x = some v ∨ v = -1 := by
  have hcases := get?_foldl_wdevs_cases _ _ h
  rwa [get?_foldl_set] at hcases

end Lists

/-- The address that a kept BSS is meant to have. -/
def keptAddr (c prev : Bss) : Addr := if Fixed c then addr c else addr prev

section Keep

variable (env : ReloadEnv) (old bss : List Bss)

/-- A BSS that is kept at a place, with the address it is meant to have. -/
def KeptAt (k : ℕ) (x : Addr) : Prop :=
  ∃ p c prev, (matching env old bss)[k]? = some (some p) ∧ bss[k]? = some c ∧
    old[p]? = some prev ∧ x = keptAddr c prev

/-- An entry before its pass of the loop, or without a BSS to be kept: it has the address of the new
configuration. Behind the pass it has the address it is meant to have. -/
def EntryOf (i k : ℕ) (b : Bss) (q : Option ℕ) : Prop :=
  ∃ c, bss[k]? = some c ∧ b.defaultMacaddr = c.defaultMacaddr ∧
    b.randomMacaddr = c.randomMacaddr ∧
    ((k < i ∧ ∃ p prev, q = some p ∧ old[p]? = some prev ∧ addr b = keptAddr c prev) ∨
      ((i ≤ k ∨ q = none) ∧ addr b = addr c))

/-- What holds in the loop of step 1 at a place. -/
structure KeepInv (i : ℕ) (s : List Entry × MacaddrList) : Prop where
  length : s.1.length = bss.length
  entry : ∀ {k : ℕ} {b q}, s.1[k]? = some (b, q) → (matching env old bss)[k]? = some q ∧
    EntryOf old bss i k b q
  mld : ∀ a ∈ env.mld, s.2.get? (some a) = some (-1)
  kept : ∀ {k x}, k < i → KeptAt env old bss k x → s.2.get? x = some (k : ℤ)
  static : ∀ {k x}, k ≠ 0 → StaticAt bss k x → s.2.get? x = some (k : ℤ)
  static_zero : ∀ {x}, StaticAt bss 0 x → (s.2.get? x).isSome
  listed : ∀ {x v}, s.2.get? x = some v → (v = -1 ∧ ∃ a ∈ env.mld, x = some a) ∨
    ∃ k : ℕ, v = k ∧ (StaticAt bss k x ∨ (k < i ∧ KeptAt env old bss k x))

variable {env old bss}

theorem StaticAt.unique (hstatic : Distinct env.mld bss IsStatic) {j k : ℕ} {x : Addr}
    (hj : StaticAt bss j x) (hk : StaticAt bss k x) : j = k := by
  obtain ⟨b, hb, hbs, rfl⟩ := hj
  obtain ⟨c, hc, hcs, heq⟩ := hk
  exact hstatic.inj hb hc hbs hcs heq

theorem StaticAt.not_mld (hstatic : Distinct env.mld bss IsStatic) {k : ℕ} {a : Bytes}
    (h : StaticAt bss k (some a)) : a ∉ env.mld := by
  obtain ⟨c, hc, hcs, heq⟩ := h
  obtain ⟨a', ha', hmld⟩ := hstatic.present hc hcs
  rw [← heq] at ha'
  obtain rfl := Option.some.inj ha'
  exact hmld

/-- The table of static and MLD addresses is as wanted before the loop. -/
theorem keepInv_zero (hstatic : Distinct env.mld bss IsStatic) :
    KeepInv env old bss 0
      (bss.zip (matching env old bss), ifaceConfigMacaddrList env.mld bss) where
  length := by simp
  entry {k b q} h := by
    obtain ⟨hb, hq⟩ := List.getElem?_zip_eq_some.mp h
    exact ⟨hq, b, hb, rfl, rfl, Or.inr ⟨Or.inl (Nat.zero_le k), rfl⟩⟩
  mld a ha := by
    rcases get?_ifaceConfigMacaddrList env.mld bss (some a) with ⟨k, hk, -⟩ | ⟨-, hget⟩
    · exact absurd ha (hk.not_mld hstatic)
    · rw [hget, if_pos ⟨a, ha, rfl⟩]
  kept h := absurd h (Nat.not_lt_zero _)
  static {k x} _ hk := by
    rcases get?_ifaceConfigMacaddrList env.mld bss x with ⟨j, hj, hget⟩ | ⟨hnone, -⟩
    · rw [hget, hj.unique hstatic hk]
    · exact absurd hk (hnone k)
  static_zero {x} hk := by
    rcases get?_ifaceConfigMacaddrList env.mld bss x with ⟨j, hj, hget⟩ | ⟨hnone, -⟩
    · rw [hget]
      rfl
    · exact absurd hk (hnone 0)
  listed {x v} h := by
    rcases get?_ifaceConfigMacaddrList env.mld bss x with ⟨k, hk, hget⟩ | ⟨-, hget⟩
    · rw [hget] at h
      exact Or.inr ⟨k, (Option.some.inj h).symm, Or.inl hk⟩
    · rw [hget] at h
      split_ifs at h with hmld
      exact Or.inl ⟨(Option.some.inj h).symm, hmld⟩

theorem keptAddr_of_fixed {c prev : Bss} (h : Fixed c) : keptAddr c prev = addr c := if_pos h

theorem keptAddr_of_not {c prev : Bss} (h : ¬Fixed c) : keptAddr c prev = addr prev := if_neg h

/-- A BSS keeps an address that is not fixed, with the flags it had, if the address is free. -/
theorem keepsAddr_iff {list : MacaddrList} {cur prev : Bss} : keepsAddr list cur prev = true ↔
    ¬Fixed cur ∧ (cur.randomMacaddr = prev.randomMacaddr ∧
      cur.defaultMacaddr = prev.defaultMacaddr) ∧ (list.get? (addr prev)).getD 0 = 0 := by
  simp only [keepsAddr, Bool.and_eq_true, Bool.or_eq_true, beq_iff_eq, Fixed, not_and_or,
    Bool.not_eq_false, and_assoc]

section Pass

variable {i p : ℕ} {c prev cur : Bss} {s : List Entry × MacaddrList}

/-- Where a kept address that is not fixed is listed, it is its own static address, or that of a
first BSS that is not kept. -/
theorem listed_prev
    (hrunning : Distinct env.mld old fun _ => True) (hcompat : Compatible env old bss)
    (hinv : KeepInv env old bss i s) (hm : (matching env old bss)[i]? = some (some p))
    (hc : bss[i]? = some c) (hprev : old[p]? = some prev) (hfixed : ¬Fixed c) {v : ℤ}
    (hget : s.2.get? (addr prev) = some v) :
    (v = i ∧ StaticAt bss i (addr prev)) ∨ (v = 0 ∧ StaticAt bss 0 (addr prev) ∧ i ≠ 0 ∧ p ≠ 0 ∧
      (matching env old bss)[0]? = some none) := by
  obtain ⟨-, hother⟩ := hcompat.kept hm hc hprev hfixed
  have hstaticAt : ∀ {k}, StaticAt bss k (addr prev) →
      k = i ∨ (k = 0 ∧ p ≠ 0 ∧ (matching env old bss)[0]? = some none) := by
    rintro k ⟨c', hc', hcs, heq⟩
    exact hother hc' hcs heq.symm
  rcases hinv.listed hget with ⟨-, a, ha, heq⟩ |
    ⟨k, rfl, hk | ⟨hlt, p', c', prev', hm', hc', hprev', heq⟩⟩
  · -- no running address is that of an MLD interface
    obtain ⟨a', ha', hmld⟩ := hrunning.present hprev trivial
    rw [heq] at ha'
    exact absurd ha (Option.some.inj ha' ▸ hmld)
  · rcases hstaticAt hk with rfl | ⟨rfl, hp, hnone⟩
    · exact Or.inl ⟨rfl, hk⟩
    · by_cases hi : i = 0
      · subst hi
        exact Or.inl ⟨rfl, hk⟩
      · exact Or.inr ⟨rfl, hk, hi, hp, hnone⟩
  · by_cases hfixed' : Fixed c'
    · rw [keptAddr_of_fixed hfixed'] at heq
      rcases hstaticAt ⟨c', hc', hfixed'.1, heq⟩ with rfl | ⟨rfl, -, hnone⟩
      · exact absurd hlt (lt_irrefl _)
      · rw [hnone] at hm'
        cases hm'
    · rw [keptAddr_of_not hfixed'] at heq
      have hp : p = p' := hrunning.inj hprev hprev' trivial trivial heq
      subst hp
      exact absurd (matching_inj hm hm') (by omega)

/-- A pass that changes nothing in the table has the kept address there. -/
theorem KeepInv.succ (hinv : KeepInv env old bss i s)
    (hentry : ∀ {b q}, s.1[i]? = some (b, q) → q = none ∨
      ∃ p c prev, q = some p ∧ bss[i]? = some c ∧ old[p]? = some prev ∧ addr b = keptAddr c prev)
    (hkept : ∀ {x}, KeptAt env old bss i x → s.2.get? x = some (i : ℤ)) :
    KeepInv env old bss (i + 1) s where
  length := hinv.length
  entry {k b q} h := by
    obtain ⟨hq, c, hc, hdefault, hrandom, haddr⟩ := hinv.entry h
    refine ⟨hq, c, hc, hdefault, hrandom, ?_⟩
    rcases haddr with ⟨hlt, hkept⟩ | ⟨hle, haddr⟩
    · exact Or.inl ⟨by omega, hkept⟩
    · rcases hle with hle | hnone
      · rcases hle.eq_or_lt with rfl | hlt
        · rcases hentry h with hnone | ⟨p, c', prev, hqp, hc', hprev, hkaddr⟩
          · exact Or.inr ⟨Or.inr hnone, haddr⟩
          · obtain rfl := Option.some.inj (hc.symm.trans hc')
            exact Or.inl ⟨Nat.lt_succ_self _, p, prev, hqp, hprev, hkaddr⟩
        · exact Or.inr ⟨Or.inl hlt, haddr⟩
      · exact Or.inr ⟨Or.inr hnone, haddr⟩
  mld := hinv.mld
  kept {k x} hlt hk := by
    rcases (Nat.lt_succ_iff.mp hlt).eq_or_lt with rfl | hlt
    · exact hkept hk
    · exact hinv.kept hlt hk
  static := hinv.static
  static_zero := hinv.static_zero
  listed h := by
    rcases hinv.listed h with hmld | ⟨k, rfl, hk | ⟨hlt, hk⟩⟩
    · exact Or.inl hmld
    · exact Or.inr ⟨k, rfl, Or.inl hk⟩
    · exact Or.inr ⟨k, rfl, Or.inr ⟨by omega, hk⟩⟩

/-- At its place, a static address that no kept BSS has taken is listed with that place. -/
theorem KeepInv.get?_static (hstatic : Distinct env.mld bss IsStatic)
    (hinv : KeepInv env old bss i s) {x : Addr} (hx : StaticAt bss i x) :
    s.2.get? x = some (i : ℤ) := by
  by_cases hi : i = 0
  · subst hi
    obtain ⟨v, hv⟩ := Option.isSome_iff_exists.mp (hinv.static_zero hx)
    rcases hinv.listed hv with ⟨-, a, ha, rfl⟩ | ⟨k, rfl, hk | ⟨hlt, -⟩⟩
    · exact absurd ha (hx.not_mld hstatic)
    · rw [hv, hk.unique hstatic hx]
    · exact absurd hlt (Nat.not_lt_zero _)
  · exact hinv.static hi hx

/-- A pass that enters a kept address, which was free or that of the first place. -/
theorem KeepInv.set (hrunning : Distinct env.mld old fun _ => True)
    (hinv : KeepInv env old bss i s) (hentry : s.1[i]? = some (cur, some p))
    (hm : (matching env old bss)[i]? = some (some p)) (hc : bss[i]? = some c)
    (hprev : old[p]? = some prev) (hfixed : ¬Fixed c)
    (hlisted : ∀ v, s.2.get? (addr prev) = some v → (v = i ∧ StaticAt bss i (addr prev)) ∨
      (v = 0 ∧ StaticAt bss 0 (addr prev) ∧ i ≠ 0 ∧ p ≠ 0 ∧
        (matching env old bss)[0]? = some none)) :
    KeepInv env old bss (i + 1)
      (s.1.set i (setBssid (addr prev) cur, some p), s.2.set (addr prev) i) where
  length := by rw [List.length_set, hinv.length]
  entry {k b q} h := by
    by_cases hk : i = k
    · subst hk
      have hlt := (List.getElem?_eq_some_iff.mp hentry).1
      rw [List.getElem?_set_self hlt] at h
      cases h
      obtain ⟨-, c', hc', hdefault, hrandom, -⟩ := hinv.entry hentry
      obtain rfl := Option.some.inj (hc.symm.trans hc')
      exact ⟨hm, c, hc, hdefault, hrandom,
        Or.inl ⟨Nat.lt_succ_self _, p, prev, rfl, hprev, (keptAddr_of_not hfixed).symm⟩⟩
    · rw [List.getElem?_set_ne hk] at h
      obtain ⟨hq, c', hc', hdefault, hrandom, haddr⟩ := hinv.entry h
      refine ⟨hq, c', hc', hdefault, hrandom, ?_⟩
      rcases haddr with ⟨hlt, hkept⟩ | ⟨hle | hnone, haddr⟩
      · exact Or.inl ⟨by omega, hkept⟩
      · exact Or.inr ⟨Or.inl (by omega), haddr⟩
      · exact Or.inr ⟨Or.inr hnone, haddr⟩
  mld a ha := by
    obtain ⟨a', ha', hmld⟩ := hrunning.present hprev trivial
    have hne : some a ≠ addr prev := by
      rw [ha']
      rintro heq
      exact hmld (Option.some.inj heq ▸ ha)
    rw [Table.get?_set_ne hne, hinv.mld a ha]
  kept {k x} hlt hk := by
    rcases (Nat.lt_succ_iff.mp hlt).eq_or_lt with rfl | hlt
    · obtain ⟨p', c', prev', hm', hc', hprev', rfl⟩ := hk
      rw [hm] at hm'
      obtain rfl : p = p' := Option.some.inj (Option.some.inj hm')
      obtain rfl := Option.some.inj (hc.symm.trans hc')
      obtain rfl := Option.some.inj (hprev.symm.trans hprev')
      rw [keptAddr_of_not hfixed, Table.get?_set_self]
    · have hget := hinv.kept hlt hk
      have hne : x ≠ addr prev := by
        rintro rfl
        rcases hlisted _ hget with ⟨heq, -⟩ | ⟨heq, -, -, -, hnone⟩
        · omega
        · obtain rfl : k = 0 := by omega
          obtain ⟨p', c', prev', hm', -⟩ := hk
          rw [hnone] at hm'
          cases hm'
      rw [Table.get?_set_ne hne, hget]
  static {k x} hk hx := by
    have hget := hinv.static hk hx
    rw [Table.get?_set]
    split_ifs with heq
    · subst heq
      rcases hlisted _ hget with ⟨heq, -⟩ | ⟨heq, -⟩
      · rw [heq]
      · omega
    · exact hget
  static_zero {x} hx := by
    rw [Table.get?_set]
    split_ifs
    · rfl
    · exact hinv.static_zero hx
  listed {x v} h := by
    rw [Table.get?_set] at h
    split_ifs at h with heq
    · refine Or.inr ⟨i, (Option.some.inj h).symm, Or.inr ⟨Nat.lt_succ_self _, ?_⟩⟩
      exact ⟨p, c, prev, hm, hc, hprev, by rw [heq, keptAddr_of_not hfixed]⟩
    · rcases hinv.listed h with hmld | ⟨k, rfl, hk | ⟨hlt, hk⟩⟩
      · exact Or.inl hmld
      · exact Or.inr ⟨k, rfl, Or.inl hk⟩
      · exact Or.inr ⟨k, rfl, Or.inr ⟨by omega, hk⟩⟩

end Pass

theorem keepStep_inv (hstatic : Distinct env.mld bss IsStatic)
    (hrunning : Distinct env.mld old fun _ => True) (hcompat : Compatible env old bss) {i : ℕ}
    {s t : List Entry × MacaddrList} (hinv : KeepInv env old bss i s)
    (h : keepStep env old s i = some t) : KeepInv env old bss (i + 1) t := by
  rw [keepStep] at h
  cases hentry : s.1[i]? with
  | none =>
    rw [hentry] at h
    cases h
    refine hinv.succ (fun hb => (by rw [hentry] at hb; cases hb)) ?_
    rintro x ⟨p, c, prev, -, hc, -⟩
    rw [List.getElem?_eq_none_iff, hinv.length, ← List.getElem?_eq_none_iff, hc] at hentry
    cases hentry
  | some e =>
    obtain ⟨cur, q⟩ := e
    rw [hentry] at h
    obtain ⟨hm, c, hc, hdefault, hrandom, haddr⟩ := hinv.entry hentry
    have hcur : addr cur = addr c := by
      rcases haddr with ⟨hlt, -⟩ | ⟨-, haddr⟩
      · exact absurd hlt (lt_irrefl i)
      · exact haddr
    have hfixed : Fixed cur ↔ Fixed c := by rw [Fixed, Fixed, hdefault, hrandom]
    cases q with
    | none =>
      cases h
      refine hinv.succ (fun hb => ?_) ?_
      · rw [hentry] at hb
        cases hb
        exact Or.inl rfl
      · rintro x ⟨p, c', prev, hm', -⟩
        rw [hm] at hm'
        cases hm'
    | some p =>
      simp only at h
      cases hprev : old[p]? with
      | none =>
        rw [hprev] at h
        cases h
      | some prev =>
        rw [hprev] at h
        simp only at h
        split_ifs at h with hbss hkeeps
        · -- the address is kept
          cases h
          have hnot := (keepsAddr_iff.mp hkeeps).1
          have hnotc : ¬Fixed c := fun hf => hnot (hfixed.mpr hf)
          exact hinv.set hrunning hentry hm hc hprev hnotc fun v hget =>
            listed_prev hrunning hcompat hinv hm hc hprev hnotc hget
        · -- the address is fixed, or the BSS has it already
          cases h
          have hnot : ¬Fixed c → ∃ v, s.2.get? (addr prev) = some v ∧ v ≠ 0 := by
            intro hnotc
            have hflags := (hcompat.kept hm hc hprev hnotc).1
            have hbusy : ¬(s.2.get? (addr prev)).getD 0 = 0 := by
              intro hfree
              refine hkeeps (keepsAddr_iff.mpr ⟨fun hf => hnotc (hfixed.mp hf), ?_, hfree⟩)
              rw [hdefault, hrandom]
              exact hflags
            cases hget : s.2.get? (addr prev) with
            | none =>
              rw [hget] at hbusy
              exact absurd rfl hbusy
            | some v =>
              rw [hget] at hbusy
              exact ⟨v, rfl, hbusy⟩
          have hplace : addr c = keptAddr c prev ∧ s.2.get? (keptAddr c prev) = some (i : ℤ) := by
            by_cases hf : Fixed c
            · rw [keptAddr_of_fixed hf]
              exact ⟨rfl, hinv.get?_static hstatic ⟨c, hc, hf.1, rfl⟩⟩
            · rw [keptAddr_of_not hf]
              obtain ⟨v, hget, hv⟩ := hnot hf
              rcases listed_prev hrunning hcompat hinv hm hc hprev hf hget with
                ⟨rfl, c', hc', -, heq⟩ | ⟨rfl, -⟩
              · obtain rfl := Option.some.inj (hc.symm.trans hc')
                exact ⟨heq.symm, hget⟩
              · exact absurd rfl hv
          refine hinv.succ (fun hb => ?_) ?_
          · rw [hentry] at hb
            cases hb
            exact Or.inr ⟨p, c, prev, rfl, hc, hprev, hcur.trans hplace.1⟩
          · rintro x ⟨p', c', prev', hm', hc', hprev', rfl⟩
            rw [hm] at hm'
            obtain rfl : p = p' := Option.some.inj (Option.some.inj hm')
            obtain rfl := Option.some.inj (hc.symm.trans hc')
            obtain rfl := Option.some.inj (hprev.symm.trans hprev')
            exact hplace.2

/-- The table and the addresses behind the loop of step 1. -/
theorem keepLoop_kept (hstatic : Distinct env.mld bss IsStatic)
    (hrunning : Distinct env.mld old fun _ => True) (hcompat : Compatible env old bss)
    {s : List Entry × MacaddrList}
    (h : keepLoop env old bss (ifaceConfigMacaddrList env.mld bss) = some s) :
    KeepInv env old bss bss.length s :=
  foldlM_range_inv (KeepInv env old bss) (keepInv_zero hstatic)
    (fun _ _ _ _ hinv hstep => keepStep_inv hstatic hrunning hcompat hinv hstep) h

end Keep

end NeonWrt.Hostapd.Bssid
