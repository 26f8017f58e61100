import NeonWrt.BaseFiles.Alternatives
import Mathlib.Data.List.MinMax

/-!
# Links of alternatives in every run

After any sequence of installations and removals a declared target should be a
link to a source of the highest priority. The script meets this as long as
priorities are positive, its scan is made for every alternative, and no package
is removed whose link has to go to an alternative of the same priority or of the
same source.
-/

namespace NeonWrt.BaseFiles

open Lib Shell

/-- What the package manager is told to do. -/
inductive Op where
  | install (p : Package)
  | remove (p : Package)

/-- A system, with the targets of all packages that were removed. -/
structure History where
  sys : System
  removed : List Bytes

section Runs

variable (exist : System → Bytes → Bool) (applet : Bytes → Prop)

/-- A package is installed once, and only what is installed is removed. -/
def Step (h : History) (op : Op) (h' : History) : Prop :=
  match op with
  | .install p => (∀ q ∈ h.sys.packages, q.name ≠ p.name) ∧
      h' = { h with sys := install exist p h.sys }
  | .remove p => p ∈ h.sys.packages ∧
      h' = ⟨remove exist p h.sys, p.alternatives.map Alternative.target ++ h.removed⟩

/-- A declaration for a target that no other has a higher priority for. -/
def Maximal (packages : List Package) (b : Alternative) : Prop :=
  Declared packages b ∧ ∀ c, Declared packages c → c.target = b.target → c.prio ≤ b.prio

/-- Declared targets are links to a source of maximal priority; targets whose last package was
removed are gone or left to `busybox`. -/
structure LinksOk (h : History) : Prop where
  provided : ∀ a, Declared h.sys.packages a →
    ∃ b, Maximal h.sys.packages b ∧ b.target = a.target ∧ h.sys.link a.target = some b.src
  orphaned : ∀ t ∈ h.removed, (∀ a, Declared h.sys.packages a → a.target ≠ t) →
    h.sys.link t = none ∨ h.sys.link t = some busybox ∧ applet t

/-- Priorities are positive, no two alternatives of the package tie for a target unless an
installed one is as good, and the scan is made for each of them. -/
structure InstallOk (s : System) (p : Package) : Prop where
  positive : ∀ a ∈ p.alternatives, 0 < a.prio
  no_tie : ∀ a ∈ p.alternatives, ∀ b ∈ p.alternatives, a.target = b.target → a.prio = b.prio →
    a.src = b.src ∨ ∃ c, Declared s.packages c ∧ c.target = a.target ∧ a.prio ≤ c.prio
  scanned : AllScanned exist .install (p.alternatives.map Alternative.word) (withPackage p s) []

/-- The alternative is on the list of another package. -/
def Other (s : System) (p : Package) (c : Alternative) : Prop :=
  ∃ q ∈ s.packages, q.name ≠ p.name ∧ c ∈ q.alternatives

/-- The package names a target in one way, `busybox` has the applet if no other package names it,
and the link can go to another source: one with the same source is no better than a different one,
and where a different one has the same priority, the link is not the package's own. -/
structure RemoveOk (s : System) (p : Package) : Prop where
  once : ∀ a ∈ p.alternatives, ∀ b ∈ p.alternatives, a.target = b.target →
    a.src = b.src ∧ a.prio = b.prio
  last : ∀ a ∈ p.alternatives, (∀ c, Other s p c → c.target ≠ a.target) → applet a.target
  same_source : ∀ a ∈ p.alternatives, ∀ c, Other s p c → c.target = a.target → c.src = a.src →
    ∃ d, Other s p d ∧ d.target = a.target ∧ d.src ≠ a.src ∧ min c.prio a.prio ≤ d.prio
  same_prio : ∀ a ∈ p.alternatives, s.link a.target = some a.src →
    ∀ c, Other s p c → c.target = a.target → c.src ≠ a.src → c.prio = a.prio →
    ∃ d, Other s p d ∧ d.target = a.target ∧ d.src = a.src ∧ a.prio ≤ d.prio
  scanned : AllScanned exist .remove (p.alternatives.map Alternative.word) s []

/-- The steps that the links survive. -/
def OpOk (h : History) : Op → Prop
  | .install p => InstallOk exist h.sys p
  | .remove p => RemoveOk exist applet h.sys p

/-- The inductive invariant. -/
structure Inv (h : History) : Prop where
  ok : LinksOk applet h
  positive : ∀ a, Declared h.sys.packages a → 0 < a.prio
  names : ∀ p ∈ h.sys.packages, ∀ q ∈ h.sys.packages, p.name = q.name → p = q

end Runs

section Steps

variable {exist : System → Bytes → Bool} {applet : Bytes → Prop} {h : History} {p : Package}

theorem exists_maximal {packages : List Package} {a : Alternative} (ha : Declared packages a) :
    ∃ b, Maximal packages b ∧ b.target = a.target := by
  have hmem : ∀ c, c ∈ (packages.flatMap Package.alternatives).filter (fun c => c.target = a.target) ↔
      Declared packages c ∧ c.target = a.target := by
    intro c
    simp [Declared]
  cases hbest : ((packages.flatMap Package.alternatives).filter
      fun c => c.target = a.target).argmax Alternative.prio with
  | none =>
    rw [List.argmax_eq_none] at hbest
    have hnil := (hmem a).mpr ⟨ha, rfl⟩
    rw [hbest] at hnil
    exact absurd hnil List.not_mem_nil
  | some b =>
    obtain ⟨hb, hbt⟩ := (hmem b).mp (List.argmax_mem hbest)
    refine ⟨b, ⟨hb, fun c hc hct => ?_⟩, hbt⟩
    exact List.le_of_mem_argmax ((hmem c).mpr ⟨hc, hct.trans hbt⟩) hbest

theorem declared_withPackage {s : System} {a : Alternative} :
    Declared (withPackage p s).packages a ↔ a ∈ p.alternatives ∨ Declared s.packages a := by
  simp only [Declared, withPackage, List.mem_orderedInsert]
  constructor
  · rintro ⟨q, rfl | hq, ha⟩
    · exact .inl ha
    · exact .inr ⟨q, hq, ha⟩
  · rintro (ha | ⟨q, hq, ha⟩)
    · exact ⟨p, .inl rfl, ha⟩
    · exact ⟨q, .inr hq, ha⟩

/-- A source that beats all others is of maximal priority, on its own list or on another. -/
theorem exists_maximal_of_beats {packages : List Package} {a : Alternative} {x : ℤ} {src : Bytes}
    (ha : Declared packages a) (hbest : BestOf packages a x src) (hlt : x < a.prio) :
    ∃ b, Maximal packages b ∧ b.target = a.target ∧ b.src = a.src := by
  obtain ⟨b, hb, hbt⟩ := exists_maximal ha
  refine ⟨b, hb, hbt, ?_⟩
  by_contra hne
  have hle := hbest.le b ⟨hb.1, hbt, hne⟩
  have hle' := hb.2 a ha hbt.symm
  omega

theorem install_provided (hinv : Inv applet h) (hok : InstallOk exist h.sys p) {a : Alternative}
    (ha : Declared (withPackage p h.sys).packages a) :
    ∃ b, Maximal (withPackage p h.sys).packages b ∧ b.target = a.target ∧
      (install exist p h.sys).link a.target = some b.src := by
  obtain ⟨-, hlink⟩ := updateWords_link p.alternatives hok.scanned
  rcases hlink a.target with ⟨hkept, hno⟩ | ⟨c, hc, hct, x, src, hbest, hlt, hset⟩
  · obtain ⟨b, hb, hbt⟩ := exists_maximal ha
    by_cases hold : ∃ c, Declared h.sys.packages c ∧ c.target = a.target ∧ b.prio ≤ c.prio
    · -- an installed package is as good as the new one, and the link is its or an equal one's
      obtain ⟨c, hc, hct, hbc⟩ := hold
      obtain ⟨d, hd, hdt, hlinkd⟩ := hinv.ok.provided c hc
      have hcd := hd.2 c hc hdt.symm
      refine ⟨d, ⟨declared_withPackage.mpr (.inr hd.1), fun e he het => ?_⟩, hdt.trans hct, ?_⟩
      · exact (hb.2 e he (by rw [het, hdt, hct, hbt])).trans (hbc.trans hcd)
      · rw [← hct] at hkept ⊢
        exact hkept.trans hlinkd
    · -- the best is new, so another source of the package ties with it
      have hbp : b ∈ p.alternatives := by
        refine (declared_withPackage.mp hb.1).resolve_right fun hdecl => ?_
        exact hold ⟨b, hdecl, hbt, le_rfl⟩
      obtain ⟨x, src, hbest, hle⟩ := hno b hbp hbt
      have hpos := hok.positive b hbp
      rcases hbest.attained with ⟨hzero, -⟩ | ⟨c, ⟨hc, hct, hcs⟩, hcx, -⟩
      · omega
      · have hbc : b.prio = c.prio := by
          have := hb.2 c hc hct
          omega
        have hcp : c ∈ p.alternatives := by
          refine (declared_withPackage.mp hc).resolve_right fun hdecl => ?_
          exact hold ⟨c, hdecl, hct.trans hbt, hbc.le⟩
        rcases hok.no_tie b hbp c hcp hct.symm hbc with heq | ⟨d, hd, hdt, hbd⟩
        · exact absurd heq.symm hcs
        · exact absurd ⟨d, hd, hdt.trans hbt, hbd⟩ hold
  · obtain ⟨b, hb, hbt, hbs⟩ := exists_maximal_of_beats (declared_withPackage.mpr (.inl hc)) hbest hlt
    exact ⟨b, hb, hbt.trans hct, by rw [hbs]; exact hset⟩

theorem install_inv (hinv : Inv applet h) (hfresh : ∀ q ∈ h.sys.packages, q.name ≠ p.name)
    (hok : InstallOk exist h.sys p) : Inv applet { h with sys := install exist p h.sys } := by
  obtain ⟨hpkgs, hlink⟩ := updateWords_link p.alternatives hok.scanned
  have hpkgs : (install exist p h.sys).packages = (withPackage p h.sys).packages := hpkgs
  refine ⟨⟨fun a ha => ?_, fun t ht hnone => ?_⟩, fun a ha => ?_, fun q hq r hr heq => ?_⟩
  · simp only [hpkgs] at ha ⊢
    exact install_provided hinv hok ha
  · simp only [hpkgs, declared_withPackage] at hnone
    rcases hlink t with ⟨hkept, -⟩ | ⟨a, ha, hat, -⟩
    · have hold := hinv.ok.orphaned t ht fun a ha => hnone a (.inr ha)
      exact hkept ▸ hold
    · exact absurd hat (hnone a (.inl ha))
  · simp only [hpkgs, declared_withPackage] at ha
    rcases ha with ha | ha
    · exact hok.positive a ha
    · exact hinv.positive a ha
  · simp only [hpkgs, withPackage, List.mem_orderedInsert] at hq hr
    rcases hq with rfl | hq
    · rcases hr with rfl | hr
      · rfl
      · exact absurd heq.symm (hfresh r hr)
    · rcases hr with rfl | hr
      · exact absurd heq (hfresh q hq)
      · exact hinv.names q hq r hr heq

theorem declared_remove {s : System} {a : Alternative}
    (hpkgs : (updateAlternatives exist .remove p s).packages = s.packages) :
    Declared (remove exist p s).packages a ↔ Other s p a := by
  simp only [Declared, remove, hpkgs, List.mem_filter, decide_eq_true_eq, Other, and_assoc]

theorem Inv.declared_iff (hinv : Inv applet h) (hp : p ∈ h.sys.packages) {c : Alternative} :
    Declared h.sys.packages c ↔ c ∈ p.alternatives ∨ Other h.sys p c := by
  constructor
  · rintro ⟨q, hq, hc⟩
    by_cases hname : q.name = p.name
    · exact .inl (hinv.names q hq p hp hname ▸ hc)
    · exact .inr ⟨q, hq, hname, hc⟩
  · rintro (hc | ⟨q, hq, -, hc⟩)
    · exact ⟨p, hp, hc⟩
    · exact ⟨q, hq, hc⟩

/-- The scan for the removed package finds alternatives of other packages only. -/
theorem Inv.other_of_rival (hinv : Inv applet h) (hp : p ∈ h.sys.packages)
    (hok : RemoveOk exist applet h.sys p) {a c : Alternative} (ha : a ∈ p.alternatives)
    (hrival : Rival h.sys.packages a c) : Other h.sys p c := by
  obtain ⟨hc, hct, hcs⟩ := hrival
  refine ((hinv.declared_iff hp).mp hc).resolve_left fun hcp => ?_
  exact hcs (hok.once a ha c hcp hct.symm).1.symm

/-- An alternative among those of the other packages that is maximal there. -/
def MaximalOther (s : System) (p : Package) (b : Alternative) : Prop :=
  Other s p b ∧ ∀ c, Other s p c → c.target = b.target → c.prio ≤ b.prio

/-- The link stays, and is that of another package. -/
theorem Inv.remove_kept (hinv : Inv applet h) (hp : p ∈ h.sys.packages)
    (hok : RemoveOk exist applet h.sys p) {a : Alternative} (ha : a ∈ p.alternatives) {x : ℤ}
    {src : Bytes} (hbest : BestOf h.sys.packages a x src) (hle : a.prio ≤ x) :
    ∃ b, MaximalOther h.sys p b ∧ b.target = a.target ∧ h.sys.link a.target = some b.src := by
  have hpos := hinv.positive a ((hinv.declared_iff hp).mpr (.inl ha))
  obtain ⟨b, ⟨hb, hmax⟩, hbt, hlink⟩ := hinv.ok.provided a ((hinv.declared_iff hp).mpr (.inl ha))
  have hmax' : ∀ c, Other h.sys p c → c.target = a.target → c.prio ≤ b.prio := fun c hc hct =>
    hmax c ((hinv.declared_iff hp).mpr (.inr hc)) (hct.trans hbt.symm)
  rcases (hinv.declared_iff hp).mp hb with hbp | hother
  · -- the link is the package's own, so some other package has the same priority
    obtain ⟨hsrc, hprio⟩ := hok.once a ha b hbp hbt.symm
    rw [← hsrc] at hlink
    rcases hbest.attained with ⟨hzero, -⟩ | ⟨c, hrival, hcx, -⟩
    · omega
    · have hc := hinv.other_of_rival hp hok ha hrival
      have hcb := hmax' c hc hrival.2.1
      obtain ⟨d, hd, hdt, hds, hdp⟩ :=
        hok.same_prio a ha hlink c hc hrival.2.1 hrival.2.2 (by omega)
      refine ⟨d, ⟨hd, fun e he het => ?_⟩, hdt, by rw [hds]; exact hlink⟩
      have hle := hmax' e he (het.trans hdt)
      omega
  · exact ⟨b, ⟨hother, fun c hc hct => hmax' c hc (hct.trans hbt)⟩, hbt, hlink⟩

/-- The link goes to the best other package, or to `busybox` if there is none. -/
theorem Inv.remove_set (hinv : Inv applet h) (hp : p ∈ h.sys.packages)
    (hok : RemoveOk exist applet h.sys p) {a : Alternative} (ha : a ∈ p.alternatives) {x : ℤ}
    {src : Bytes} (hbest : BestOf h.sys.packages a x src) (hlt : x < a.prio) :
    (src = busybox ∧ ∀ c, Other h.sys p c → c.target ≠ a.target) ∨
      ∃ b, MaximalOther h.sys p b ∧ b.target = a.target ∧ b.src = src := by
  -- whoever has the same source is no better than some different source
  have hbound : ∀ c, Other h.sys p c → c.target = a.target →
      c.prio ≤ x ∧ ∃ d, Rival h.sys.packages a d := by
    intro c hc hct
    have hdecl : ∀ d, Other h.sys p d → Declared h.sys.packages d := fun d hd =>
      (hinv.declared_iff hp).mpr (.inr hd)
    by_cases hcs : c.src = a.src
    · obtain ⟨d, hd, hdt, hds, hmin⟩ := hok.same_source a ha c hc hct hcs
      have hdx := hbest.le d ⟨hdecl d hd, hdt, hds⟩
      exact ⟨by omega, d, hdecl d hd, hdt, hds⟩
    · exact ⟨hbest.le c ⟨hdecl c hc, hct, hcs⟩, c, hdecl c hc, hct, hcs⟩
  rcases hbest.attained with ⟨hzero, hsrc⟩ | ⟨b, hrival, hbx, hsrc⟩
  · refine .inl ⟨hsrc, fun c hc hct => ?_⟩
    obtain ⟨d, hd⟩ := (hbound c hc hct).2
    have hle := hbest.le d hd
    have hpos := hinv.positive d hd.1
    omega
  · refine .inr ⟨b, ⟨hinv.other_of_rival hp hok ha hrival, fun c hc hct => ?_⟩, hrival.2.1, hsrc⟩
    have hle := (hbound c hc (hct.trans hrival.2.1)).1
    omega

theorem remove_inv (hinv : Inv applet h) (hp : p ∈ h.sys.packages)
    (hok : RemoveOk exist applet h.sys p) :
    Inv applet ⟨remove exist p h.sys, p.alternatives.map Alternative.target ++ h.removed⟩ := by
  obtain ⟨hpkgs, hlink⟩ := updateWords_link p.alternatives hok.scanned
  have hdecl : ∀ a, Declared (remove exist p h.sys).packages a ↔ Other h.sys p a := fun a =>
    declared_remove hpkgs
  have hmaximal : ∀ b, MaximalOther h.sys p b → Maximal (remove exist p h.sys).packages b := by
    rintro b ⟨hb, hmax⟩
    exact ⟨(hdecl b).mpr hb, fun c hc hct => hmax c ((hdecl c).mp hc) hct⟩
  refine ⟨⟨fun a ha => ?_, fun t ht hnone => ?_⟩, fun a ha => ?_, fun q hq r hr heq => ?_⟩
  · have ha := (hdecl a).mp ha
    rcases hlink a.target with ⟨hkept, hno⟩ | ⟨c, hc, hct, x, src, hbest, hlt, hset⟩
    · by_cases htarget : ∃ c ∈ p.alternatives, c.target = a.target
      · obtain ⟨c, hc, hct⟩ := htarget
        obtain ⟨x, src, hbest, hle⟩ := hno c hc hct
        obtain ⟨b, hb, hbt, hlinkb⟩ := hinv.remove_kept hp hok hc hbest hle
        refine ⟨b, hmaximal b hb, hbt.trans hct, ?_⟩
        rw [hct] at hlinkb
        exact hkept.trans hlinkb
      · obtain ⟨b, ⟨hb, hmax⟩, hbt, hlinkb⟩ :=
          hinv.ok.provided a ((hinv.declared_iff hp).mpr (.inr ha))
        have hother : Other h.sys p b :=
          ((hinv.declared_iff hp).mp hb).resolve_left fun hbp => htarget ⟨b, hbp, hbt⟩
        refine ⟨b, hmaximal b ⟨hother, fun c hc hct => ?_⟩, hbt, hkept.trans hlinkb⟩
        exact hmax c ((hinv.declared_iff hp).mpr (.inr hc)) hct
    · rcases hinv.remove_set hp hok hc hbest hlt with ⟨-, hnone⟩ | ⟨b, hb, hbt, hbs⟩
      · exact absurd hct.symm (hnone a ha)
      · exact ⟨b, hmaximal b hb, hbt.trans hct, by rw [hbs]; exact hset⟩
  · have hnone : ∀ a, Other h.sys p a → a.target ≠ t := fun a ha => hnone a ((hdecl a).mpr ha)
    rcases hlink t with ⟨hkept, hno⟩ | ⟨c, hc, hct, x, src, hbest, hlt, hset⟩
    · by_cases htarget : ∃ c ∈ p.alternatives, c.target = t
      · obtain ⟨c, hc, hct⟩ := htarget
        obtain ⟨x, src, hbest, hle⟩ := hno c hc hct
        obtain ⟨b, hb, hbt, -⟩ := hinv.remove_kept hp hok hc hbest hle
        exact absurd (hbt.trans hct) (hnone b hb.1)
      · have hmem : t ∈ h.removed := by
          rcases List.mem_append.mp ht with hmap | hmem
          · obtain ⟨c, hc, hct⟩ := List.mem_map.mp hmap
            exact absurd ⟨c, hc, hct⟩ htarget
          · exact hmem
        have hold := hinv.ok.orphaned t hmem fun a ha hat =>
          ((hinv.declared_iff hp).mp ha).elim (fun hap => htarget ⟨a, hap, hat⟩)
            fun hother => hnone a hother hat
        exact hkept ▸ hold
    · rcases hinv.remove_set hp hok hc hbest hlt with ⟨hsrc, hlast⟩ | ⟨b, hb, hbt, -⟩
      · exact .inr ⟨by rw [← hsrc]; exact hset, hct ▸ hok.last c hc hlast⟩
      · exact absurd (hbt.trans hct) (hnone b hb.1)
  · exact hinv.positive a ((hinv.declared_iff hp).mpr (.inr ((hdecl a).mp ha)))
  · have hpkgs : (updateAlternatives exist .remove p h.sys).packages = h.sys.packages := hpkgs
    simp only [remove, hpkgs, List.mem_filter] at hq hr
    exact hinv.names q hq.1 r hr.1 heq

/-- The links are right in every state of a run whose steps all meet `OpOk`. -/
theorem reaches_linksOk {s : System} (hempty : s.packages = [])
    (hr : Reaches (fun h => h = ⟨s, []⟩) (Step exist) (OpOk exist applet) h) : LinksOk applet h := by
  refine (hr.invariant (P := Inv applet) ?_ ?_).ok
  · rintro h rfl
    have hnone : ∀ a, ¬ Declared s.packages a := by
      rintro a ⟨q, hq, -⟩
      rw [hempty] at hq
      exact absurd hq List.not_mem_nil
    refine ⟨⟨fun a ha => absurd ha (hnone a), fun t ht => absurd ht List.not_mem_nil⟩,
      fun a ha => absurd ha (hnone a), fun q hq => ?_⟩
    simp only [hempty] at hq
    exact absurd hq List.not_mem_nil
  · rintro h (p | p) h' hinv hok ⟨hpre, rfl⟩
    · exact install_inv hinv hpre hok
    · exact remove_inv hinv hpre hok

end Steps

/-- A package with one alternative for `/usr/bin/wget`. -/
def wget (name prioText src : String) (prio : ℤ) (hnumber : number (ascii prioText) = some prio)
    (hcolon : colon ∉ ascii src) : Package where
  name := ascii name
  alternatives := [⟨ascii prioText, ascii "/usr/bin/wget", ascii src, prio, hnumber, hcolon⟩]

/-- `uclient-fetch`. -/
def uclientFetch : Package :=
  wget "uclient-fetch" "200" "/bin/uclient-fetch" 200 (by decide) (by decide)

/-- `wget-ssl`. -/
def wgetSsl : Package := wget "wget-ssl" "400" "/usr/libexec/wget-ssl" 400 (by decide) (by decide)

/-- Another package with the priority of `wget-ssl`. -/
def wgetOther : Package := wget "wget-tls" "400" "/usr/libexec/wget-tls" 400 (by decide) (by decide)

/-- A system without packages. -/
def bare : System := ⟨[], fun _ => none⟩

/-- A test of `-e` that always succeeds. -/
def allExist (_ : System) (_ : Bytes) : Bool := true

theorem installOk_wget {name prioText src : String} {prio : ℤ}
    {hnumber : number (ascii prioText) = some prio} {hcolon : colon ∉ ascii src} (hpos : 0 < prio)
    (s : System) : InstallOk allExist s (wget name prioText src prio hnumber hcolon) where
  positive := by
    intro a ha
    obtain rfl := List.mem_singleton.mp ha
    exact hpos
  no_tie := by
    intro a ha b hb _ _
    obtain rfl := List.mem_singleton.mp ha
    obtain rfl := List.mem_singleton.mp hb
    exact .inl rfl
  scanned := ⟨.inl rfl, trivial⟩

/-- The better of two packages is installed and removed again. -/
theorem links_after_removal :
    LinksOk (fun _ => False)
        ⟨remove allExist wgetSsl (install allExist wgetSsl (install allExist uclientFetch bare)),
          [ascii "/usr/bin/wget"]⟩ ∧
      (remove allExist wgetSsl (install allExist wgetSsl (install allExist uclientFetch bare))).link
        (ascii "/usr/bin/wget") = some (ascii "/bin/uclient-fetch") := by
  refine ⟨?_, by decide +kernel⟩
  have hother : ∀ c, Other (install allExist wgetSsl (install allExist uclientFetch bare)) wgetSsl c →
      c ∈ uclientFetch.alternatives := by
    rintro c ⟨q, hq, hne, hc⟩
    have hq : q ∈ [uclientFetch, wgetSsl] := hq
    rcases List.mem_cons.mp hq with rfl | hq
    · exact hc
    · exact absurd (congrArg Package.name (List.mem_singleton.mp hq)) hne
  have hremove : RemoveOk allExist (fun _ => False)
      (install allExist wgetSsl (install allExist uclientFetch bare)) wgetSsl := by
    refine ⟨?_, ?_, ?_, ?_, ⟨.inl rfl, trivial⟩⟩
    · intro a ha b hb _
      obtain rfl := List.mem_singleton.mp ha
      obtain rfl := List.mem_singleton.mp hb
      exact ⟨rfl, rfl⟩
    · intro a ha hnone
      obtain rfl := List.mem_singleton.mp ha
      refine hnone _ ⟨uclientFetch, List.mem_cons_self, by decide, List.mem_singleton.mpr rfl⟩ rfl
    · intro a ha c hc _ hsrc
      obtain rfl := List.mem_singleton.mp ha
      obtain rfl := List.mem_singleton.mp (hother c hc)
      exact absurd hsrc (by decide)
    · intro a ha _ c hc _ _ hprio
      obtain rfl := List.mem_singleton.mp ha
      obtain rfl := List.mem_singleton.mp (hother c hc)
      exact absurd hprio (by decide)
  have hfresh : ∀ q ∈ (install allExist uclientFetch bare).packages, q.name ≠ wgetSsl.name := by
    intro q hq
    have hq : q ∈ [uclientFetch] := hq
    obtain rfl := List.mem_singleton.mp hq
    decide
  refine @reaches_linksOk allExist _ _ bare rfl ?_
  refine .next (.remove wgetSsl) (.next (.install wgetSsl) (.next (.install uclientFetch) (.start rfl)
    ?_ ⟨fun q hq => absurd hq List.not_mem_nil, rfl⟩) ?_ ⟨hfresh, rfl⟩) hremove ⟨?_, rfl⟩
  · exact installOk_wget (by decide) _
  · exact installOk_wget (by decide) _
  · exact List.mem_cons_of_mem _ List.mem_cons_self

/-- The first of two packages of one priority is removed, and the link stays with it. -/
theorem exists_link_not_ok : ¬ ∀ (exist : System → Bytes → Bool) (applet : Bytes → Prop) (h : History),
    Reaches (fun h => h = ⟨bare, []⟩) (Step exist) (fun _ _ => True) h → LinksOk applet h := by
  intro hall
  have hfresh : ∀ q ∈ (install allExist wgetSsl bare).packages, q.name ≠ wgetOther.name := by
    intro q hq
    have hq : q ∈ [wgetSsl] := hq
    obtain rfl := List.mem_singleton.mp hq
    decide
  have hok := hall allExist (fun _ => True) _
    (.next (.remove wgetSsl) (.next (.install wgetOther) (.next (.install wgetSsl) (.start rfl) trivial
      ⟨fun q hq => absurd hq List.not_mem_nil, rfl⟩) trivial ⟨hfresh, rfl⟩) trivial
      ⟨List.mem_cons_self, rfl⟩)
  have hlink : (remove allExist wgetSsl (install allExist wgetOther (install allExist wgetSsl bare))).link
      (ascii "/usr/bin/wget") = some (ascii "/usr/libexec/wget-ssl") := by
    decide +kernel
  have hdecl : ∀ a, Declared
      (remove allExist wgetSsl (install allExist wgetOther (install allExist wgetSsl bare))).packages a →
      a ∈ wgetOther.alternatives := by
    rintro a ⟨q, hq, ha⟩
    have hq : q ∈ [wgetOther] := hq
    obtain rfl := List.mem_singleton.mp hq
    exact ha
  obtain ⟨b, hb, -, hsrc⟩ := hok.provided _ ⟨wgetOther, List.mem_cons_self, List.mem_singleton.mpr rfl⟩
  obtain rfl := List.mem_singleton.mp (hdecl b hb.1)
  exact absurd (hlink.symm.trans hsrc) (by decide)

end NeonWrt.BaseFiles
