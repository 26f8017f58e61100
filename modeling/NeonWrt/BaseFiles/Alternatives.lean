import NeonWrt.Lib.Run
import NeonWrt.Lib.Shell
import Mathlib.Data.List.Sort

/-!
# Alternatives of packages

Packages declare alternatives, a priority, a target and a source each, and
`update_alternatives` of `functions.sh` keeps the targets as links to sources.
It is called after a package is installed and before one is removed, with the
lists of all installed packages at hand, and changes the links of that package's
targets only.
-/

namespace NeonWrt.BaseFiles

open Lib Shell

/-- The separator in a declaration. -/
def colon : UInt8 := 58

/-- A declaration, whose priority is a number and whose source has no separator in it. -/
structure Alternative where
  prioText : Bytes
  target : Bytes
  src : Bytes
  prio : ℤ
  number_eq : number prioText = some prio
  colon_notMem : colon ∉ src

/-- The word for an alternative in the list of its package. -/
def Alternative.word (a : Alternative) : Bytes := a.prioText ++ colon :: (a.target ++ colon :: a.src)

/-- A package and its list of alternatives. -/
structure Package where
  name : Bytes
  alternatives : List Alternative

/-- The installed packages, in the order of their lists, and the symbolic links of the targets. -/
structure System where
  packages : List Package
  link : Bytes → Option Bytes

/-- The source that is linked when no alternative is left. -/
def busybox : Bytes := ascii "/bin/busybox"

/-- `best_prio`, `best_src` and the variable `target`, which is not local. -/
structure Best where
  prio : Bytes
  src : Bytes
  target : Bytes

/-- The body of the inner loop of `update_alternatives`. -/
def scanWord (pkgTarget pkgSrc : Bytes) (b : Best) (alt : Bytes) : Best :=
  let prio := beforeFirst colon alt
  let target := beforeLast colon (afterFirst colon alt)
  let src := afterLast colon alt
  if target = pkgTarget ∧ src ≠ pkgSrc ∧ lessThan b.prio prio then ⟨prio, src, target⟩
  else { b with target := target }

/-- Both inner loops, over the words of all lists. -/
def scan (pkgTarget pkgSrc : Bytes) (packages : List Package) (b : Best) : Best :=
  packages.foldl (fun b p => (p.alternatives.map Alternative.word).foldl (scanWord pkgTarget pkgSrc) b) b

/-- What `update_alternatives` is called for. -/
inductive Action where
  | install
  | remove

section Script

-- `exist s target` is what `[ -e "$root/$target" ]` says; the kernel follows the links
variable (exist : System → Bytes → Bool) (action : Action)

/-- The test that guards the scan. It looks at the target of the last word that was scanned, which
is empty at first: `$root/` exists. -/
def Scans (s : System) (target : Bytes) : Prop := target = [] ∨ exist s target = true

instance (s : System) (target : Bytes) : Decidable (Scans exist s target) :=
  inferInstanceAs (Decidable (_ ∨ _))

/-- The body of the outer loop of `update_alternatives`, for a word of the package's own list. -/
def updateWord (s : System) (target pkgAlt : Bytes) : System × Bytes :=
  let pkgPrio := beforeFirst colon pkgAlt
  let pkgTarget := beforeLast colon (afterFirst colon pkgAlt)
  let pkgSrc := afterLast colon pkgAlt
  let start : Best := ⟨ascii "0", busybox, target⟩
  let best := if Scans exist s target then scan pkgTarget pkgSrc s.packages start else start
  let src := match action with
    | .install => pkgSrc
    | .remove => best.src
  if lessThan best.prio pkgPrio then
    ({ s with link := Function.update s.link pkgTarget (some src) }, best.target)
  else (s, best.target)

/-- The outer loop. -/
def updateWords : List Bytes → System → Bytes → System
  | [], s, _ => s
  | w :: ws, s, target =>
    let r := updateWord exist action s target w
    updateWords ws r.1 r.2

/-- `update_alternatives`, in a shell of its own. -/
def updateAlternatives (p : Package) (s : System) : System :=
  updateWords exist action (p.alternatives.map Alternative.word) s []

end Script

/-- A package with the files it brings, its list among those of the others. -/
def withPackage (p : Package) (s : System) : System :=
  { s with packages := s.packages.orderedInsert (fun p q => p.name ≤ q.name) p }

/-- A new package, for which `default_postinst` is called. -/
def install (exist : System → Bytes → Bool) (p : Package) (s : System) : System :=
  updateAlternatives exist .install p (withPackage p s)

/-- `default_prerm`, after which the package goes with its files. -/
def remove (exist : System → Bytes → Bool) (p : Package) (s : System) : System :=
  let s := updateAlternatives exist .remove p s
  { s with packages := s.packages.filter fun q => q.name ≠ p.name }

namespace Alternative

variable (a : Alternative)

theorem colon_notMem_prioText : colon ∉ a.prioText :=
  not_mem_of_number a.number_eq (by decide) (by decide) (by decide)

@[simp] theorem prio_word : beforeFirst colon a.word = a.prioText :=
  beforeFirst_append a.colon_notMem_prioText

@[simp] theorem target_word : beforeLast colon (afterFirst colon a.word) = a.target := by
  rw [word, afterFirst_append a.colon_notMem_prioText, beforeLast_append a.colon_notMem]

@[simp] theorem src_word : afterLast colon a.word = a.src := by
  have hword : a.word = (a.prioText ++ colon :: a.target) ++ colon :: a.src := by
    simp [word]
  rw [hword, afterLast_append a.colon_notMem]

end Alternative

/-- The alternative is on the list of an installed package. -/
def Declared (packages : List Package) (a : Alternative) : Prop :=
  ∃ p ∈ packages, a ∈ p.alternatives

/-- Another source for the same target. -/
def Rival (packages : List Package) (a c : Alternative) : Prop :=
  Declared packages c ∧ c.target = a.target ∧ c.src ≠ a.src

/-- The best priority above zero among other sources, and a source that has it. -/
structure BestOf (packages : List Package) (a : Alternative) (x : ℤ) (src : Bytes) : Prop where
  le : ∀ c, Rival packages a c → c.prio ≤ x
  attained : x = 0 ∧ src = busybox ∨ ∃ c, Rival packages a c ∧ c.prio = x ∧ c.src = src

section Scan

variable {t src : Bytes}

/-- The scan of one list takes the best word that is better than what was there. -/
theorem foldl_scanWord (as : List Alternative) {b : Best} {x : ℤ} (hb : number b.prio = some x) :
    ∃ y, number ((as.map Alternative.word).foldl (scanWord t src) b).prio = some y ∧ x ≤ y ∧
      (∀ c ∈ as, c.target = t → c.src ≠ src → c.prio ≤ y) ∧
      (y = x ∧ ((as.map Alternative.word).foldl (scanWord t src) b).src = b.src ∨
        ∃ c ∈ as, c.target = t ∧ c.src ≠ src ∧ c.prio = y ∧
          c.src = ((as.map Alternative.word).foldl (scanWord t src) b).src) := by
  induction as generalizing b x with
  | nil => exact ⟨x, hb, le_rfl, by simp, .inl ⟨rfl, rfl⟩⟩
  | cons a as ih =>
    rw [List.map_cons, List.foldl_cons]
    by_cases htake : a.target = t ∧ a.src ≠ src ∧ x < a.prio
    · obtain ⟨htarget, hsrc, hlt⟩ := htake
      have hstep : scanWord t src b a.word = ⟨a.prioText, a.src, a.target⟩ := by
        rw [scanWord, if_pos]
        · simp
        · simpa [htarget, hsrc] using (lessThan_iff hb a.number_eq).mpr hlt
      rw [hstep]
      obtain ⟨y, hy, hle, hall, hfrom⟩ := @ih ⟨a.prioText, a.src, a.target⟩ a.prio a.number_eq
      refine ⟨y, hy, hlt.le.trans hle, ?_, ?_⟩
      · intro c hc hct hcs
        rcases List.mem_cons.mp hc with rfl | hc
        · exact hle
        · exact hall c hc hct hcs
      · rcases hfrom with ⟨rfl, heq⟩ | ⟨c, hc, hct, hcs, hcy, heq⟩
        · exact .inr ⟨a, List.mem_cons_self, htarget, hsrc, rfl, heq.symm⟩
        · exact .inr ⟨c, List.mem_cons_of_mem _ hc, hct, hcs, hcy, heq⟩
    · have hstep : scanWord t src b a.word = { b with target := a.target } := by
        rw [scanWord, if_neg]
        · simp
        · simpa [lessThan_iff hb a.number_eq] using htake
      rw [hstep]
      obtain ⟨y, hy, hle, hall, hfrom⟩ := @ih { b with target := a.target } x hb
      refine ⟨y, hy, hle, ?_, ?_⟩
      · intro c hc hct hcs
        rcases List.mem_cons.mp hc with rfl | hc
        · have hxc : ¬ x < c.prio := fun hlt => htake ⟨hct, hcs, hlt⟩
          omega
        · exact hall c hc hct hcs
      · refine hfrom.imp_right ?_
        rintro ⟨c, hc, hrest⟩
        exact ⟨c, List.mem_cons_of_mem _ hc, hrest⟩

theorem scan_from (packages : List Package) {b : Best} {x : ℤ} (hb : number b.prio = some x) :
    ∃ y, number (scan t src packages b).prio = some y ∧ x ≤ y ∧
      (∀ c, Declared packages c → c.target = t → c.src ≠ src → c.prio ≤ y) ∧
      (y = x ∧ (scan t src packages b).src = b.src ∨
        ∃ c, Declared packages c ∧ c.target = t ∧ c.src ≠ src ∧ c.prio = y ∧
          c.src = (scan t src packages b).src) := by
  induction packages generalizing b x with
  | nil => exact ⟨x, hb, le_rfl, by simp [Declared], .inl ⟨rfl, rfl⟩⟩
  | cons p packages ih =>
    rw [scan, List.foldl_cons]
    obtain ⟨y, hy, hle, hall, hfrom⟩ := @foldl_scanWord t src p.alternatives b x hb
    obtain ⟨z, hz, hle', hall', hfrom'⟩ := ih hy
    rw [scan] at hz hfrom'
    refine ⟨z, hz, hle.trans hle', ?_, ?_⟩
    · rintro c ⟨q, hq, hc⟩ hct hcs
      rcases List.mem_cons.mp hq with rfl | hq
      · exact (hall c hc hct hcs).trans hle'
      · exact hall' c ⟨q, hq, hc⟩ hct hcs
    · -- the last list that raised the priority gave the source
      rcases hfrom' with ⟨rfl, heq⟩ | ⟨c, ⟨q, hq, hc⟩, hrest⟩
      · rw [heq]
        refine hfrom.imp_right ?_
        rintro ⟨c, hc, hrest⟩
        exact ⟨c, ⟨p, List.mem_cons_self, hc⟩, hrest⟩
      · exact .inr ⟨c, ⟨q, List.mem_cons_of_mem _ hq, hc⟩, hrest⟩

/-- The scan finds the best of the other sources. -/
theorem scan_best (packages : List Package) (a : Alternative) (target : Bytes) :
    ∃ x, number (scan a.target a.src packages ⟨ascii "0", busybox, target⟩).prio = some x ∧
      BestOf packages a x (scan a.target a.src packages ⟨ascii "0", busybox, target⟩).src := by
  obtain ⟨x, hx, -, hall, hfrom⟩ := @scan_from a.target a.src packages
    ⟨ascii "0", busybox, target⟩ 0 (show number (ascii "0") = some 0 by decide)
  refine ⟨x, hx, ⟨?_, ?_⟩⟩
  · rintro c ⟨hc, hct, hcs⟩
    exact hall c hc hct hcs
  · refine hfrom.imp_right ?_
    rintro ⟨c, hc, hct, hcs, hcx, heq⟩
    exact ⟨c, ⟨hc, hct, hcs⟩, hcx, heq⟩

end Scan

section Links

variable (exist : System → Bytes → Bool) (action : Action)

/-- The scan is made for every word of the list. -/
def AllScanned : List Bytes → System → Bytes → Prop
  | [], _, _ => True
  | w :: ws, s, target =>
    Scans exist s target ∧
      AllScanned ws (updateWord exist action s target w).1 (updateWord exist action s target w).2

/-- What a target is linked to for an alternative, given the best of the other sources. -/
def linked (a : Alternative) (src : Bytes) : Bytes :=
  match action with
  | .install => a.src
  | .remove => src

variable {exist action}

theorem updateWord_word {s : System} {target : Bytes} (a : Alternative)
    (hscan : Scans exist s target) : ∃ x src target', BestOf s.packages a x src ∧
      updateWord exist action s target a.word =
        (if x < a.prio then
          { s with link := Function.update s.link a.target (some (linked action a src)) }
        else s, target') := by
  obtain ⟨x, hx, hbest⟩ := scan_best s.packages a target
  refine ⟨x, _, (scan a.target a.src s.packages ⟨ascii "0", busybox, target⟩).target, hbest, ?_⟩
  rw [updateWord.eq_def]
  simp only [Alternative.prio_word, Alternative.target_word, Alternative.src_word, if_pos hscan,
    lessThan_iff hx a.number_eq, linked]
  split_ifs
  · rfl
  · rfl

/-- A link is changed only for an alternative that beats all other sources of its target. -/
theorem updateWords_link (as : List Alternative) {s : System} {target : Bytes}
    (hscan : AllScanned exist action (as.map Alternative.word) s target) :
    (updateWords exist action (as.map Alternative.word) s target).packages = s.packages ∧ ∀ t,
      ((updateWords exist action (as.map Alternative.word) s target).link t = s.link t ∧
        ∀ a ∈ as, a.target = t → ∃ x src, BestOf s.packages a x src ∧ a.prio ≤ x) ∨
      ∃ a ∈ as, a.target = t ∧ ∃ x src, BestOf s.packages a x src ∧ x < a.prio ∧
        (updateWords exist action (as.map Alternative.word) s target).link t =
          some (linked action a src) := by
  induction as generalizing s target with
  | nil => exact ⟨rfl, fun t => .inl ⟨rfl, by simp⟩⟩
  | cons a as ih =>
    obtain ⟨hfirst, hrest⟩ := hscan
    obtain ⟨x, src, target', hbest, heq⟩ := @updateWord_word exist action s target a hfirst
    rw [List.map_cons, updateWords]
    simp only [heq] at hrest ⊢
    have hpkgs : ∀ link, (if x < a.prio then { s with link := link } else s).packages = s.packages := by
      intro link
      split_ifs
      · rfl
      · rfl
    obtain ⟨hsame, hlink⟩ := ih hrest
    rw [hpkgs] at hsame hlink
    refine ⟨hsame, fun t => ?_⟩
    rcases hlink t with ⟨hkept, hno⟩ | ⟨c, hc, hct, hchange⟩
    · by_cases hset : a.target = t ∧ x < a.prio
      · -- no later word changes what this one links
        obtain ⟨rfl, hlt⟩ := hset
        refine .inr ⟨a, List.mem_cons_self, rfl, x, src, hbest, hlt, ?_⟩
        rw [hkept, if_pos hlt]
        exact Function.update_self ..
      · refine .inl ⟨?_, ?_⟩
        · rw [hkept]
          split_ifs with hlt
          · exact Function.update_of_ne (fun heq => hset ⟨heq.symm, hlt⟩) ..
          · rfl
        · intro c hc hct
          rcases List.mem_cons.mp hc with rfl | hc
          · exact ⟨x, src, hbest, not_lt.mp fun hlt => hset ⟨hct, hlt⟩⟩
          · exact hno c hc hct
    · exact .inr ⟨c, List.mem_cons_of_mem _ hc, hct, hchange⟩

end Links

end NeonWrt.BaseFiles
