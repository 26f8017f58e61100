import Mathlib.Data.List.Infix
import NeonWrt.Lib.CString

/-!
# Shell wildcard patterns

`glob` is the matching of `fnmatch` for patterns made of ordinary characters,
`*` and `?`. Patterns with bracket expressions or backslashes are outside of
what it describes.
-/

namespace NeonWrt.Lib

/-- The wildcard `*`. -/
def star : UInt8 := 42

/-- The wildcard `?`. -/
def qmark : UInt8 := 63

/-- Whether a name matches a pattern. -/
def glob : Bytes → Bytes → Bool
  | [], name => name.isEmpty
  | p :: ps, name =>
    if p = star then name.tails.any (glob ps)
    else match name with
      | [] => false
      | c :: cs => (p == qmark || p == c) && glob ps cs

/-- A pattern without wildcards. -/
def Literal (p : Bytes) : Prop := star ∉ p ∧ qmark ∉ p

theorem Literal.append {p q : Bytes} (hp : Literal p) (hq : Literal q) : Literal (p ++ q) := by
  simp only [Literal, List.mem_append, not_or] at *
  exact ⟨⟨hp.1, hq.1⟩, hp.2, hq.2⟩

theorem Literal.cons {c : UInt8} {p : Bytes} (h : Literal (c :: p)) :
    c ≠ star ∧ c ≠ qmark ∧ Literal p := by
  simp only [Literal, List.mem_cons, not_or] at h
  exact ⟨fun hc => h.1.1 hc.symm, fun hc => h.2.1 hc.symm, h.1.2, h.2.2⟩

theorem glob_star (p name : Bytes) :
    glob (star :: p) name = true ↔ ∃ skipped rest, name = skipped ++ rest ∧ glob p rest = true := by
  simp only [glob, if_true, List.any_eq_true, List.mem_tails]
  constructor
  · rintro ⟨rest, ⟨skipped, rfl⟩, h⟩
    exact ⟨skipped, rest, rfl, h⟩
  · rintro ⟨skipped, rest, rfl, h⟩
    exact ⟨rest, ⟨skipped, rfl⟩, h⟩

/-- A literal prefix of the pattern is a prefix of the name. -/
theorem glob_literal_append {lit : Bytes} (hlit : Literal lit) (p name : Bytes) :
    glob (lit ++ p) name = true ↔ ∃ rest, name = lit ++ rest ∧ glob p rest = true := by
  induction lit generalizing name with
  | nil => simp
  | cons c lit ih =>
    obtain ⟨hstar, hqmark, hlit⟩ := hlit.cons
    cases name with
    | nil => simp [glob, hstar]
    | cons d name =>
      have hstep : glob (c :: lit ++ p) (d :: name) = true ↔ c = d ∧ glob (lit ++ p) name = true := by
        simp [glob, hstar, hqmark]
      rw [hstep, ih hlit]
      constructor
      · rintro ⟨rfl, rest, rfl, h⟩
        exact ⟨rest, rfl, h⟩
      · rintro ⟨rest, heq, h⟩
        simp only [List.cons_append, List.cons.injEq] at heq
        obtain ⟨rfl, rfl⟩ := heq
        exact ⟨rfl, rest, rfl, h⟩

theorem glob_literal {lit : Bytes} (hlit : Literal lit) (name : Bytes) :
    glob lit name = true ↔ name = lit := by
  have h := glob_literal_append hlit [] name
  rw [List.append_nil] at h
  rw [h]
  constructor
  · rintro ⟨rest, rfl, hrest⟩
    simp only [glob, List.isEmpty_iff] at hrest
    simp [hrest]
  · rintro rfl
    exact ⟨[], by simp, by simp [glob]⟩

theorem glob_star_between {front back : Bytes} (hfront : Literal front) (hback : Literal back)
    (name : Bytes) :
    glob (front ++ star :: back) name = true ↔ ∃ mid, name = front ++ mid ++ back := by
  rw [glob_literal_append hfront]
  constructor
  · rintro ⟨rest, rfl, h⟩
    obtain ⟨mid, tail, rfl, htail⟩ := (glob_star back rest).mp h
    rw [glob_literal hback] at htail
    exact ⟨mid, by rw [htail, List.append_assoc]⟩
  · rintro ⟨mid, rfl⟩
    refine ⟨mid ++ back, by rw [List.append_assoc], ?_⟩
    exact (glob_star back _).mpr ⟨mid, back, rfl, (glob_literal hback back).mpr rfl⟩

end NeonWrt.Lib
