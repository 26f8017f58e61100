import NeonWrt.Lib.Glob

/-!
# Unit and registry names of neon-procd

neon-procd names a transient systemd unit after a service and an instance, and
keeps one registry file per service. Both names go through `sanitize`, which
cuts a name to its buffer and writes a dash for every character it does not
like. Two different names may therefore be shown alike, and the dash that joins
service and instance may be taken for a dash of either name.

This file states which names coincide in terms of the original names: `Agree`
compares two names as far as they are shown and up to characters that become a
dash, `Clash` says that two (service, instance) pairs get one unit, and `Covers`
that the wildcard of one service selects the unit of another pair.
-/

namespace NeonWrt.Procd

open Lib

/-- `UNIT_PREFIX`. -/
def unitPrefix : Bytes := ascii "neon-procd-"

/-- `REGISTRY_DIR`. -/
def registryDir : Bytes := ascii "/run/neon-procd/services"

/-- The character that stands for every other one: `-`. -/
def dash : UInt8 := 45

/-- A character that `sanitize` keeps. -/
def keeps (c : UInt8) : Bool := isalnum c || c == 95 || c == dash || c == 46

/-- One character of `sanitize`'s output. -/
def sanitizeChar (c : UInt8) : UInt8 := if keeps c then c else dash

/-- The loop of `sanitize`, with `j` characters written so far. -/
def sanitizeLoop (outsz : ℕ) : ℕ → Bytes → Bytes
  | _, [] => []
  | j, c :: rest =>
    if j + 1 < outsz then sanitizeChar c :: sanitizeLoop outsz (j + 1) rest else []

/-- `sanitize`: the name as it is written into a buffer of `outsz` bytes. No
caller passes a null pointer, which the source treats as the empty string. -/
def sanitize (name : CStr) (outsz : ℕ) : Bytes :=
  sanitizeLoop outsz 0 (if name.bytes = [] then ascii "unnamed" else name.bytes)

/-- `unit_name`, whose callers all pass a buffer of 320 bytes. -/
def unitName (service inst : CStr) : Bytes :=
  snprintf 320 (unitPrefix ++ sanitize service 128 ++ ascii "-" ++ sanitize inst 128 ++
    ascii ".service")

/-- `registry_path`, whose callers all pass a buffer of 384 bytes. -/
def registryPath (service : CStr) : Bytes :=
  snprintf 384 (registryDir ++ ascii "/" ++ sanitize service 128 ++ ascii ".json")

/-- The wildcard that selects a service's units, printed into `size` bytes. -/
def servicePattern (size : ℕ) (service : CStr) : Bytes :=
  snprintf size (unitPrefix ++ sanitize service 128 ++ ascii "-*.service")

/-- The part of a name that `sanitize` looks at when it fills a 128-byte buffer. -/
def shown (name : CStr) : Bytes :=
  (if name.bytes = [] then ascii "unnamed" else name.bytes).take 127

/-- A character that is written as a dash. -/
def DashLike (c : UInt8) : Prop := (isalnum c || c == 95 || c == 46) = false

/-- Two characters that are the same, or both written as a dash. -/
def SameChar (a b : UInt8) : Prop := a = b ∨ (DashLike a ∧ DashLike b)

/-- Two strings that agree character by character, up to those written as a dash. -/
def Agree (xs ys : Bytes) : Prop := List.Forall₂ SameChar xs ys

instance (a b : UInt8) : Decidable (SameChar a b) := by
  unfold SameChar DashLike
  infer_instance

theorem sanitizeChar_of_dashLike {c : UInt8} (h : DashLike c) : sanitizeChar c = dash := by
  simp only [DashLike, Bool.or_eq_false_iff] at h
  by_cases hc : c = dash
  · simp [sanitizeChar, hc]
  · simp [sanitizeChar, keeps, h.1.1, h.1.2, h.2, hc]

theorem sanitizeChar_of_not_dashLike {c : UInt8} (h : ¬ DashLike c) : sanitizeChar c = c := by
  have hc : (isalnum c || c == 95 || c == 46) = true := by
    rwa [DashLike, Bool.not_eq_false] at h
  have hk : keeps c = true := by
    simp only [keeps, Bool.or_eq_true] at hc ⊢
    tauto
  simp [sanitizeChar, hk]

theorem dashLike_dash : DashLike dash := by unfold DashLike dash; decide

theorem sanitizeChar_eq_iff (a b : UInt8) : sanitizeChar a = sanitizeChar b ↔ SameChar a b := by
  by_cases ha : DashLike a <;> by_cases hb : DashLike b
  · simp [sanitizeChar_of_dashLike, SameChar, ha, hb]
  · rw [sanitizeChar_of_dashLike ha, sanitizeChar_of_not_dashLike hb]
    constructor
    · rintro rfl
      exact absurd dashLike_dash hb
    · rintro (rfl | ⟨-, h⟩)
      · exact absurd ha hb
      · exact absurd h hb
  · rw [sanitizeChar_of_not_dashLike ha, sanitizeChar_of_dashLike hb]
    constructor
    · rintro rfl
      exact absurd dashLike_dash ha
    · rintro (rfl | ⟨h, -⟩)
      · exact absurd hb ha
      · exact absurd h ha
  · rw [sanitizeChar_of_not_dashLike ha, sanitizeChar_of_not_dashLike hb]
    simp [SameChar, ha]

theorem agree_iff_map_eq (xs ys : Bytes) :
    Agree xs ys ↔ xs.map sanitizeChar = ys.map sanitizeChar := by
  rw [← List.forall₂_eq_eq_eq, List.forall₂_map_left_iff, List.forall₂_map_right_iff]
  simp only [sanitizeChar_eq_iff, Agree]

@[simp] theorem sanitizeChar_comp_sanitizeChar : sanitizeChar ∘ sanitizeChar = sanitizeChar := by
  funext c
  by_cases hc : DashLike c
  · simp [Function.comp, sanitizeChar_of_dashLike, hc, dashLike_dash]
  · simp [Function.comp, sanitizeChar_of_not_dashLike, hc]

@[simp] theorem sanitizeChar_dash : sanitizeChar dash = dash :=
  sanitizeChar_of_dashLike dashLike_dash

theorem sanitizeLoop_eq (outsz j : ℕ) (b : Bytes) :
    sanitizeLoop outsz j b = (b.take (outsz - 1 - j)).map sanitizeChar := by
  induction b generalizing j with
  | nil => simp [sanitizeLoop]
  | cons c rest ih =>
    by_cases hj : j + 1 < outsz
    · have hsplit : outsz - 1 - j = (outsz - 1 - (j + 1)) + 1 := by omega
      rw [sanitizeLoop, if_pos hj, ih, hsplit, List.take_succ_cons, List.map_cons]
    · have hzero : outsz - 1 - j = 0 := by omega
      simp [sanitizeLoop, hj, hzero]

/-- The one spec lemma for `sanitize`: it writes what is shown of the name. -/
theorem sanitize_eq (name : CStr) : sanitize name 128 = (shown name).map sanitizeChar := by
  simp [sanitize, sanitizeLoop_eq, shown]

theorem length_sanitize_le (name : CStr) : (sanitize name 128).length ≤ 127 := by
  rw [sanitize_eq, List.length_map, shown]
  exact List.length_take_le _ _

theorem unitName_eq (service inst : CStr) :
    unitName service inst = unitPrefix ++ (sanitize service 128 ++ dash ::
      sanitize inst 128) ++ ascii ".service" := by
  have hs := length_sanitize_le service
  have hi := length_sanitize_le inst
  have hp : unitPrefix.length = 11 := by decide
  have hx : (ascii ".service").length = 8 := by decide
  have hd : ascii "-" = [dash] := by decide
  rw [unitName, snprintf_of_length_lt]
  · simp [hd]
  · simp only [List.length_append, hp, hx, hd, List.length_singleton]
    omega

theorem registryPath_eq (service : CStr) :
    registryPath service = registryDir ++ ascii "/" ++ sanitize service 128 ++ ascii ".json" := by
  have hs := length_sanitize_le service
  have hp : registryDir.length = 24 := by decide
  have hx : (ascii ".json").length = 5 := by decide
  have hd : (ascii "/").length = 1 := by decide
  refine snprintf_of_length_lt ?_
  simp only [List.length_append, hp, hx, hd]
  omega

theorem servicePattern_eq {size : ℕ} (hsize : 256 ≤ size) (service : CStr) :
    servicePattern size service = (unitPrefix ++ sanitize service 128 ++ [dash]) ++
      star :: ascii ".service" := by
  have hs := length_sanitize_le service
  have hp : unitPrefix.length = 11 := by decide
  have hx : ascii "-*.service" = [dash] ++ star :: ascii ".service" := by decide
  have hl : (ascii ".service").length = 8 := by decide
  rw [servicePattern, snprintf_of_length_lt]
  · simp [hx]
  · simp only [hx, List.length_append, List.length_cons, hp, hl, List.length_nil]
    omega

/-- The dash between the names of `(s, i)` falls inside the service name `t`:
`t` goes on after `s`, and `i` starts with the rest of `t`. -/
def Shifted (s i t j : CStr) : Prop :=
  ∃ x, Agree (shown t) (shown s ++ dash :: x) ∧ Agree (shown i) (x ++ dash :: shown j)

/-- The pairs `(s, i)` and `(t, j)` are given one unit name. -/
def Clash (s i t j : CStr) : Prop :=
  (Agree (shown s) (shown t) ∧ Agree (shown i) (shown j)) ∨ Shifted s i t j ∨ Shifted t j s i

/-- The wildcard of service `a` selects the unit of `(s, i)`: the services agree,
or `s` goes on after `a` with a dash, or `a` goes on after `s` with what `i`
starts with. -/
def Covers (a s i : CStr) : Prop :=
  Agree (shown a) (shown s) ∨ (∃ x, Agree (shown s) (shown a ++ dash :: x)) ∨
    ∃ x y, Agree (shown a) (shown s ++ dash :: x) ∧ Agree (shown i) (x ++ dash :: y)

/-- What follows a separator in sanitized text is itself sanitized. -/
private theorem map_sanitizeChar_eq_self {xs front x : Bytes}
    (h : xs.map sanitizeChar = front.map sanitizeChar ++ dash :: x) : x.map sanitizeChar = x := by
  have hagain := congrArg (List.map sanitizeChar) h
  rw [List.map_map, sanitizeChar_comp_sanitizeChar, h] at hagain
  simpa using hagain.symm

private theorem shifted_iff (s i t j : CStr) :
    Shifted s i t j ↔ ∃ x, sanitize t 128 = sanitize s 128 ++ dash :: x ∧
      sanitize i 128 = x ++ dash :: sanitize j 128 := by
  simp only [Shifted, agree_iff_map_eq, sanitize_eq, List.map_append, List.map_cons,
    sanitizeChar_dash]
  constructor
  · rintro ⟨x, ht, hi⟩
    exact ⟨x.map sanitizeChar, ht, hi⟩
  · rintro ⟨x, ht, hi⟩
    have hx := map_sanitizeChar_eq_self ht
    exact ⟨x, by rw [hx]; exact ht, by rw [hx]; exact hi⟩

private theorem covers_iff (a s i : CStr) :
    Covers a s i ↔ ∃ mid, sanitize s 128 ++ dash :: sanitize i 128 =
      sanitize a 128 ++ dash :: mid := by
  simp only [Covers, agree_iff_map_eq, append_cons_eq_append_cons_iff, sanitize_eq,
    List.map_append, List.map_cons, sanitizeChar_dash]
  constructor
  · rintro (h | ⟨x, h⟩ | ⟨x, y, ha, hi⟩)
    · exact ⟨_, Or.inl ⟨h.symm, rfl⟩⟩
    · exact ⟨_, Or.inr (Or.inr ⟨_, h, rfl⟩)⟩
    · exact ⟨_, Or.inr (Or.inl ⟨_, ha, hi⟩)⟩
  · rintro ⟨mid, ⟨h, -⟩ | ⟨x, ha, hi⟩ | ⟨x, hs, -⟩⟩
    · exact Or.inl h.symm
    · have hx := map_sanitizeChar_eq_self ha
      have hmid : mid.map sanitizeChar = mid := by
        rw [← hx] at hi
        exact map_sanitizeChar_eq_self hi
      exact Or.inr (Or.inr ⟨x, mid, by rw [hx]; exact ha, by rw [hx, hmid]; exact hi⟩)
    · have hx := map_sanitizeChar_eq_self hs
      exact Or.inr (Or.inl ⟨x, by rw [hx]; exact hs⟩)

/-- Two pairs get the same unit name exactly when their names clash. -/
theorem unitName_eq_iff (s i t j : CStr) : unitName s i = unitName t j ↔ Clash s i t j := by
  rw [unitName_eq, unitName_eq, List.append_left_inj, List.append_right_inj,
    append_cons_eq_append_cons_iff, Clash, shifted_iff, shifted_iff, agree_iff_map_eq,
    agree_iff_map_eq, ← sanitize_eq, ← sanitize_eq, ← sanitize_eq, ← sanitize_eq]

/-- Two services share a registry file exactly when what is shown of them agrees. -/
theorem registryPath_eq_iff (s t : CStr) :
    registryPath s = registryPath t ↔ Agree (shown s) (shown t) := by
  rw [registryPath_eq, registryPath_eq, List.append_left_inj, List.append_right_inj, sanitize_eq,
    sanitize_eq, agree_iff_map_eq]

theorem keeps_sanitizeChar (c : UInt8) : keeps (sanitizeChar c) = true := by
  by_cases hc : keeps c
  · simp [sanitizeChar, hc]
  · have hdash : keeps dash = true := by decide
    simp [sanitizeChar, hc, hdash]

theorem literal_sanitize (name : CStr) : Literal (sanitize name 128) := by
  have hnot {w : UInt8} (hw : keeps w = false) : w ∉ sanitize name 128 := by
    rw [sanitize_eq, List.mem_map]
    rintro ⟨c, -, rfl⟩
    simp [keeps_sanitizeChar] at hw
  exact ⟨hnot (by decide), hnot (by decide)⟩

/-- The wildcard of a service selects exactly the units it covers. -/
theorem glob_servicePattern_iff {size : ℕ} (hsize : 256 ≤ size) (a s i : CStr) :
    glob (servicePattern size a) (unitName s i) = true ↔ Covers a s i := by
  have hfront : Literal (unitPrefix ++ sanitize a 128 ++ [dash]) :=
    Literal.append (Literal.append (by unfold Literal; decide) (literal_sanitize a))
      (by unfold Literal; decide)
  have hback : Literal (ascii ".service") := by unfold Literal; decide
  rw [servicePattern_eq hsize, glob_star_between hfront hback, unitName_eq, covers_iff]
  refine exists_congr fun mid => ?_
  rw [List.append_left_inj, List.append_assoc, List.append_assoc, List.append_right_inj,
    List.singleton_append]

theorem agree_refl (xs : Bytes) : Agree xs xs := (agree_iff_map_eq _ _).mpr rfl

/-- A service's wildcard covers its own units, whatever their names. -/
theorem covers_self (a i : CStr) : Covers a a i := Or.inl (agree_refl _)

theorem clash_self (s i : CStr) : Clash s i s i := Or.inl ⟨agree_refl _, agree_refl _⟩

/-- Services that share a registry file cover each other's units. -/
theorem covers_of_registryPath_eq {a s : CStr} (h : registryPath a = registryPath s) (i : CStr) :
    Covers a s i :=
  Or.inl ((registryPath_eq_iff a s).mp h)

end NeonWrt.Procd
