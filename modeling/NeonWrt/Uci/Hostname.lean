import Mathlib.Data.List.DropRight
import NeonWrt.Lib.CString

/-!
# The hostname handler

`translate-hostname` tests the configured name in the shell, replaces
`/etc/hostname`, and then has `neon-uci set-hostname` test the name again before
it goes to the kernel. The two tests agree on the characters, but only the second
one has a bound on the length. A longer name is refused after the file has been
replaced.

The shell also drops the newlines a configured value ends in, so that what is set
is not quite that value.
-/

namespace NeonWrt.Uci

open Lib

/-- What the surroundings make of the handler: `sysconf(_SC_HOST_NAME_MAX)`, the
commands of `atomic_write` that succeed, and the answer of the kernel. -/
structure HostEnv where
  hostNameMax : ℤ
  mkdir : Bool
  cat : Bool
  chmod : Bool
  mv : Bool
  sethostname : Bytes → Bool

/-- The contents of `/etc/hostname`, `none` if there is no such file, and the
hostname of the kernel. -/
structure Host where
  hostname : Option Bytes
  kernel : Bytes
  deriving DecidableEq

variable (env : HostEnv)

/-- A command substitution, which drops the newlines at the end. -/
def substitute (output : Bytes) : Bytes := output.rdropWhile (· = 10)

/-- `uci_get`, from the value that `neon-uci get` prints with a newline. -/
def uciGet (configured : Option CStr) (dflt : Bytes) : Bytes :=
  match configured with
  | some v => substitute (v.bytes ++ [10])
  | none => dflt

/-- The characters of a hostname. -/
def hostnameChar (c : UInt8) : Bool := isalnum c || c == 46 || c == 45

/-- The patterns that the handler refuses:
`''`, `*[!A-Za-z0-9.-]*`, `.*`, `-*` and `*-`. -/
def shellRejects (s : Bytes) : Bool :=
  s = [] || s.any (!hostnameChar ·) || s.head? = some 46 || s.head? = some 45 ||
    s.getLast? = some 45

/-- The longest name that `hostname_value_valid` lets pass. -/
def hostnameMax : ℕ := if env.hostNameMax ≤ 0 then 64 else env.hostNameMax.toNat

/-- `hostname_value_valid`. -/
def hostnameValueValid (s : Bytes) : Bool :=
  if s = [] then false
  else if hostnameMax env < s.length then false
  else if s.head? = some 46 ∨ s.head? = some 45 ∨ s.getLast? = some 45 then false
  else s.all hostnameChar

/-- `set_kernel_hostname`. -/
def setKernelHostname (name : Bytes) (h : Host) : Host × ℕ :=
  if !hostnameValueValid env name then (h, 2)
  else if !env.sethostname name then (h, 1)
  else ({ h with kernel := name }, 0)

/-- `atomic_write` of `/etc/hostname`; the shell ends at the first command that fails. -/
def atomicWrite (input : Bytes) (h : Host) : Host × ℕ :=
  if !env.mkdir then (h, 1)
  else if !env.cat then (h, 1)
  else if !env.chmod then (h, 1)
  else if !env.mv then (h, 1)
  else ({ h with hostname := some input }, 0)

/-- `translate-hostname apply`. -/
def translateHostname (configured : Option CStr) (h : Host) : Host × ℕ :=
  let hostnameValue := substitute (uciGet configured (ascii "NeonWrt"))
  if shellRejects hostnameValue then (h, 1)
  else
    let written := atomicWrite env (hostnameValue ++ [10]) h
    if written.2 ≠ 0 then written else setKernelHostname env hostnameValue written.1

/-- The name that is configured. -/
def configuredName (configured : Option CStr) : Bytes :=
  (configured.map CStr.bytes).getD (ascii "NeonWrt")

/-- The handler succeeds and both hostnames are the configured one, or it fails and
the file is as before. -/
def AllOrNothing (configured : Option CStr) (h : Host) : Prop :=
  let result := translateHostname env configured h
  (result.2 = 0 ∧ result.1.hostname = some (configuredName configured ++ [10]) ∧
      result.1.kernel = configuredName configured) ∨
    (result.2 ≠ 0 ∧ result.1.hostname = h.hostname)

/-- The file can be replaced. -/
def Writable : Prop := env.mkdir = true ∧ env.cat = true ∧ env.chmod = true ∧ env.mv = true

/-- The kernel takes the names that pass the test. -/
def KernelTakesValid : Prop := ∀ name, hostnameValueValid env name = true → env.sethostname name = true

variable {env}

theorem hostnameValueValid_iff (s : Bytes) :
    hostnameValueValid env s = true ↔ shellRejects s = false ∧ s.length ≤ hostnameMax env := by
  unfold hostnameValueValid shellRejects
  by_cases hnil : s = []
  · simp [hnil]
  · by_cases hlen : hostnameMax env < s.length
    · simp [hnil, hlen]
    · have hall : s.all hostnameChar = true ↔ s.any (!hostnameChar ·) = false := by
        simp [List.any_eq_false]
      simp only [if_neg hnil, if_neg hlen, not_lt.mp hlen, and_true]
      -- the ends first, then every character
      by_cases hends : s.head? = some 46 ∨ s.head? = some 45 ∨ s.getLast? = some 45
      · rw [if_pos hends]
        simp only [Bool.false_eq_true, false_iff]
        rcases hends with h | h | h <;> simp [h]
      · rw [if_neg hends, hall]
        obtain ⟨hdot, hdash, hlast⟩ : s.head? ≠ some 46 ∧ s.head? ≠ some 45 ∧ s.getLast? ≠ some 45 := by
          tauto
        simp [hnil, hdot, hdash, hlast]

theorem substitute_append_newline (s : Bytes) : substitute (s ++ [10]) = substitute s := by
  simp [substitute]

@[simp] theorem substitute_substitute (s : Bytes) : substitute (substitute s) = substitute s :=
  List.rdropWhile_idempotent _ s

/-- The handler works on the configured name without the newlines at its end. -/
theorem hostnameValue_eq (configured : Option CStr) :
    substitute (uciGet configured (ascii "NeonWrt")) = substitute (configuredName configured) := by
  cases configured with
  | none => rfl
  | some v =>
    rw [uciGet, substitute_append_newline, substitute_substitute]
    rfl

theorem atomicWrite_of_writable (h : Host) (input : Bytes) (hwrite : Writable env) :
    atomicWrite env input h = ({ h with hostname := some input }, 0) := by
  obtain ⟨hmkdir, hcat, hchmod, hmv⟩ := hwrite
  simp [atomicWrite, hmkdir, hcat, hchmod, hmv]

theorem atomicWrite_of_not_writable (h : Host) (input : Bytes) (hwrite : ¬ Writable env) :
    atomicWrite env input h = (h, 1) := by
  unfold atomicWrite
  split_ifs with hmkdir hcat hchmod hmv <;> try rfl
  exact absurd ⟨by simpa using hmkdir, by simpa using hcat, by simpa using hchmod,
    by simpa using hmv⟩ hwrite

/-- The handler is all-or-nothing exactly if the shell rejects the name, the file
cannot be replaced, the name has no newlines to lose and is not too long, or it is
too long and already in the file. -/
theorem all_or_nothing_iff (env : HostEnv) (hkernel : KernelTakesValid env)
    (configured : Option CStr) (h : Host) :
    AllOrNothing env configured h ↔
      shellRejects (substitute (configuredName configured)) = true ∨ ¬ Writable env ∨
        (substitute (configuredName configured) = configuredName configured ∧
          (configuredName configured).length ≤ hostnameMax env) ∨
        (hostnameMax env < (substitute (configuredName configured)).length ∧
          h.hostname = some (substitute (configuredName configured) ++ [10])) := by
  rw [AllOrNothing, translateHostname, hostnameValue_eq]
  generalize configuredName configured = name
  by_cases hreject : shellRejects (substitute name) = true
  · simp [hreject]
  -- a name that passes the shell
  · by_cases hwrite : Writable env
    · simp only [hreject, Bool.false_eq_true, if_false, atomicWrite_of_writable _ _ hwrite,
        ne_eq, not_true_eq_false, hwrite, false_or, setKernelHostname]
      -- both are set, and they agree if nothing was trimmed
      by_cases hlen : (substitute name).length ≤ hostnameMax env
      · have hvalid : hostnameValueValid env (substitute name) = true :=
          (hostnameValueValid_iff _).mpr ⟨by simpa using hreject, hlen⟩
        simp only [hvalid, hkernel _ hvalid, Bool.not_true, Bool.false_eq_true, if_false,
          not_lt.mpr hlen, false_and, or_false, Option.some.injEq, List.append_cancel_right_eq,
          not_true_eq_false, true_and]
        constructor
        · exact fun heq => ⟨heq.1, heq.1 ▸ hlen⟩
        · exact fun heq => ⟨heq.1, heq.1⟩
      · have hinvalid : hostnameValueValid env (substitute name) = false := by
          rw [← Bool.not_eq_true, hostnameValueValid_iff]
          exact fun hvalid => hlen hvalid.2
        have hlong : ¬ (substitute name = name ∧ name.length ≤ hostnameMax env) := by
          rintro ⟨heq, hle⟩
          exact hlen (by rw [heq]; exact hle)
        -- the file is replaced and the kernel refuses: only an unchanged file is all right
        simp only [hinvalid, hlong, not_le.mp hlen, Bool.not_false, if_true, false_or, true_and]
        simp [eq_comm]
    · simp [hreject, hwrite, atomicWrite_of_not_writable _ _ hwrite]

/-- Everything works, and hostnames have at most 64 characters. -/
def quietHost : HostEnv := ⟨64, true, true, true, true, fun _ => true⟩

/-- A host called `old`. -/
def oldHost : Host := ⟨some (ascii "old\n"), ascii "old"⟩

/-- A short name is set in both places. -/
theorem all_or_nothing_router :
    AllOrNothing quietHost (some (CStr.lit "router")) oldHost := by
  refine (all_or_nothing_iff quietHost (fun _ _ => rfl) _ _).mpr (Or.inr (Or.inr (Or.inl ?_)))
  decide

/-- A name of 65 characters is refused after the file has been replaced. -/
theorem exists_name_half_set :
    ¬ ∀ env configured h, KernelTakesValid env → AllOrNothing env configured h := by
  intro hall
  have hhalf := hall quietHost (some ⟨List.replicate 65 97, by decide⟩) oldHost fun _ _ => rfl
  revert hhalf
  rw [AllOrNothing]
  decide +kernel

end NeonWrt.Uci
