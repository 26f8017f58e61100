import NeonWrt.Lib.Shell
import NeonWrt.Uci.Hostname

/-!
# The handler for time servers

`translate-timesyncd` reads the configured NTP servers with `neon-uci list`, which
joins them with blanks, and writes them to a file for `systemd-timesyncd`. What it
tests are the words that the shell makes of the joined text, not the servers. For
servers without blanks and without characters of file name patterns that is the
same.
-/

namespace NeonWrt.Uci.Timesyncd

open Lib Lib.Shell

/-- The expansion of file names in the shell, and the commands of `atomic_write` that succeed. -/
structure ShellEnv where
  expand : Bytes → List Bytes
  mkdir : Bool
  cat : Bool
  chmod : Bool
  mv : Bool

/-- The value of an option. -/
inductive UciValue
  | string (v : CStr)
  | list (vs : List CStr)

/-- What is found under `system.ntp` and under `system.@timeserver[0]`. -/
structure TimeConfig where
  ntpEnabled : Option UciValue
  firstEnabled : Option UciValue
  ntpServer : Option UciValue
  firstServer : Option UciValue

variable (env : ShellEnv) (cfg : TimeConfig)

/-- `uci_query`: what is printed for an option, unless there is none. -/
def uciQuery (separator : Bytes) : Option UciValue → Option Bytes
  | none => none
  | some (.string v) => some (v.bytes ++ [10])
  | some (.list vs) => some (separator.intercalate (vs.map CStr.bytes) ++ [10])

/-- `uci_get` and `uci_list`, in a command substitution. -/
def uciText (separator : Bytes) (value : Option UciValue) (dflt : Bytes) : Bytes :=
  substitute (((uciQuery separator value).map substitute).getD dflt)

/-- `uci_bool` -/
def uciBool (value dflt : Bytes) : Bytes :=
  if value ∈ [ascii "1", ascii "yes", ascii "true", ascii "on", ascii "enabled"] then ascii "yes"
  else if value ∈ [ascii "0", ascii "no", ascii "false", ascii "off", ascii "disabled"] then
    ascii "no"
  else dflt

/-- A character that `safe_simple_value` lets pass. -/
def safeChar (c : UInt8) : Bool := isalnum c || c ∈ ascii "._:/@+-"

/-- `safe_simple_value` -/
def safeSimpleValue (s : Bytes) : Bool := !s.any (!safeChar ·)

/-- The variable `enabled`. -/
def enabled : Bytes :=
  let value := uciText [32] cfg.ntpEnabled []
  let value := if value = [] then uciText [32] cfg.firstEnabled (ascii "1") else value
  uciBool value (ascii "yes")

/-- The variable `servers`. -/
def servers : Bytes :=
  let value := uciText [32] cfg.ntpServer []
  if value = [] then uciText [32] cfg.firstServer [] else value

/-- The words of the loop `for s in $servers`. -/
def checked : List Bytes := (fields (servers cfg)).flatMap env.expand

/-- Lines of text, as `echo` writes them. -/
def unlines (ls : List Bytes) : Bytes := ls.flatMap (· ++ [10])

/-- The file for some servers. -/
def timesyncdConf (line : Bytes) : Bytes :=
  unlines [ascii "# Generated by neon-uci from /etc/config/system. Do not edit.", ascii "[Time]",
    ascii "NTP=" ++ line, ascii "FallbackNTP="]

/-- `atomic_write` of the file; the shell ends at the first command that fails. -/
def atomicWrite (input : Bytes) (file : Option Bytes) : Option Bytes × ℕ :=
  if !env.mkdir then (file, 1)
  else if !env.cat then (file, 1)
  else if !env.chmod then (file, 1)
  else if !env.mv then (file, 1)
  else (some input, 0)

/-- `translate-timesyncd apply`. -/
def translateTimesyncd (file : Option Bytes) : Option Bytes × ℕ :=
  if (checked env cfg).any (!safeSimpleValue ·) then (file, 1)
  else
    atomicWrite env (timesyncdConf (if enabled cfg = ascii "yes" then servers cfg else [])) file

/-- The single values of an option. -/
def values : Option UciValue → List Bytes
  | none => []
  | some (.string v) => [v.bytes]
  | some (.list vs) => vs.map CStr.bytes

/-- The servers that are configured: those of the second section if the first one has none. -/
def configured : List Bytes :=
  if uciText [32] cfg.ntpServer [] = [] then values cfg.firstServer else values cfg.ntpServer

/-- If the handler succeeds the file has its known lines, the words of the servers' line are the
given ones, and every configured server is safe. -/
def Records (file : Option Bytes) (ws : List Bytes) : Prop :=
  (translateTimesyncd env cfg file).2 = 0 → ∃ line,
    (translateTimesyncd env cfg file).1 = some (timesyncdConf line) ∧ 10 ∉ line ∧
      fields line = ws ∧ ∀ v ∈ configured cfg, safeSimpleValue v = true

/-- A character that makes a word a file name pattern. -/
def patternChar (c : UInt8) : Bool := c ∈ ascii "*?[\\"

/-- A value that the shell takes as it is. -/
def Plain (v : Bytes) : Prop := ∀ c ∈ v, isIfs c = false ∧ patternChar c = false

instance (v : Bytes) : Decidable (Plain v) :=
  inferInstanceAs (Decidable (∀ c ∈ v, isIfs c = false ∧ patternChar c = false))

/-- Words that are no patterns are not expanded. -/
def ExpandsPatterns (expand : Bytes → List Bytes) : Prop :=
  ∀ w, (∀ c ∈ w, patternChar c = false) → expand w = [w]

variable {env cfg} {value : Option UciValue}

theorem substitute_eq_self {s : Bytes} (h : 10 ∉ s) : substitute s = s :=
  List.rdropWhile_eq_self_iff.mpr fun hne hnl =>
    h (by simpa [of_decide_eq_true hnl] using List.getLast_mem hne)

theorem newline_notMem_join {ws : List Bytes} (h : ∀ w ∈ ws, 10 ∉ w) : 10 ∉ join 32 ws := by
  induction ws with
  | nil => exact List.not_mem_nil
  | cons w ws ih =>
    obtain ⟨hw, hrest⟩ := List.forall_mem_cons.mp h
    cases ws with
    | nil => simpa [join] using hw
    | cons v vs =>
      have hjoin : join 32 (w :: v :: vs) = w ++ 32 :: join 32 (v :: vs) := by
        simp [join, List.intercalate]
      rw [hjoin, List.mem_append, List.mem_cons]
      rintro (hmem | hmem | hmem)
      · exact hw hmem
      · exact absurd hmem (by decide)
      · exact ih hrest hmem

theorem Plain.newline_notMem {v : Bytes} (h : Plain v) : 10 ∉ v := fun hmem =>
  absurd (h 10 hmem).1 (by decide)

/-- Plain values are read as the text that joins them. -/
theorem uciText_plain (h : ∀ v ∈ values value, Plain v) :
    uciText [32] value [] = join 32 (values value) := by
  have hjoin : 10 ∉ join 32 (values value) := newline_notMem_join fun v hv => (h v hv).newline_notMem
  have hquery : ((uciQuery [32] value).map substitute).getD [] = join 32 (values value) := by
    rcases value with _ | (v | vs)
    · rfl
    · simpa [uciQuery, values, join, substitute_append_newline] using substitute_eq_self hjoin
    · simpa [uciQuery, values, join, substitute_append_newline] using substitute_eq_self hjoin
  rw [uciText, hquery, substitute_eq_self hjoin]

theorem servers_plain (h : ∀ v ∈ configured cfg, Plain v) : servers cfg = join 32 (configured cfg) := by
  rw [servers, configured]
  rw [configured] at h
  split_ifs at h ⊢ with hempty
  · exact uciText_plain h
  · exact uciText_plain h

/-- The words that are tested are the servers. -/
theorem checked_eq (hexpand : ExpandsPatterns env.expand) (h : ∀ v ∈ configured cfg, Plain v) :
    checked env cfg = (configured cfg).filter (· ≠ []) := by
  rw [checked, servers_plain h, fields_join fun v hv c hc => (h v hv c hc).1]
  have hsingle : ((configured cfg).filter (· ≠ [])).flatMap env.expand =
      ((configured cfg).filter (· ≠ [])).flatMap fun v => [v] := by
    refine List.flatMap_congr fun v hv => hexpand v fun c hc => ?_
    exact (h v (List.mem_of_mem_filter hv) c hc).2
  rw [hsingle, List.flatMap_singleton']

theorem atomicWrite_ok {input : Bytes} {file : Option Bytes} (h : (atomicWrite env input file).2 = 0) :
    atomicWrite env input file = (some input, 0) := by
  unfold atomicWrite at h ⊢
  split_ifs at h ⊢ with hmkdir hcat hchmod hmv
  rfl

/-- With servers that the shell takes as they are, the handler writes them in their order if the
service is enabled, and none if it is not. -/
theorem translateTimesyncd_records (env : ShellEnv) (hexpand : ExpandsPatterns env.expand)
    (cfg : TimeConfig) (hplain : ∀ v ∈ configured cfg, Plain v) (file : Option Bytes) :
    Records env cfg file
      (if enabled cfg = ascii "yes" then (configured cfg).filter (· ≠ []) else []) := by
  rw [Records, translateTimesyncd, checked_eq hexpand hplain, servers_plain hplain]
  by_cases hunsafe : ((configured cfg).filter (· ≠ [])).any (!safeSimpleValue ·) = true
  · rw [if_pos hunsafe]
    exact fun h => absurd h Nat.one_ne_zero
  · rw [if_neg hunsafe]
    have hsafe : ∀ v ∈ configured cfg, safeSimpleValue v = true := fun v hv => by
      by_cases hnil : v = []
      · rw [hnil]
        rfl
      · by_contra hbad
        exact hunsafe (List.any_eq_true.mpr
          ⟨v, List.mem_filter.mpr ⟨hv, by simpa using hnil⟩, by simpa using hbad⟩)
    intro hok
    refine ⟨_, congrArg Prod.fst (atomicWrite_ok hok), ?_⟩
    split_ifs with henabled
    · exact ⟨newline_notMem_join fun v hv => (hplain v hv).newline_notMem,
        fields_join fun v hv c hc => (hplain v hv c hc).1, hsafe⟩
    · exact ⟨List.not_mem_nil, rfl, hsafe⟩

theorem timesyncdConf_inj {line line' : Bytes} (h : timesyncdConf line = timesyncdConf line') :
    line = line' := by
  simpa [timesyncdConf, unlines] using h

/-- A shell in which every command succeeds, and no file has the name of a pattern. -/
def quietShell : ShellEnv := ⟨fun w => [w], true, true, true, true⟩

/-- An enabled service with a list of servers. -/
def enabledWith (vs : List CStr) : TimeConfig :=
  ⟨some (.string (CStr.lit "1")), none, some (.list vs), none⟩

/-- A service that is not enabled, with a list of servers. -/
def disabledWith (vs : List CStr) : TimeConfig :=
  ⟨some (.string (CStr.lit "0")), none, some (.list vs), none⟩

/-- Two servers of the pool are written. -/
theorem records_pool : Records quietShell
    (enabledWith [CStr.lit "0.pool.ntp.org", CStr.lit "1.pool.ntp.org"]) none
    [ascii "0.pool.ntp.org", ascii "1.pool.ntp.org"] :=
  translateTimesyncd_records quietShell (fun _ _ => rfl)
    (enabledWith [CStr.lit "0.pool.ntp.org", CStr.lit "1.pool.ntp.org"]) (by decide +kernel) none

/-- Three configurations whose servers are not recorded: the service is not enabled, a server has
no characters, and a server has a newline in it, which becomes a line of the file. -/
theorem not_records :
    ¬ Records quietShell (disabledWith [CStr.lit "a"]) none (configured (disabledWith [CStr.lit "a"])) ∧
    ¬ Records quietShell (enabledWith [CStr.lit "a", CStr.lit ""]) none
      (configured (enabledWith [CStr.lit "a", CStr.lit ""])) ∧
    ¬ Records quietShell (enabledWith [CStr.lit "a\nb"]) none
      (configured (enabledWith [CStr.lit "a\nb"])) := by
  refine ⟨fun h => ?_, fun h => ?_, fun h => ?_⟩
  · obtain ⟨line, hfile, -, hline, -⟩ := h (by decide +kernel)
    have hwritten : (translateTimesyncd quietShell (disabledWith [CStr.lit "a"]) none).1 =
        some (timesyncdConf []) := by decide +kernel
    rw [hwritten] at hfile
    rw [← timesyncdConf_inj (Option.some.inj hfile)] at hline
    exact absurd hline (by decide +kernel)
  · obtain ⟨line, hfile, -, hline, -⟩ := h (by decide +kernel)
    have hwritten : (translateTimesyncd quietShell
        (enabledWith [CStr.lit "a", CStr.lit ""]) none).1 = some (timesyncdConf (ascii "a ")) := by
      decide +kernel
    rw [hwritten] at hfile
    rw [← timesyncdConf_inj (Option.some.inj hfile)] at hline
    exact absurd hline (by decide +kernel)
  · obtain ⟨line, -, -, -, hsafe⟩ := h (by decide +kernel)
    exact absurd (hsafe (ascii "a\nb") (by decide +kernel)) (by decide +kernel)

end NeonWrt.Uci.Timesyncd
