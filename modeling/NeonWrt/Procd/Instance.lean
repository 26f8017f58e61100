import NeonWrt.Lib.Json
import NeonWrt.Procd.Name

/-!
# The systemd-run command line of an instance

`start_instance` translates one instance object of a service definition into the
argument vector of `systemd-run`. The vector has room for `MAX_ARGS` pointers;
an argument too many ends the process, which is `none` here.
-/

namespace NeonWrt.Procd

open Lib

/-- `MAX_ARGS`. -/
def maxArgs : ℕ := 512

/-- `add_arg`: one more argument, or the end of the process. -/
def addArg (argv : List Bytes) (s : Bytes) : Option (List Bytes) :=
  if argv.length ≥ maxArgs - 1 then none else some (argv ++ [s])

/-- `add_prop`. -/
def addProp (argv : List Bytes) (key value : Bytes) : Option (List Bytes) := do
  let argv ← addArg argv (ascii "--property")
  addArg argv (key ++ ascii "=" ++ value)

/-- A string pointer as `printf` shows it. -/
def printed : Option CStr → Bytes
  | none => ascii "(null)"
  | some s => s.bytes

/-- `add_arg` of a string pointer; duplicating a null pointer ends the process. -/
def addString (argv : List Bytes) : Option CStr → Option (List Bytes)
  | none => none
  | some s => addArg argv s.bytes

/-- `limit_maps`. -/
def limitMaps : List (String × String) :=
  [("cpu", "LimitCPU"), ("fsize", "LimitFSIZE"), ("data", "LimitDATA"), ("stack", "LimitSTACK"),
    ("core", "LimitCORE"), ("rss", "LimitRSS"), ("nofile", "LimitNOFILE"), ("as", "LimitAS"),
    ("nproc", "LimitNPROC"), ("memlock", "LimitMEMLOCK"), ("locks", "LimitLOCKS"),
    ("sigpending", "LimitSIGPENDING"), ("msgqueue", "LimitMSGQUEUE"), ("nice", "LimitNICE"),
    ("rtprio", "LimitRTPRIO"), ("rttime", "LimitRTTIME")]

/-- `limit_property`. -/
def limitProperty (name : CStr) : Option Bytes :=
  (limitMaps.find? fun m => ascii m.1 = name.bytes).map fun m => ascii m.2

/-- `normalize_limit_token`, printed into `outsz` bytes. -/
def normalizeLimitToken (token : Bytes) (outsz : ℕ) : Bytes :=
  if token = [] then snprintf outsz (ascii "infinity")
  else if caseEq token (ascii "unlimited") || caseEq token (ascii "infinity") then
    snprintf outsz (ascii "infinity")
  else snprintf outsz token

/-- The separators `strpbrk` looks for between the soft and the hard limit. -/
def limitSeparator (c : UInt8) : Bool := c == 32 || c == 9 || c == 58

/-- `normalize_limit_value`, printed into `outsz` bytes. -/
def normalizeLimitValue (value : Option CStr) (outsz : ℕ) : Bytes :=
  let p := trim (snprintf 256 ((value.map CStr.bytes).getD []))
  match p.dropWhile fun c => !limitSeparator c with
  | [] => normalizeLimitToken p outsz
  | _ :: rest =>
    let first := p.takeWhile fun c => !limitSeparator c
    let second := (rest.dropWhile fun c => isspace c || c == 58).rdropWhile isspace
    let soft := normalizeLimitToken first 128
    let hard := normalizeLimitToken (if second = [] then first else second) 128
    snprintf outsz (soft ++ ascii ":" ++ hard)

/-- `add_limits`: limits systemd has no property for are skipped with a warning. -/
def addLimits (argv : List Bytes) : Json → Option (List Bytes)
  | .obj members =>
    members.foldlM (fun argv m =>
      match limitProperty m.1 with
      | none => some argv
      | some prop => addProp argv prop (normalizeLimitValue m.2.getString 256)) argv
  | _ => some argv

/-- The restart properties that `respawn` asks for. -/
def addRespawn (argv : List Bytes) : Option Json → Option (List Bytes)
  | none => addProp argv (ascii "Restart") (ascii "no")
  | some respawn => do
    let items := match respawn with
      | .arr items => items
      | _ => []
    let argv ← addProp argv (ascii "Restart") (ascii "always")
    let restartSec := match items with
      | _ :: timeout :: _ => printed timeout.getString
      | _ => ascii "5"
    let argv ← addProp argv (ascii "RestartSec") restartSec
    match items with
    | threshold :: _ :: burst :: _ => do
      let argv ← addProp argv (ascii "StartLimitIntervalSec") (printed threshold.getString)
      addProp argv (ascii "StartLimitBurst") (printed burst.getString)
    | _ => some argv

/-- A property that is left out when the member is missing or empty. -/
def addNonempty (argv : List Bytes) (key : Bytes) : Option CStr → Option (List Bytes)
  | none => some argv
  | some v => if v.bytes = [] then some argv else addProp argv key v.bytes

/-- The environment of the unit, with a default `PATH` unless one is given. -/
def addEnvironment (argv : List Bytes) (env : Option Json) : Option (List Bytes) := do
  let members := match env with
    | some (.obj members) => members
    | _ => []
  let argv ← members.foldlM (fun argv m => do
    let argv ← addArg argv (ascii "--setenv")
    addArg argv (m.1.bytes ++ ascii "=" ++ printed m.2.getString)) argv
  if members.any fun m => m.1.bytes = ascii "PATH" then some argv
  else do
    let argv ← addArg argv (ascii "--setenv")
    addArg argv (ascii "PATH=/usr/sbin:/usr/bin:/sbin:/bin")

/-- The argument vector that `start_instance` builds for an instance with a
command; `none` when the process ends before it is complete. -/
def startArgv (service : CStr) (unit : Bytes) (inst : Json) (cmd : List Json) :
    Option (List Bytes) := do
  let argv ← [ascii "systemd-run", ascii "--unit", unit, ascii "--collect",
    ascii "--service-type=simple"].foldlM addArg []
  let argv ← addProp argv (ascii "Description") service.bytes
  let argv ← addRespawn argv (inst.get? (CStr.lit "respawn"))
  let argv ← addNonempty argv (ascii "User") (inst.stringMember (CStr.lit "user"))
  let argv ← addNonempty argv (ascii "Group") (inst.stringMember (CStr.lit "group"))
  let argv ← match inst.get? (CStr.lit "nice") with
    | none => some argv
    | some nice => addProp argv (ascii "Nice") (printed nice.getString)
  let argv ← if ((inst.get? (CStr.lit "no_new_privs")).map Json.getBoolean).getD false then
      addProp argv (ascii "NoNewPrivileges") (ascii "yes")
    else some argv
  let argv ← addProp argv (ascii "StandardOutput") (ascii "journal")
  let argv ← addProp argv (ascii "StandardError") (ascii "journal")
  let argv ← match inst.get? (CStr.lit "limits") with
    | none => some argv
    | some limits => addLimits argv limits
  let argv ← addEnvironment argv (inst.get? (CStr.lit "env"))
  let argv ← addArg argv (ascii "--")
  cmd.foldlM (fun argv word => addString argv word.getString) argv

theorem addLimits_obj (argv : List Bytes) (members : List (CStr × Json)) :
    addLimits argv (.obj members) = members.foldlM (fun argv m =>
      (limitProperty m.1).elim (some argv) fun prop =>
        addProp argv prop (normalizeLimitValue m.2.getString 256)) argv := by
  simp only [addLimits]
  congr 1
  funext argv m
  cases limitProperty m.1 <;> rfl

/-- The stages of `startArgv`, one after the other. -/
theorem startArgv_eq (service : CStr) (unit : Bytes) (inst : Json) (cmd : List Json) :
    startArgv service unit inst cmd =
      (((((((((([ascii "systemd-run", ascii "--unit", unit, ascii "--collect",
        ascii "--service-type=simple"].foldlM addArg []).bind
      fun argv => addProp argv (ascii "Description") service.bytes).bind
      fun argv => addRespawn argv (inst.get? (CStr.lit "respawn"))).bind
      fun argv => addNonempty argv (ascii "User") (inst.stringMember (CStr.lit "user"))).bind
      fun argv => addNonempty argv (ascii "Group") (inst.stringMember (CStr.lit "group"))).bind
      fun argv => (inst.get? (CStr.lit "nice")).elim (some argv) fun nice =>
        addProp argv (ascii "Nice") (printed nice.getString)).bind
      fun argv =>
        if ((inst.get? (CStr.lit "no_new_privs")).map Json.getBoolean).getD false then
          addProp argv (ascii "NoNewPrivileges") (ascii "yes")
        else some argv).bind
      fun argv => (addProp argv (ascii "StandardOutput") (ascii "journal")).bind
        fun argv => addProp argv (ascii "StandardError") (ascii "journal")).bind
      fun argv => (inst.get? (CStr.lit "limits")).elim (some argv) (addLimits argv)).bind
      fun argv => (addEnvironment argv (inst.get? (CStr.lit "env"))).bind
        fun argv => addArg argv (ascii "--")).bind
      fun argv => cmd.foldlM (fun argv word => addString argv word.getString) argv := by
  -- the notation runs the rest of the stages in each branch
  unfold startArgv
  simp only [Option.bind_assoc]
  cases inst.get? (CStr.lit "nice") <;> cases inst.get? (CStr.lit "limits") <;>
    cases ((inst.get? (CStr.lit "no_new_privs")).map Json.getBoolean).getD false <;> rfl

end NeonWrt.Procd
