import NeonWrt.Ead.Crypt
import NeonWrt.Lib.Run

/-!
# The server of the emergency access daemon

`parse_message` of `ead.c` takes a login from a user name over the exchange of
SRP numbers to an authenticated session in which commands are run. One variable,
`state`, holds the type of the message that is expected next; `set_state` moves
it forward, where it calls the SRP library for the objects the next handler
needs, and back to the start.

What the library returns is a parameter of each step. A step that reads an
object that is not there has no result.
-/

namespace NeonWrt.Ead

open NeonWrt.Lib

/-- `enum ead_type` -/
inductive EadType
  | ping | pong | setUsername | ackUsername | getPrime | prime
  | sendA | sendB | sendAuth | doneAuth | sendCmd | resultCmd
  deriving DecidableEq

/-- The number of a message type. -/
def EadType.code : EadType → ℤ
  | .ping => 0
  | .pong => 1
  | .setUsername => 2
  | .ackUsername => 3
  | .getPrime => 4
  | .prime => 5
  | .sendA => 6
  | .sendB => 7
  | .sendAuth => 8
  | .doneAuth => 9
  | .sendCmd => 10
  | .resultCmd => 11

theorem EadType.code_injective {a b : EadType} (h : a.code = b.code) : a = b := by
  cases a <;> cases b <;> first | rfl | exact absurd h (by decide)

/-- What `ead.c` reads of a `struct t_server`: the name it was opened for and
the salt. The number tells apart the objects that `t_serveropenraw` made. -/
structure Server where
  id : ℕ
  name : Bytes
  salt : Bytes
  deriving DecidableEq

/-- A number inside a server object, as `B` points to one. -/
structure Num where
  owner : ℕ
  data : Bytes
  deriving DecidableEq

/-- What the calls of the SRP library, and the lookup in the password file,
return while a packet is handled; `none` is `NULL`, or no line for the user. -/
structure Srp where
  passwd : Option Bytes
  gettcid : Option ℕ
  serveropenraw : Option Bytes
  servergenexp : Option Bytes
  servergetkey : Option SessionKey
  serververify : Bool
  serverresponse : Option Bytes
  deriving DecidableEq

/-- What a step says about the login, for the statements about runs. -/
inductive Mark
  /-- `SET_USERNAME` was accepted. -/
  | username (name : Bytes)
  /-- A `SEND_AUTH` for a user passed `t_serververify`. -/
  | verified (name : Bytes)
  /-- `handle_send_cmd` was entered. -/
  | command
  deriving DecidableEq

/-- The static variables of `ead.c`. The number of server objects made so far,
the one whose key `ead_set_key` got last and the marks of the past steps are not
in the program. -/
structure State where
  state : EadType
  username : Bytes
  pwSalt : Bytes
  tce : Option ℕ
  ts : Option Server
  A : Bytes
  B : Option Num
  crypt : Crypt
  opened : ℕ
  keyOf : Option ℕ
  marks : List Mark
  deriving DecidableEq

/-- The variables when the daemon starts. -/
def State.initial (crypt : Crypt) : State where
  state := .setUsername
  username := []
  pwSalt := []
  tce := none
  ts := none
  A := []
  B := none
  crypt := crypt
  opened := 0
  keyOf := none
  marks := []

/-- A packet as `parse_message` reads it: `len` is the length of the whole
packet, and the other fields are those of the message in host order. -/
structure Packet where
  type : ℤ
  sid : ℕ
  len : ℤ
  msgLen : ℕ
  username : Bytes
  number : Bytes
  enc : Enc
  outcome : CmdOutcome
  deriving DecidableEq

/-- The contents of a response. -/
inductive Response
  | pong (name : Bytes)
  | ackUsername
  | prime (index : ℕ) (salt extSalt : Bytes)
  | number (data : Bytes)
  | auth (data : Bytes)
  | result (m : Sealed)
  deriving DecidableEq

/-- `prepare_password`: whether the user has an MD5 password; without a group
for the index, reading its modulus fails. -/
def preparePassword (srp : Srp) (s : State) : Option (Bool × State) :=
  match srp.passwd with
  | none => some (false, s)
  | some salt => srp.gettcid.map fun index => (true, { s with pwSalt := salt, tce := some index })

/-- `set_state` -/
def setState (srp : Srp) (nstate : EadType) (s : State) : Option State :=
  if s.state = nstate then some s
  else if nstate.code < s.state.code then
    if nstate.code < EadType.getPrime.code ∧ EadType.getPrime.code ≤ s.state.code then
      s.ts.map fun _ => { s with ts := none, state := nstate }
    else some { s with state := nstate }
  else
    match s.state with
    | .setUsername =>
      (preparePassword srp s).map fun (found, s) =>
        if !found then s
        else match srp.serveropenraw with
          | none => { s with ts := none }
          | some salt =>
            { s with
              ts := some ⟨s.opened, s.username, salt⟩
              opened := s.opened + 1
              state := nstate }
    | .getPrime =>
      s.ts.map fun ts =>
        { s with B := srp.servergenexp.map fun data => ⟨ts.id, data⟩, state := nstate }
    | .sendA =>
      s.ts.map fun ts =>
        match srp.servergetkey with
        | none => s
        | some k =>
          { s with crypt := s.crypt.setKey k, keyOf := some ts.id, state := nstate }
    | _ => some { s with state := nstate }

/-- What a handler leaves: the variables, `*nstate`, and the responses sent. -/
structure Handled where
  state : State
  nstate : EadType
  responses : List Response
  deriving DecidableEq

/-- `handle_ping` -/
def handlePing (devName : Bytes) (s : State) : Option Handled :=
  some ⟨s, s.state, [.pong (devName.take 1024)]⟩

/-- `handle_set_username`: the login before is given up first. -/
def handleSetUsername (srp : Srp) (pkt : Packet) (s : State) : Option Handled :=
  (setState srp .setUsername s).map fun s =>
    let name := (cstr (pkt.username.take 32)).take 31
    ⟨{ s with username := name, marks := .username name :: s.marks }, .getPrime, [.ackUsername]⟩

/-- `handle_get_prime` -/
def handleGetPrime (s : State) : Option Handled :=
  match s.tce, s.ts with
  | some index, some ts => some ⟨s, .sendA, [.prime (index - 1) ts.salt s.pwSalt]⟩
  | _, _ => none

/-- The number that `B` points to, if the object it is in is still there. -/
def State.number (s : State) : Option Bytes :=
  match s.B, s.ts with
  | some B, some ts => if B.owner = ts.id then some B.data else none
  | _, _ => none

/-- `handle_send_a`; a number of the wrong length is ignored. -/
def handleSendA (pkt : Packet) (s : State) : Option Handled :=
  if pkt.msgLen < 1 ∨ pkt.msgLen - 1 > 256 + 1 then some ⟨s, s.state, []⟩
  else s.number.map fun data =>
    ⟨{ s with A := pkt.number.take (pkt.msgLen - 1) }, .sendAuth, [.number data]⟩

/-- `handle_send_auth` -/
def handleSendAuth (srp : Srp) (s : State) : Option Handled :=
  s.ts.bind fun ts =>
    if !srp.serververify then some ⟨s, .setUsername, []⟩
    else srp.serverresponse.map fun data =>
      ⟨{ s with marks := .verified ts.name :: s.marks }, .sendCmd, [.auth data]⟩

/-- `handle_send_cmd` as a handler. -/
def handleCmd (bigEndian : Bool) (pkt : Packet) (s : State) : Option Handled :=
  let r := handleSendCmd bigEndian s.crypt pkt.msgLen pkt.enc pkt.outcome
  some ⟨{ s with crypt := r.crypt, marks := .command :: s.marks }, s.state,
    r.replies.map .result⟩

/-- The settings of the daemon: the host's byte order, the device name and
`instance->id`. -/
structure Config where
  bigEndian : Bool
  devName : Bytes
  instanceId : ℕ

/-- `sizeof(struct ead_packet)` -/
def packetSize : ℤ := 62

/-- The handler of a message type and the length its message needs. -/
def handlerOf (cfg : Config) (srp : Srp) (pkt : Packet) :
    ℤ → Option ((State → Option Handled) × ℤ)
  | 0 => some (handlePing cfg.devName, 0)
  | 2 => some (handleSetUsername srp pkt, 32)
  | 4 => some (handleGetPrime, 0)
  | 6 => some (handleSendA pkt, 1)
  | 8 => some (handleSendAuth srp, 20)
  | 10 => some (handleCmd cfg.bigEndian pkt, cmdSize + encSize)
  | _ => none

/-- `parse_message`: the variables after it and the responses, with `type + 1`
and the session id of the packet. -/
def parseMessage (cfg : Config) (srp : Srp) (pkt : Packet) (s : State) :
    Option (State × List (ℤ × ℕ × Response)) :=
  if pkt.type ≥ EadType.getPrime.code ∧ s.state.code ≠ pkt.type then some (s, [])
  else if pkt.type ≠ EadType.ping.code ∧ (pkt.sid &&& 0xf000) >>> 12 ≠ cfg.instanceId then
    some (s, [])
  else
    match handlerOf cfg srp pkt pkt.type with
    | none => some (s, [])
    | some (handler, minLen) =>
      if pkt.len < packetSize + minLen then some (s, [])
      else (handler s).bind fun h =>
        (setState srp h.nstate h.state).map fun s =>
          (s, h.responses.map fun r => (pkt.type + 1, pkt.sid, r))

/-- A step of the server: a packet, and what the library returns meanwhile. -/
def serverStep (cfg : Config) (s : State) (a : Packet × Srp) : Option State :=
  (parseMessage cfg a.2 a.1 s).map (·.1)

end NeonWrt.Ead
