import NeonWrt.Ead.Crypt
import NeonWrt.Lib.Run
import Mathlib.Data.List.Nodup

/-!
# Commands over an attacked network

A session of the emergency access daemon after authentication: the client seals
commands, the server runs them and seals what they print, and an attacker in
between decides which sealed message reaches whom, how often, in which order and
under which header. Without the key it can produce no sealed message of its own.

Both directions use one key and start at one counter, and nothing inside a
sealed message says which direction it belongs to. So a reply of the server that
is ahead of what the server has received can be given back to it as a command.
-/

namespace NeonWrt.Ead

open NeonWrt.Lib

/-- A command the client seals. -/
structure Command where
  type : UInt8
  timeout : UInt16
  text : CStr
  deriving DecidableEq

/-- `struct ead_msg_cmd` as the client fills it in, the terminating NUL included. -/
def Command.payload (cmd : Command) : Bytes :=
  [cmd.type, UInt8.ofNat (cmd.timeout.toNat / 256), UInt8.ofNat (cmd.timeout.toNat % 256)] ++
    cmd.text.bytes ++ [0]

/-- Who sealed a message, and for the client which command it is. -/
inductive Origin
  | client (cmd : Command)
  | server
  deriving DecidableEq

/-- A message on the network. -/
structure Wire where
  origin : Origin
  msg : Sealed
  deriving DecidableEq

/-- A session: the counters of both parties, every message sealed so far, and
for every command the server ran the message it came in. -/
structure Net where
  client : Crypt
  server : Crypt
  sent : List Wire
  executed : List (ℕ × Bytes)
  deriving DecidableEq

/-- What a holder of the key `aes` finds in a sealed message under a header with
length `len`: with another key or another length the hash is wrong. -/
def Sealed.opened (m : Sealed) (aes : Bytes) (len : ℕ) : Enc where
  iv := m.iv
  pad := m.pad
  hashOk := aes = m.aes ∧ len = m.enclen
  body := m.payload ++ List.replicate m.pad 0

/-- What can happen next. -/
inductive Action
  /-- The client seals a command. -/
  | command (cmd : Command)
  /-- A message reaches the server as `EAD_TYPE_SEND_CMD`. -/
  | toServer (i len : ℕ) (os : CmdOutcome)
  /-- A message reaches the client as `EAD_TYPE_RESULT_CMD`. -/
  | toClient (i len : ℕ)
  deriving DecidableEq

/-- One step of the session. -/
def step (bigEndian : Bool) (net : Net) : Action → Option Net
  | .command cmd =>
    let (m, c) := net.client.encrypt cmd.payload
    some { net with client := c, sent := net.sent ++ [⟨.client cmd, m⟩] }
  | .toServer i len os =>
    net.sent[i]?.map fun w =>
      let r := handleSendCmd bigEndian net.server len (w.msg.opened net.server.aes len) os
      { net with
        server := r.crypt
        sent := net.sent ++ r.replies.map (⟨.server, ·⟩)
        executed := net.executed ++ r.executed.toList.map (i, ·) }
  | .toClient i len =>
    net.sent[i]?.map fun w =>
      { net with client := (net.client.decrypt len (w.msg.opened net.client.aes len)).2 }

/-- Both parties have just set the key of the session; what their counters were
before does not matter. -/
def Init (net : Net) : Prop :=
  ∃ k c s, net = ⟨Crypt.setKey c k, Crypt.setKey s k, [], []⟩

/-- Every executed command is the text of a command that the client sealed, and
no message was executed twice. -/
def Authentic (net : Net) : Prop :=
  (∀ e ∈ net.executed, ∃ cmd m, net.sent[e.1]? = some ⟨.client cmd, m⟩ ∧ e.2 = cmd.text.bytes) ∧
    (net.executed.map (·.1)).Nodup

/-- A reply of the server with at least three bytes of console data comes back
to it as a command, ahead of what it has received and within the window. -/
def Reflects (net : Net) : Action → Prop
  | .toServer i len os => ∃ w ∈ net.sent[i]?, w.origin = .server ∧
      net.server.rxIv < w.msg.iv ∧ w.msg.iv ≤ net.server.rxIv + maxIvIncr ∧
      len = w.msg.enclen ∧ cmdSize < w.msg.payload.length ∧ os.pipe = true ∧ os.fork = true
  | _ => False

instance (net : Net) (a : Action) : Decidable (Reflects net a) := by
  cases a with
  | toServer i len os => exact inferInstanceAs (Decidable (∃ w ∈ net.sent[i]?, _))
  | command cmd => exact inferInstanceAs (Decidable False)
  | toClient i len => exact inferInstanceAs (Decidable False)

/-- The contents of a message are those its sender sealed. -/
theorem decrypt_opened (c : Crypt) (m : Sealed) (len : ℕ)
    (h : 0 < (c.decrypt len (m.opened c.aes len)).1) :
    c.rxIv < m.iv ∧ m.iv ≤ c.rxIv + maxIvIncr ∧ len = m.enclen ∧
      (c.decrypt len (m.opened c.aes len)).1 = m.payload.length ∧
      (c.decrypt len (m.opened c.aes len)).2.rxIv = m.iv := by
  rcases c.decrypt_cases len (m.opened c.aes len) with ⟨hn, -⟩ | ⟨hlt, hle, hc, hn | ⟨hhash, hn⟩⟩
  · omega
  · omega
  · have hlen : len = m.enclen := by
      simp only [Sealed.opened, decide_eq_true_eq] at hhash
      exact hhash.2
    refine ⟨hlt, hle, hlen, ?_, by rw [hc]; rfl⟩
    rw [hn, hlen]
    simp only [Sealed.enclen, Sealed.opened]
    omega

/-- The text of a sealed command is read back. -/
theorem commandText_payload (cmd : Command) (aes : Bytes) (m : Sealed) (len : ℕ)
    (hm : m.payload = cmd.payload) :
    commandText (m.opened aes len) m.payload.length = cmd.text.bytes := by
  have hlength : m.payload.length = cmd.text.bytes.length + 1 + cmdSize := by
    simp [hm, Command.payload, cmdSize]
  have htake : ((m.payload.length : ℤ) - cmdSize).toNat = (cmd.text.bytes ++ [0]).length := by
    rw [hlength]
    simp
  have hdrop : (m.opened aes len).body.drop cmdSize =
      (cmd.text.bytes ++ [0]) ++ List.replicate m.pad 0 := by
    simp [Sealed.opened, hm, Command.payload, cmdSize]
  have hstop : (0 :: []).takeWhile (fun c : UInt8 => c != 0) = [] := rfl
  rw [commandText, hdrop, htake, List.take_left, cstr, List.takeWhile_append_of_pos, hstop,
    List.append_nil]
  intro c hc
  simpa using fun h0 : c = 0 => cmd.text.noNul (h0 ▸ hc)

/-- The message holds what its sender seals. -/
def Wire.Genuine (aes : Bytes) (w : Wire) : Prop :=
  w.msg.WellFormed aes ∧
    match w.origin with
    | .client cmd => w.msg.payload = cmd.payload
    | .server => IsReply w.msg.payload

/-- Both parties hold the key of the session, and every message on the network is genuine. -/
structure Keyed (aes : Bytes) (net : Net) : Prop where
  hclient : net.client.aes = aes
  hserver : net.server.aes = aes
  hsent : ∀ w ∈ net.sent, w.Genuine aes

variable {bigEndian : Bool} {net net' : Net} {aes : Bytes}

theorem step_keyed {a : Action} (h : step bigEndian net a = some net') (hk : Keyed aes net) :
    Keyed aes net' := by
  cases a with
  | command cmd =>
    obtain rfl := Option.some.inj h
    refine ⟨hk.hclient, hk.hserver, fun w hw => ?_⟩
    rcases List.mem_append.mp hw with hw | hw
    · exact hk.hsent w hw
    · rw [List.mem_singleton.mp hw]
      exact ⟨hk.hclient ▸ net.client.encrypt_wellFormed cmd.payload, rfl⟩
  | toServer i len os =>
    obtain ⟨w, hw, rfl⟩ := Option.map_eq_some_iff.mp h
    refine ⟨hk.hclient, (handleSendCmd_crypt ..).2.trans hk.hserver, fun v hv => ?_⟩
    rcases List.mem_append.mp hv with hv | hv
    · exact hk.hsent v hv
    · obtain ⟨m, hm, rfl⟩ := List.mem_map.mp hv
      exact hk.hserver ▸ handleSendCmd_replies _ _ _ _ _ m hm
  | toClient i len =>
    obtain ⟨w, hw, rfl⟩ := Option.map_eq_some_iff.mp h
    exact ⟨(net.client.aes_decrypt ..).trans hk.hclient, hk.hserver, hk.hsent⟩

/-- Nothing was executed from a message ahead of what the server has received. -/
def NoneAhead (net : Net) : Prop :=
  ∀ e ∈ net.executed, ∀ w, net.sent[e.1]? = some w → w.msg.iv ≤ net.server.rxIv

/-- What every session keeps: commands are authentic, and what was executed lies behind. -/
structure Safe (aes : Bytes) (net : Net) : Prop where
  hkeyed : Keyed aes net
  hauth : Authentic net
  hahead : NoneAhead net

theorem rxIv_mono (c : Crypt) (len : ℕ) (enc : Enc) : c.rxIv ≤ (c.decrypt len enc).2.rxIv := by
  rcases c.decrypt_cases len enc with ⟨-, h⟩ | ⟨hlt, -, h, -⟩
  · exact UInt32.le_of_eq (congrArg Crypt.rxIv h).symm
  · rw [h]
    exact UInt32.le_of_lt hlt

theorem getElem?_sent_append {l k : List Wire} {i : ℕ} {w : Wire} (h : l[i]? = some w) :
    (l ++ k)[i]? = some w :=
  (List.getElem?_append_left (List.getElem?_eq_some_iff.mp h).1).trans h

/-- More messages on the network and a counter further on keep a session safe. -/
theorem Safe.extend (h : Safe aes net) (hk : Keyed aes net') (k : List Wire)
    (hsent : net'.sent = net.sent ++ k) (hexecuted : net'.executed = net.executed)
    (hrx : net.server.rxIv ≤ net'.server.rxIv) : Safe aes net' where
  hkeyed := hk
  hauth := by
    rw [Authentic, hexecuted, hsent]
    refine ⟨fun e he => ?_, h.hauth.2⟩
    obtain ⟨cmd, m, hm, htext⟩ := h.hauth.1 e he
    exact ⟨cmd, m, getElem?_sent_append hm, htext⟩
  hahead := by
    rw [NoneAhead, hexecuted, hsent]
    intro e he w hw
    obtain ⟨cmd, m, hm, -⟩ := h.hauth.1 e he
    obtain rfl := Option.some.inj ((getElem?_sent_append hm).symm.trans hw)
    exact UInt32.le_trans (h.hahead e he _ hm) hrx

/-- A message that the server runs is accepted: it lies ahead, in the window, and
its whole contents are read. -/
theorem executed_accepted {c : Crypt} {m : Sealed} {len : ℕ} {os : CmdOutcome} {text : Bytes}
    (h : (handleSendCmd bigEndian c len (m.opened c.aes len) os).executed = some text) :
    c.rxIv < m.iv ∧ m.iv ≤ c.rxIv + maxIvIncr ∧ len = m.enclen ∧ cmdSize < m.payload.length ∧
      text = commandText (m.opened c.aes len) m.payload.length ∧
      (handleSendCmd bigEndian c len (m.opened c.aes len) os).crypt.rxIv = m.iv ∧
      os.fork = true ∧ (m.payload.head? = some 0 → os.pipe = true) := by
  obtain ⟨hn, htext, hfork, hpipe⟩ := handleSendCmd_executed _ _ _ _ _ h
  obtain ⟨hlt, hle, hlen, hlength, hrx⟩ := decrypt_opened c m len (by omega)
  rw [hlength] at hn htext
  refine ⟨hlt, hle, hlen, by exact_mod_cast hn, htext, ?_, hfork, fun hhead => hpipe ?_⟩
  · rw [(handleSendCmd_crypt ..).1, hrx]
  · obtain ⟨t, ht⟩ := List.head?_eq_some_iff.mp hhead
    simp [Sealed.opened, ht]

/-- Whatever the attacker does short of reflecting a reply, the session stays safe. -/
theorem step_safe {a : Action} (h : step bigEndian net a = some net') (hs : Safe aes net)
    (hok : ¬Reflects net a) : Safe aes net' := by
  have hk := step_keyed h hs.hkeyed
  cases a with
  | command cmd =>
    obtain rfl := Option.some.inj h
    exact hs.extend hk _ rfl rfl (UInt32.le_refl _)
  | toClient i len =>
    obtain ⟨w, hw, rfl⟩ := Option.map_eq_some_iff.mp h
    exact hs.extend hk [] (List.append_nil _).symm rfl (UInt32.le_refl _)
  | toServer i len os =>
    obtain ⟨⟨origin, m⟩, hw, rfl⟩ := Option.map_eq_some_iff.mp h
    have hrx : net.server.rxIv ≤ (handleSendCmd bigEndian net.server len
        (m.opened net.server.aes len) os).crypt.rxIv := by
      rw [(handleSendCmd_crypt ..).1]
      exact rxIv_mono ..
    cases hex : (handleSendCmd bigEndian net.server len (m.opened net.server.aes len) os).executed with
    | none => exact hs.extend hk _ rfl (by simp [hex]) hrx
    | some text =>
      obtain ⟨hlt, hle, hlen, hsize, htext, hafter, hfork, hpipe⟩ := executed_accepted hex
      obtain ⟨-, hgenuine⟩ := hs.hkeyed.hsent _ (List.mem_of_getElem? hw)
      cases origin with
      | server =>
        -- A reply that is run has console data, so it was reflected.
        have hreply : IsReply m.payload := hgenuine
        have hhead : m.payload.head? = some 0 := by
          rcases hreply with ⟨chunk, hchunk⟩ | hdone
          · simp [hchunk, dataReply]
          · simp [hdone, doneReply, cmdSize] at hsize
        exact absurd ⟨_, hw, rfl, hlt, hle, hlen, hsize, hpipe hhead, hfork⟩ hok
      | client cmd =>
        have hnew : i ∉ net.executed.map (·.1) := by
          intro hmem
          obtain ⟨e, he, rfl⟩ := List.mem_map.mp hmem
          -- What was executed before lies behind the counter.
          exact absurd hlt (UInt32.not_lt.mpr (hs.hahead e he _ hw))
        have htext' : text = cmd.text.bytes :=
          htext.trans (commandText_payload cmd _ m len hgenuine)
        refine ⟨hk, ⟨fun e he => ?_, ?_⟩, fun e he v hv => ?_⟩
        · simp only [hex, Option.toList_some, List.map_cons, List.map_nil, List.mem_append,
            List.mem_singleton] at he
          rcases he with he | rfl
          · obtain ⟨cmd', m', hm', htext''⟩ := hs.hauth.1 e he
            exact ⟨cmd', m', getElem?_sent_append hm', htext''⟩
          · exact ⟨cmd, m, getElem?_sent_append hw, htext'⟩
        · simp only [hex, Option.toList_some, List.map_cons, List.map_nil, List.map_append]
          exact hs.hauth.2.append (List.nodup_singleton i) (by simpa using hnew)
        · simp only [hex, Option.toList_some, List.map_cons, List.map_nil, List.mem_append,
            List.mem_singleton] at he
          simp only [hafter]
          rcases he with he | rfl
          · obtain ⟨cmd', m', hm', -⟩ := hs.hauth.1 e he
            obtain rfl := Option.some.inj ((getElem?_sent_append hm').symm.trans hv)
            exact UInt32.le_trans (hs.hahead e he _ hm') (UInt32.le_of_lt hlt)
          · obtain rfl := Option.some.inj ((getElem?_sent_append hw).symm.trans hv)
            exact UInt32.le_refl _

theorem safe_of_init (h : Init net) : ∃ aes, Safe aes net := by
  obtain ⟨k, c, s, rfl⟩ := h
  refine ⟨k.aes, ⟨rfl, rfl, by simp⟩, ⟨by simp, List.nodup_nil⟩, ?_⟩
  intro e he
  exact absurd he List.not_mem_nil

/-- In every run in which no reply is reflected, every executed command is one
that the client sealed, and each is executed at most once. -/
theorem commands_authentic (bigEndian : Bool) {net : Net}
    (h : Reaches Init (fun s a t => step bigEndian s a = some t) (fun s a => ¬Reflects s a) net) :
    Authentic net := by
  have hsafe : ∃ aes, Safe aes net := by
    refine h.invariant (P := fun net => ∃ aes, Safe aes net) (fun s hs => safe_of_init hs) ?_
    rintro s a t ⟨aes, hs⟩ hok hst
    exact ⟨aes, step_safe hst hs hok⟩
  obtain ⟨aes, hs⟩ := hsafe
  exact hs.hauth

/-- A reflected reply is executed, although the client sealed no such command. -/
theorem reflected_executes {a : Action} (hk : Keyed aes net) (h : step bigEndian net a = some net')
    (hr : Reflects net a) : ¬Authentic net' := by
  cases a with
  | command cmd => exact absurd hr id
  | toClient i len => exact absurd hr id
  | toServer i len os =>
    obtain ⟨⟨origin, m⟩, hm, rfl, hlt, hle, hlen, hsize, hpipe, hfork⟩ := hr
    obtain ⟨w, hw, rfl⟩ := Option.map_eq_some_iff.mp h
    obtain rfl := Option.some.inj (hm.symm.trans hw)
    obtain ⟨hwf, hreply⟩ := hk.hsent _ (List.mem_of_getElem? hm)
    have hreply : IsReply m.payload := hreply
    have hbyte : (m.opened net.server.aes len).body.getD 0 0 = 0 := by
      rcases hreply with ⟨chunk, hchunk⟩ | hdone
      · simp [Sealed.opened, hchunk, dataReply]
      · simp [hdone, doneReply, cmdSize] at hsize
    have hlength : (net.server.decrypt len (m.opened net.server.aes len)).1 = m.payload.length := by
      rw [Crypt.decrypt_of_window (by simp [hlen, Sealed.enclen, encSize]) (hlen ▸ hwf.hlen)
        hwf.hpad hlt hle (by simp [Sealed.opened, hlen, hk.hserver, hwf.haes.symm])]
      simp only [hlen, Sealed.enclen, Sealed.opened]
      omega
    have hruns := handleSendCmd_runs bigEndian net.server len (m.opened net.server.aes len) os
      (by rw [hlength]; exact_mod_cast hsize) hbyte hpipe hfork
    intro hauth
    obtain ⟨cmd, m', hclient, -⟩ := hauth.1 (i, _) (by
      simp only [hruns, Option.toList_some, List.map_cons, List.map_nil]
      exact List.mem_append_right _ (List.mem_singleton_self _))
    have hserver := getElem?_sent_append (k := (handleSendCmd bigEndian net.server len
      (m.opened net.server.aes len) os).replies.map (⟨.server, ·⟩)) hm
    have := hserver.symm.trans hclient
    simp at this

/-- A key whose counters start at 0 and grow by 1. -/
def plainKey : SessionKey := ⟨[], 0, 0⟩

/-- The variables before the session. -/
def freshCrypt : Crypt := ⟨[], 0, 0, 0, 0⟩

/-- A session before the first command. -/
def freshNet : Net := ⟨freshCrypt.setKey plainKey, freshCrypt.setKey plainKey, [], []⟩

/-- The client runs a command, and its output arrives in two replies. -/
def honestActions : List Action :=
  [.command ⟨0, 10, .lit "logread"⟩, .toServer 0 64 ⟨true, true, [ascii "boot ", ascii "; reboot"], false⟩]

/-- The second reply is given back to the server. -/
def attackActions : List Action := honestActions ++ [.toServer 2 64 ⟨true, true, [], false⟩]

/-- The state after a sequence of actions, each of which passes a test. -/
def runActions (test : Net → Action → Bool) (actions : List Action) : Option Net :=
  runAll (step false) test freshNet actions

theorem init_freshNet : Init freshNet := ⟨plainKey, freshCrypt, freshCrypt, rfl⟩

theorem reflected_executes_reboot : ∃ net net' a, Reflects net a ∧
    step false net a = some net' ∧ ¬Authentic net' := by
  have hrun : (runActions (fun _ _ => true) honestActions).any (fun net =>
      decide (Reflects net (.toServer 2 64 ⟨true, true, [], false⟩)) &&
        (step false net (.toServer 2 64 ⟨true, true, [], false⟩)).isSome) = true := by
    decide +kernel
  obtain ⟨net, hnet, htest⟩ := (Option.any_eq_true _ _).mp hrun
  rw [Bool.and_eq_true, decide_eq_true_eq, Option.isSome_iff_exists] at htest
  obtain ⟨hreflects, net', hstep⟩ := htest
  have hreaches : Reaches Init (fun s a t => step false s a = some t) (fun _ _ => True) net :=
    reaches_runAll (fun _ _ _ => trivial) (.start init_freshNet) hnet
  obtain ⟨aes, hkeyed⟩ : ∃ aes, Keyed aes net := by
    refine hreaches.invariant (P := fun net => ∃ aes, Keyed aes net) (fun s hs => ?_) ?_
    · exact (safe_of_init hs).imp fun aes h => h.hkeyed
    · rintro s a t ⟨aes, hs⟩ - hst
      exact ⟨aes, step_keyed hst hs⟩
  exact ⟨net, net', _, hreflects, hstep, reflected_executes hkeyed hstep hreflects⟩

theorem commands_authentic_logread : ∃ net, Reaches Init
    (fun s a t => step false s a = some t) (fun s a => ¬Reflects s a) net ∧
      net.executed = [(0, ascii "logread")] ∧ Authentic net := by
  have hrun : (runActions (fun s a => !decide (Reflects s a)) honestActions).map (·.executed) =
      some [(0, ascii "logread")] := by decide +kernel
  obtain ⟨net, hnet, hexecuted⟩ := Option.map_eq_some_iff.mp hrun
  have hreaches : Reaches Init (fun s a t => step false s a = some t)
      (fun s a => ¬Reflects s a) net :=
    reaches_runAll (fun s a h => by simpa using h) (.start init_freshNet) hnet
  exact ⟨net, hreaches, hexecuted, commands_authentic false hreaches⟩

/-- Without a condition on the attacker, the server runs its own output. -/
theorem not_commands_authentic : ¬ ∀ (bigEndian : Bool) (net : Net),
    Reaches Init (fun s a t => step bigEndian s a = some t) (fun _ _ => True) net →
      Authentic net := by
  intro h
  have hrun : (runActions (fun _ _ => true) attackActions).map (fun net =>
      (net.executed, net.sent[2]?.map (·.origin))) =
      some ([(0, ascii "logread"), (2, ascii "reboot")], some .server) := by decide +kernel
  obtain ⟨net, hnet, hstate⟩ := Option.map_eq_some_iff.mp hrun
  have hreaches : Reaches Init (fun s a t => step false s a = some t) (fun _ _ => True) net :=
    reaches_runAll (fun _ _ _ => trivial) (.start init_freshNet) hnet
  obtain ⟨hexecuted, horigin⟩ := Prod.mk.inj hstate
  obtain ⟨cmd, m, hm, -⟩ := (h false net hreaches).1 (2, ascii "reboot") (by simp [hexecuted])
  simp [hm] at horigin

end NeonWrt.Ead
