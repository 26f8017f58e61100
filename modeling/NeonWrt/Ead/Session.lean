import NeonWrt.Ead.Server

/-!
# Logins of the emergency access daemon

Over every sequence of packets, from any number of clients and with any outcome
of the library calls that can fail, the variable `state` tells which objects
exist, no handler reads one that is missing, and a command is handled only after
the user of the last `SET_USERNAME` was verified.

The number `B` has no such check: `set_state` moves on whatever `t_servergenexp`
returns, relying on that function to return the number inside the object it is
given.
-/

namespace NeonWrt.Ead

open NeonWrt.Lib

/-- The user of the last accepted `SET_USERNAME`, and whether that user was
verified since; the latest mark comes first. -/
def lastLogin : List Mark → Option (Bytes × Bool)
  | [] => none
  | .username name :: _ => some (name, false)
  | .verified name :: marks => (lastLogin marks).map fun l => (l.1, l.2 || l.1 == name)
  | .command :: marks => lastLogin marks

/-- Every command came after its user was verified. -/
def Authorised : List Mark → Prop
  | [] => True
  | .command :: marks => (∃ name, lastLogin marks = some (name, true)) ∧ Authorised marks
  | _ :: marks => Authorised marks

/-- The session key was derived in the open server object, for the current user. -/
def State.KeySet (s : State) : Prop :=
  ∃ ts, s.ts = some ts ∧ s.keyOf = some ts.id ∧ ts.name = s.username

/-- The objects that `state` promises are there, and no others. -/
structure Consistent (s : State) : Prop where
  server : s.ts.isSome ↔ EadType.getPrime.code ≤ s.state.code
  number : s.number.isSome ↔ EadType.sendA.code ≤ s.state.code
  key : s.KeySet ↔ EadType.sendAuth.code ≤ s.state.code
  commands : Authorised s.marks

/-- The functions that return an address inside an object they are given, and
the lookup of a built-in group, do not fail. -/
structure LibraryOk (srp : Srp) : Prop where
  gettcid : srp.gettcid.isSome
  servergenexp : srp.servergenexp.isSome
  serverresponse : srp.serverresponse.isSome

/-- A server object is open for the current user. -/
structure Open (s : State) (ts : Server) : Prop where
  hts : s.ts = some ts
  hname : ts.name = s.username
  htce : s.tce.isSome
  hid : ts.id < s.opened
  hlogin : ∃ b, lastLogin s.marks = some (s.username, b)

/-- How far the current login is. -/
inductive Login (s : State) : Prop
  | idle (hstate : s.state = .setUsername) (hts : s.ts = none)
  | opened (ts : Server) (h : Open s ts) (hstate : s.state = .getPrime)
      (hB : ∀ B, s.B = some B → B.owner ≠ ts.id) (hkey : s.keyOf ≠ some ts.id)
  | exchanged (ts : Server) (data : Bytes) (h : Open s ts) (hstate : s.state = .sendA)
      (hB : s.B = some ⟨ts.id, data⟩) (hkey : s.keyOf ≠ some ts.id)
  | keyed (ts : Server) (data : Bytes) (h : Open s ts) (hstate : s.state = .sendAuth)
      (hB : s.B = some ⟨ts.id, data⟩) (hkey : s.keyOf = some ts.id)
  | verified (ts : Server) (data : Bytes) (h : Open s ts) (hstate : s.state = .sendCmd)
      (hB : s.B = some ⟨ts.id, data⟩) (hkey : s.keyOf = some ts.id)
      (hverified : lastLogin s.marks = some (s.username, true))

/-- What every reachable state satisfies: pointers and keys belong to objects
that were made, so a new object has neither. -/
structure Inv (s : State) : Prop where
  login : Login s
  hB : ∀ B, s.B = some B → B.owner < s.opened
  hkey : ∀ k, s.keyOf = some k → k < s.opened
  hmarks : Authorised s.marks

theorem Inv.consistent {s : State} (h : Inv s) : Consistent s := by
  have hnumber : ∀ ts : Server, ∀ data, s.ts = some ts → s.B = some ⟨ts.id, data⟩ →
      s.number = some data := by
    intro ts data hts hB
    simp [State.number, hts, hB]
  have hkeySet : ∀ ts, Open s ts → (s.KeySet ↔ s.keyOf = some ts.id) := by
    intro ts hopen
    constructor
    · rintro ⟨ts', hts', hk, -⟩
      exact Option.some.inj (hopen.hts.symm.trans hts') ▸ hk
    · exact fun hk => ⟨ts, hopen.hts, hk, hopen.hname⟩
  cases h.login with
  | idle hstate hts =>
    refine ⟨by simp [hstate, hts, EadType.code], ?_, ?_, h.hmarks⟩
    · have : s.number = none := by
        simp only [State.number, hts]
        cases s.B <;> rfl
      simp [hstate, this, EadType.code]
    · simp [State.KeySet, hstate, hts, EadType.code]
  | opened ts hopen hstate hB hkey =>
    refine ⟨by simp [hstate, hopen.hts, EadType.code], ?_, ?_, h.hmarks⟩
    · have : s.number = none := by
        simp only [State.number, hopen.hts]
        cases hb : s.B with
        | none => rfl
        | some B => simp [hB B hb]
      simp [hstate, this, EadType.code]
    · rw [hkeySet ts hopen]
      simp [hstate, hkey, EadType.code]
  | exchanged ts data hopen hstate hB hkey =>
    refine ⟨by simp [hstate, hopen.hts, EadType.code], ?_, ?_, h.hmarks⟩
    · simp [hstate, hnumber ts data hopen.hts hB]
    · rw [hkeySet ts hopen]
      simp [hstate, hkey, EadType.code]
  | keyed ts data hopen hstate hB hkey =>
    refine ⟨by simp [hstate, hopen.hts, EadType.code], ?_, ?_, h.hmarks⟩
    · simp [hstate, hnumber ts data hopen.hts hB, EadType.code]
    · rw [hkeySet ts hopen]
      simp [hstate, hkey]
  | verified ts data hopen hstate hB hkey hv =>
    refine ⟨by simp [hstate, hopen.hts, EadType.code], ?_, ?_, h.hmarks⟩
    · simp [hstate, hnumber ts data hopen.hts hB, EadType.code]
    · rw [hkeySet ts hopen]
      simp [hstate, hkey, EadType.code]

/-- The rest of `parse_message` after the handler, without the responses. -/
def finish (srp : Srp) (h : Option Handled) : Option State :=
  h.bind fun h => setState srp h.nstate h.state

/-- The packet is handled, and the invariant holds afterwards. -/
def Keeps (o : Option State) : Prop := ∃ s, o = some s ∧ Inv s

variable {s : State} {srp : Srp} {pkt : Packet}

theorem setState_self (srp : Srp) (s : State) : setState srp s.state s = some s := by
  rw [setState, if_pos rfl]

theorem Login.ts_isSome (h : Login s) (hs : s.state ≠ .setUsername) : s.ts.isSome := by
  cases h with
  | idle hstate => exact absurd hstate hs
  | opened ts h => simp [h.hts]
  | exchanged ts data h => simp [h.hts]
  | keyed ts data h => simp [h.hts]
  | verified ts data h => simp [h.hts]

theorem Login.code_le (h : Login s) (hs : s.state ≠ .setUsername) :
    EadType.getPrime.code ≤ s.state.code := by
  cases h with
  | idle hstate => exact absurd hstate hs
  | opened _ _ hstate => simp [hstate]
  | exchanged _ _ _ hstate => simp [hstate, EadType.code]
  | keyed _ _ _ hstate => simp [hstate, EadType.code]
  | verified _ _ _ hstate => simp [hstate, EadType.code]

/-- Going back to the start closes the server object, if there is one. -/
theorem setState_setUsername (srp : Srp) (h : Login s) :
    setState srp .setUsername s = some { s with ts := none, state := .setUsername } := by
  by_cases hs : s.state = .setUsername
  · have hts : s.ts = none := by
      cases h with
      | idle _ hts => exact hts
      | opened _ _ hstate => simp [hs] at hstate
      | exchanged _ _ _ hstate => simp [hs] at hstate
      | keyed _ _ _ hstate => simp [hs] at hstate
      | verified _ _ _ hstate => simp [hs] at hstate
    rw [setState, if_pos hs, ← hts, ← hs]
  · obtain ⟨ts, hts⟩ := Option.isSome_iff_exists.mp (h.ts_isSome hs)
    have hcode := h.code_le hs
    have hlt : EadType.setUsername.code < s.state.code :=
      Int.lt_of_lt_of_le (by decide : EadType.setUsername.code < EadType.getPrime.code) hcode
    rw [setState, if_neg hs, if_pos hlt, if_pos ⟨by decide, hcode⟩, hts]
    rfl

/-- A new login opens a server object that has neither a number nor a key yet;
without a password or memory the server waits for another name. -/
theorem setState_getPrime (hok : LibraryOk srp) (hstate : s.state = .setUsername)
    (hts : s.ts = none) (hlogin : ∃ b, lastLogin s.marks = some (s.username, b))
    (hB : ∀ B, s.B = some B → B.owner < s.opened) (hkey : ∀ k, s.keyOf = some k → k < s.opened)
    (hmarks : Authorised s.marks) : Keeps (setState srp .getPrime s) := by
  obtain ⟨index, hindex⟩ := Option.isSome_iff_exists.mp hok.gettcid
  rw [setState, if_neg (by simp [hstate]), if_neg (by simp [hstate, EadType.code])]
  simp only [hstate, preparePassword, hindex]
  cases srp.passwd with
  | none => exact ⟨s, rfl, .idle hstate hts, hB, hkey, hmarks⟩
  | some salt =>
    cases srp.serveropenraw with
    | none => exact ⟨_, rfl, .idle rfl rfl, hB, hkey, hmarks⟩
    | some tsSalt =>
      refine ⟨_, rfl, .opened ⟨s.opened, s.username, tsSalt⟩ ⟨rfl, rfl, rfl, ?_, hlogin⟩ rfl ?_ ?_,
        ?_, ?_, hmarks⟩
      · exact Nat.lt_succ_self _
      · exact fun B hb => Nat.ne_of_lt (hB B hb)
      · exact fun hk => absurd (hkey _ hk) (lt_irrefl _)
      · exact fun B hb => Nat.lt_succ_of_lt (hB B hb)
      · exact fun k hk => Nat.lt_succ_of_lt (hkey k hk)

theorem handlePing_keeps (devName : Bytes) (h : Inv s) :
    Keeps (finish srp (handlePing devName s)) :=
  ⟨s, setState_self srp s, h⟩

theorem handleSetUsername_keeps (hok : LibraryOk srp) (h : Inv s) :
    Keeps (finish srp (handleSetUsername srp pkt s)) := by
  have hopen := setState_getPrime (s := { s with
    ts := none
    state := .setUsername
    username := (cstr (pkt.username.take 32)).take 31
    marks := .username ((cstr (pkt.username.take 32)).take 31) :: s.marks }) hok rfl rfl
    ⟨false, rfl⟩ h.hB h.hkey h.hmarks
  rw [handleSetUsername, setState_setUsername srp h.login]
  exact hopen

theorem handleGetPrime_keeps (hok : LibraryOk srp) (h : Inv s) (hs : s.state = .getPrime) :
    Keeps (finish srp (handleGetPrime s)) := by
  cases h.login with
  | opened ts hopen hstate hB hkey =>
    obtain ⟨index, hindex⟩ := Option.isSome_iff_exists.mp hopen.htce
    obtain ⟨data, hdata⟩ := Option.isSome_iff_exists.mp hok.servergenexp
    rw [handleGetPrime, hindex, hopen.hts]
    simp only [finish, Option.bind_some]
    rw [setState, if_neg (by simp [hstate]), if_neg (by simp [hstate, EadType.code])]
    simp only [hstate, hopen.hts, hdata]
    refine ⟨_, rfl, .exchanged ts data ⟨rfl, hopen.hname, hopen.htce, hopen.hid, hopen.hlogin⟩
      rfl rfl hkey, ?_, h.hkey, h.hmarks⟩
    intro B hb
    obtain rfl := Option.some.inj hb
    exact hopen.hid
  | idle hstate => simp [hs] at hstate
  | exchanged _ _ _ hstate => simp [hs] at hstate
  | keyed _ _ _ hstate => simp [hs] at hstate
  | verified _ _ _ hstate => simp [hs] at hstate

theorem handleSendA_keeps (h : Inv s) (hs : s.state = .sendA) :
    Keeps (finish srp (handleSendA pkt s)) := by
  by_cases hlen : pkt.msgLen < 1 ∨ pkt.msgLen - 1 > 256 + 1
  · rw [handleSendA, if_pos hlen]
    exact ⟨s, setState_self srp s, h⟩
  cases h.login with
  | exchanged ts data hopen hstate hB hkey =>
    have hnumber : s.number = some data := by simp [State.number, hopen.hts, hB]
    rw [handleSendA, if_neg hlen, hnumber]
    simp only [finish, Option.map_some, Option.bind_some]
    rw [setState, if_neg (by simp [hstate]), if_neg (by simp [hstate, EadType.code])]
    simp only [hstate, hopen.hts]
    cases srp.servergetkey with
    | none =>
      -- The key exchange failed: the server goes on waiting for a number.
      exact ⟨_, rfl, .exchanged ts data ⟨rfl, hopen.hname, hopen.htce, hopen.hid,
        hopen.hlogin⟩ rfl hB hkey, h.hB, h.hkey, h.hmarks⟩
    | some k =>
      refine ⟨_, rfl, .keyed ts data ⟨rfl, hopen.hname, hopen.htce, hopen.hid,
        hopen.hlogin⟩ rfl hB rfl, h.hB, ?_, h.hmarks⟩
      intro k hk
      obtain rfl := Option.some.inj hk
      exact hopen.hid
  | idle hstate => simp [hs] at hstate
  | opened _ _ hstate => simp [hs] at hstate
  | keyed _ _ _ hstate => simp [hs] at hstate
  | verified _ _ _ hstate => simp [hs] at hstate

theorem handleSendAuth_keeps (hok : LibraryOk srp) (h : Inv s) (hs : s.state = .sendAuth) :
    Keeps (finish srp (handleSendAuth srp s)) := by
  have hlogin := h.login
  cases h.login with
  | keyed ts data hopen hstate hB hkey =>
    obtain ⟨response, hresponse⟩ := Option.isSome_iff_exists.mp hok.serverresponse
    rw [handleSendAuth, hopen.hts]
    simp only [finish, Option.bind_some]
    cases srp.serververify with
    | false =>
      refine ⟨_, setState_setUsername srp hlogin, .idle rfl rfl, h.hB, h.hkey, h.hmarks⟩
    | true =>
      obtain ⟨b, hb⟩ := hopen.hlogin
      have hv : lastLogin (.verified ts.name :: s.marks) = some (s.username, true) := by
        simp [lastLogin, hb, hopen.hname]
      rw [hresponse]
      simp only [Bool.not_true, Bool.false_eq_true, if_false, Option.map_some, Option.bind_some]
      rw [setState, if_neg (by simp [hstate]), if_neg (by simp [hstate, EadType.code])]
      simp only [hstate]
      exact ⟨_, rfl, .verified ts data ⟨rfl, hopen.hname, hopen.htce, hopen.hid, true, hv⟩ rfl hB
        hkey hv, h.hB, h.hkey, h.hmarks⟩
  | idle hstate => simp [hs] at hstate
  | opened _ _ hstate => simp [hs] at hstate
  | exchanged _ _ _ hstate => simp [hs] at hstate
  | verified _ _ _ hstate => simp [hs] at hstate

theorem handleCmd_keeps (bigEndian : Bool) (h : Inv s) (hs : s.state = .sendCmd) :
    Keeps (finish srp (handleCmd bigEndian pkt s)) := by
  cases h.login with
  | verified ts data hopen hstate hB hkey hv =>
    refine ⟨_, setState_self srp _, .verified ts data ⟨hopen.hts, hopen.hname, hopen.htce,
      hopen.hid, hopen.hlogin⟩ hstate hB hkey hv, h.hB, h.hkey, ⟨s.username, hv⟩, h.hmarks⟩
  | idle hstate => simp [hs] at hstate
  | opened _ _ hstate => simp [hs] at hstate
  | exchanged _ _ _ hstate => simp [hs] at hstate
  | keyed _ _ _ hstate => simp [hs] at hstate

/-- The handler of a packet finds the objects it needs: a message of the key
exchange is handled only when `state` waits for it. -/
theorem handlerOf_keeps (cfg : Config) (h : Inv s) (hok : LibraryOk srp)
    (hexpected : EadType.getPrime.code ≤ pkt.type → s.state.code = pkt.type)
    {handler : State → Option Handled} {minLen : ℤ}
    (hhandler : handlerOf cfg srp pkt pkt.type = some (handler, minLen)) :
    Keeps (finish srp (handler s)) := by
  generalize pkt.type = type at hexpected hhandler
  have hstate : ∀ t : EadType, EadType.getPrime.code ≤ t.code → type = t.code → s.state = t :=
    fun t hge ht => EadType.code_injective ((hexpected (ht ▸ hge)).trans ht)
  unfold handlerOf at hhandler
  split at hhandler
  · obtain ⟨rfl, -⟩ := Prod.mk.inj (Option.some.inj hhandler)
    exact handlePing_keeps cfg.devName h
  · obtain ⟨rfl, -⟩ := Prod.mk.inj (Option.some.inj hhandler)
    exact handleSetUsername_keeps hok h
  · obtain ⟨rfl, -⟩ := Prod.mk.inj (Option.some.inj hhandler)
    exact handleGetPrime_keeps hok h (hstate .getPrime (by decide) rfl)
  · obtain ⟨rfl, -⟩ := Prod.mk.inj (Option.some.inj hhandler)
    exact handleSendA_keeps h (hstate .sendA (by decide) rfl)
  · obtain ⟨rfl, -⟩ := Prod.mk.inj (Option.some.inj hhandler)
    exact handleSendAuth_keeps hok h (hstate .sendAuth (by decide) rfl)
  · obtain ⟨rfl, -⟩ := Prod.mk.inj (Option.some.inj hhandler)
    exact handleCmd_keeps cfg.bigEndian h (hstate .sendCmd (by decide) rfl)
  · exact absurd hhandler (by simp)

/-- Every packet is handled without a missing object, and keeps the invariant. -/
theorem serverStep_inv (cfg : Config) (h : Inv s) (hok : LibraryOk srp) :
    Keeps (serverStep cfg s (pkt, srp)) := by
  have hkeep : Keeps (some s) := ⟨s, rfl, h⟩
  unfold serverStep parseMessage
  by_cases hstate : pkt.type ≥ EadType.getPrime.code ∧ s.state.code ≠ pkt.type
  · rw [if_pos hstate]
    exact hkeep
  by_cases hsid : pkt.type ≠ EadType.ping.code ∧ (pkt.sid &&& 0xf000) >>> 12 ≠ cfg.instanceId
  · rw [if_neg hstate, if_pos hsid]
    exact hkeep
  rw [if_neg hstate, if_neg hsid]
  have hexpected : EadType.getPrime.code ≤ pkt.type → s.state.code = pkt.type := fun hge =>
    not_not.mp fun hne => hstate ⟨hge, hne⟩
  cases hhandler : handlerOf cfg srp pkt pkt.type with
  | none => exact hkeep
  | some handler =>
    obtain ⟨handler, minLen⟩ := handler
    simp only
    by_cases hlen : pkt.len < packetSize + minLen
    · rw [if_pos hlen]
      exact hkeep
    rw [if_neg hlen]
    have hfinish := handlerOf_keeps cfg h hok hexpected hhandler
    obtain ⟨t, ht, hinv⟩ := hfinish
    obtain ⟨handled, hhandled, hset⟩ := Option.bind_eq_some_iff.mp ht
    exact ⟨t, by simp [hhandled, hset], hinv⟩

/-- The daemon has just started. -/
def IsStart (s : State) : Prop := ∃ crypt, s = State.initial crypt

theorem inv_initial (crypt : Crypt) : Inv (State.initial crypt) where
  login := .idle rfl rfl
  hB := fun B hb => by simp [State.initial] at hb
  hkey := fun k hk => by simp [State.initial] at hk
  hmarks := trivial

/-- The server over all runs: `state` tells which objects exist, every packet
finds the objects its handler reads, and commands come after verification. -/
theorem server_consistent (cfg : Config) {s : State}
    (h : Reaches IsStart (fun s a t => serverStep cfg s a = some t)
      (fun _ a => LibraryOk a.2) s) :
    Consistent s ∧ ∀ pkt srp, LibraryOk srp → (serverStep cfg s (pkt, srp)).isSome := by
  have hinv : Inv s := by
    refine h.invariant (P := Inv) ?_ ?_
    · rintro s ⟨crypt, rfl⟩
      exact inv_initial crypt
    · rintro s ⟨pkt, srp⟩ t hs hok hst
      obtain ⟨t', ht', hinv⟩ := serverStep_inv cfg hs hok
      exact Option.some.inj (hst.symm.trans ht') ▸ hinv
  refine ⟨hinv.consistent, fun pkt srp hok => ?_⟩
  obtain ⟨t, ht, -⟩ : Keeps (serverStep cfg _ (pkt, srp)) := serverStep_inv cfg hinv hok
  rw [ht]
  rfl

/-- A server without a device name. -/
def plainConfig : Config := ⟨false, [], 0⟩

/-- A packet of a type, long enough for every handler. -/
def plainPacket (type : EadType) : Packet where
  type := type.code
  sid := 0
  len := 200
  msgLen := 64
  username := ascii "root"
  number := []
  enc := ⟨0, 0, false, []⟩
  outcome := ⟨true, true, [], false⟩

/-- A library all of whose calls succeed. -/
def goodLibrary : Srp where
  passwd := some []
  gettcid := some 1
  serveropenraw := some []
  servergenexp := some []
  servergetkey := some ⟨[], 0, 0⟩
  serververify := true
  serverresponse := some []

theorem LibraryOk.good : LibraryOk goodLibrary := ⟨rfl, rfl, rfl⟩

/-- The messages of a login, with a command after it. -/
def loginTypes : List EadType := [.setUsername, .getPrime, .sendA, .sendAuth, .sendCmd]

/-- The packets of a login and what the library returns meanwhile. -/
def packets (l : List (EadType × Srp)) : List (Packet × Srp) := l.map fun p => (plainPacket p.1, p.2)

/-- The server before the first packet. -/
def freshState : State := State.initial ⟨[], 0, 0, 0, 0⟩

theorem server_consistent_login : ∃ s, s.state = .sendCmd ∧
    s.marks = [.command, .verified (ascii "root"), .username (ascii "root")] ∧ Consistent s := by
  have hrun : (runAll (serverStep plainConfig) (fun _ a => a.2 == goodLibrary) freshState
      (packets (loginTypes.map fun t => (t, goodLibrary)))).map (fun s => (s.state, s.marks)) =
      some (.sendCmd, [.command, .verified (ascii "root"), .username (ascii "root")]) := by
    decide +kernel
  obtain ⟨s, hs, hstate⟩ := Option.map_eq_some_iff.mp hrun
  obtain ⟨hstate, hmarks⟩ := Prod.mk.inj hstate
  have htest : ∀ (_ : State) (a : Packet × Srp), (a.2 == goodLibrary) = true → LibraryOk a.2 :=
    fun _ a h => by
      rw [beq_iff_eq] at h
      exact h ▸ LibraryOk.good
  have hreaches : Reaches IsStart (fun s a t => serverStep plainConfig s a = some t)
      (fun _ a => LibraryOk a.2) s := reaches_runAll htest (.start ⟨_, rfl⟩) hs
  exact ⟨s, hstate, hmarks, (server_consistent plainConfig hreaches).1⟩

/-- If `t_servergenexp` could fail, the server would wait for the client's
number without one of its own. -/
theorem not_server_consistent : ¬ ∀ (cfg : Config) (s : State),
    Reaches IsStart (fun s a t => serverStep cfg s a = some t) (fun _ _ => True) s →
      Consistent s := by
  intro h
  have hrun : (runAll (serverStep plainConfig) (fun _ _ => true) freshState
      (packets [(.setUsername, goodLibrary),
        (.getPrime, { goodLibrary with servergenexp := none })])).map
        (fun s => (s.state, s.number)) = some (.sendA, none) := by
    decide +kernel
  obtain ⟨s, hs, hstate⟩ := Option.map_eq_some_iff.mp hrun
  obtain ⟨hstate, hnumber⟩ := Prod.mk.inj hstate
  have hreaches : Reaches IsStart (fun s a t => serverStep plainConfig s a = some t)
      (fun _ _ => True) s := reaches_runAll (fun _ _ _ => trivial) (.start ⟨_, rfl⟩) hs
  have := (h plainConfig s hreaches).number
  simp [hstate, hnumber] at this

end NeonWrt.Ead
