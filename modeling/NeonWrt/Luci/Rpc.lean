import NeonWrt.Lib.JavaScript

/-!
# Batched remote calls

`rpc.js` sends each call as a JSON-RPC message with an id of its own. `luci.js` holds
calls back in a queue and sends them in one HTTP request, whose reply is an array. It
hands the first element of the array to the first call of the batch, the second to
the second, and so on, and never looks at the ids.
-/

namespace NeonWrt.Luci.Rpc

open Lib

/-- Why a call is rejected. -/
inductive Err
  /-- the HTTP request failed -/
  | request
  /-- `No related RPC reply` -/
  | noReply
  /-- `RPC call to %s/%s failed with HTTP error %d: %s` -/
  | http (status : ℕ) (statusText : JsString)
  /-- `JSON.parse` threw -/
  | syntaxError
  /-- `RPC call to %s/%s returned invalid message frame` -/
  | invalidFrame
  /-- `RPC call to %s/%s failed with error %d: %s` -/
  | failed (code message : JsValue)
  /-- `RPC call to %s/%s failed with ubus code %d: %s` -/
  | ubus (code : Option JsValue)
  /-- what an interceptor or a filter threw -/
  | thrown (value : JsValue)

/-- The request info that `declare` and `list` store, with the first key of `expect`. -/
structure Req where
  object : JsString
  method : JsString
  expect : Option (JsString × JsValue)
  filter : Option (Option JsValue → Except Err (Option JsValue))
  raise : Bool

/-- The options of an HTTP request, as far as batching looks at them. -/
structure Opt where
  method : JsString
  url : JsString
  content : JsValue
  nobatch : Bool

/-- An entry of the request queue; its two callbacks settle the call `req`. -/
structure Entry where
  opt : Opt
  req : Req

/-- The id of the message that the entry sends. -/
def Entry.id (e : Entry) : Option JsValue := e.opt.content.get? (units "id")

/-- What the source leaves to others: `JSON.parse`, and the registered interceptors, which
fail or let the message through, perhaps rewritten. -/
structure Env where
  parse : JsString → Option JsValue
  intercept : JsValue → Req → Except Err JsValue

/-- `isQueueableRequest`, with the expanded base URL if `classes.rpc` is there. -/
def isQueueableRequest (base : Option JsString) (opt : Opt) : Bool :=
  match base with
  | none => false
  | some base =>
    opt.method = units "POST" && opt.content.isObjectType && !opt.nobatch && base.isPrefixOf opt.url

/-- The part of `request` that queues: the new queue, and whether the request is sent at once. -/
def request (base : Option JsString) (queue : List Entry) (e : Entry) : List Entry × Bool :=
  if isQueueableRequest base e.opt then (queue ++ [e], false) else (queue, true)

/-- The options of the request that carries the batch. -/
def batchOpt (first : Entry) (batch : List Entry) : Opt :=
  { first.opt with content := .arr (batch.map (·.opt.content)), nobatch := true }

/-- The request with the batch is not queued again. -/
theorem not_isQueueableRequest_batchOpt (base : Option JsString) (first : Entry)
    (batch : List Entry) : isQueueableRequest base (batchOpt first batch) = false := by
  cases base <;> simp [isQueueableRequest, batchOpt]

/-- What a response holds: the text that came, or an object that `clone` put there. -/
inductive Body
  | text (s : JsString)
  | json (v : JsValue)

/-- A response. -/
structure Response where
  ok : Bool
  status : ℕ
  statusText : JsString
  /-- `xhr.responseText` -/
  xhr : JsString
  body : Body

/-- A response with the text of its request. -/
def Response.ofText (ok : Bool) (status : ℕ) (statusText text : JsString) : Response :=
  ⟨ok, status, statusText, text, .text text⟩

/-- `String(content)` of a number or a truth value or a string, as `JSON.parse` reads it back. -/
def Env.reparse (env : Env) : JsValue → Option JsValue
  | .str s => env.parse s
  | v => some v

/-- `json` of a response. -/
def Response.json (env : Env) (r : Response) : Option JsValue :=
  match r.body with
  | .text s => env.parse s
  | .json v => env.reparse v

/-- `clone`. An object becomes the content, a text is parsed again when it is read, and for null
the response falls back on the text of the whole request. -/
def Response.clone (r : Response) : JsValue → Response
  | .null => { r with body := .text r.xhr }
  | v => { r with body := .json v }

/-- The loop of `flushRequestQueue` over the batch, with what is left of the array. -/
def dispatch (reply : Response) : List Entry → List JsValue → List (Entry × Except Err Response)
  | [], _ => []
  | e :: batch, [] => (e, .error .noReply) :: dispatch reply batch []
  | e :: batch, v :: json => (e, .ok (reply.clone v)) :: dispatch reply batch json

/-- The array that the loop takes replies from; a reply of another kind has none. -/
def replies (env : Env) (reply : Response) : List JsValue :=
  match reply.json env with
  | some (.arr items) => items
  | _ => []

/-- `flushRequestQueue` once the HTTP request came to an end: what each promise of the batch
gets. -/
def flushRequestQueue (env : Env) (queue : List Entry) (outcome : Except Err Response) :
    List (Entry × Except Err Response) :=
  match outcome with
  | .ok reply => dispatch reply queue (replies env reply)
  | .error e => queue.map fun entry => (entry, .error e)

/-- A call of `req.resolve` or of `req.reject`. -/
inductive Call
  | resolve (ret : Option JsValue)
  | reject (err : Err)

/-- `msg.jsonrpc != '2.0'`, which the number two and an array of one such text pass too. -/
def isVersion2 : Option JsValue → Bool
  | some (.num q) => q = 2
  | some v => v.printsAs (units "2.0")
  | none => false

/-- `ret[key]` -/
def member (ret : JsValue) (key : JsString) : Option JsValue :=
  match ret with
  | .arr items => if key = units "length" then some (.num items.length) else none
  | .str s => if key = units "length" then some (.num s.length) else none
  | v => v.get? key

/-- `Object.prototype.toString` as far as JSON values differ by it. -/
def sameType : Option JsValue → JsValue → Bool
  | some .null, .null | some (.bool _), .bool _ | some (.num _), .num _ | some (.str _), .str _
  | some (.arr _), .arr _ | some (.obj _), .obj _ => true
  | _, _ => false

/-- `v == null` -/
def isNull : Option JsValue → Bool
  | none | some .null => true
  | _ => false

/-- The loop over `req.expect`, which stops after the first key. -/
def applyExpect (expect : Option (JsString × JsValue)) (ret : Option JsValue) : Option JsValue :=
  match expect with
  | none => ret
  | some (key, fallback) =>
    let ret := match ret with
      | some v => if isNull ret || key = [] then ret else member v key
      | none => none
    if isNull ret || !sameType ret fallback then some fallback else ret

/-- The result of a message, or the error of its ubus code. -/
def resultOf (req : Req) (msg : JsValue) : Except Err (Option JsValue) :=
  if req.object = [] ∧ req.method = [] then .ok (msg.get? (units "result"))
  else
    match msg.get? (units "result") with
    | some (.arr result) =>
      let isZero := match result.head? with
        | some (.num q) => q = 0
        | _ => false
      if req.raise && !isZero then .error (.ubus result.head?)
      else .ok (if 1 < result.length then result[1]? else result[0]?)
    | _ => .ok (some .null)

/-- The checks of the message frame in `handleCallReply`. -/
def checkFrame (msg : JsValue) : Except Err Unit :=
  if !(msg.isObjectType && !isNull (some msg)) || !isVersion2 (msg.get? (units "jsonrpc")) then
    .error .invalidFrame
  else
    match msg.get? (units "error") with
    | some err =>
      match err.get? (units "code"), err.get? (units "message") with
      | some code, some message =>
        if code.truthy && message.truthy then .error (.failed code message) else .ok ()
      | _, _ => .ok ()
    | none => .ok ()

/-- `handleCallReply`: the call it makes. A frame that fails its check is rejected here, what is
thrown after that is rejected by `parseCallReply`. -/
def handleCallReply (req : Req) (msg : JsValue) : Except Err Call :=
  match checkFrame msg with
  | .error e => .ok (.reject e)
  | .ok () => do
    let ret ← resultOf req msg
    let ret := applyExpect req.expect ret
    match req.filter with
    | some filter => return .resolve (← filter ret)
    | none => return .resolve ret

/-- `parseCallReply`: the calls of `req.resolve` and `req.reject` that are made in the end. -/
def parseCallReply (env : Env) (req : Req) (res : Except Err Response) : List Call :=
  match res with
  | .error e => [.reject e]
  | .ok r =>
    if !r.ok then [.reject (.http r.status r.statusText)]
    else
      match r.json env with
      | none => [.reject .syntaxError]
      | some msg =>
        match env.intercept msg req with
        | .error e => [.reject e]
        | .ok msg =>
          match handleCallReply req msg with
          | .error e => [.reject e]
          | .ok call => [call]

/-- A reply that a call is resolved by: the HTTP request went well, the interceptors let the
message through, its frame is valid and reports no error, no ubus code stands in the way, and
the filter does not throw. -/
def Accepts (env : Env) (req : Req) (r : Response) : Prop :=
  r.ok = true ∧ ∃ msg msg' ret, r.json env = some msg ∧ env.intercept msg req = .ok msg' ∧
    checkFrame msg' = .ok () ∧ resultOf req msg' = .ok ret ∧
    ∀ filter ∈ req.filter, ∃ ret', filter (applyExpect req.expect ret) = .ok ret'

theorem handleCallReply_resolve_iff {req : Req} {msg : JsValue} :
    (∃ ret, handleCallReply req msg = .ok (.resolve ret)) ↔
      ∃ ret, checkFrame msg = .ok () ∧ resultOf req msg = .ok ret ∧
        ∀ filter ∈ req.filter, ∃ ret', filter (applyExpect req.expect ret) = .ok ret' := by
  unfold handleCallReply
  cases hframe : checkFrame msg with
  | error e => simp
  | ok u =>
    cases hret : resultOf req msg with
    | error e => simp [bind, Except.bind]
    | ok ret =>
      cases hfilter : req.filter with
      | none => simp [bind, Except.bind, pure, Except.pure]
      | some filter =>
        cases hf : filter (applyExpect req.expect ret) with
        | error e => simp [bind, Except.bind, hf]
        | ok ret' => simp [bind, Except.bind, pure, Except.pure, hf]

/-- A reply settles its call with a single call of one of the two functions. -/
theorem length_parseCallReply (env : Env) (req : Req) (res : Except Err Response) :
    (parseCallReply env req res).length = 1 := by
  unfold parseCallReply
  split
  · rfl
  · split_ifs
    · rfl
    · split
      · rfl
      · split
        · rfl
        · split <;> rfl

/-- Accepted replies are those that resolve the call. -/
theorem resolve_mem_iff {env : Env} {req : Req} {r : Response} :
    (∃ ret, Call.resolve ret ∈ parseCallReply env req (.ok r)) ↔ Accepts env req r := by
  cases hok : r.ok with
  | false => simp [parseCallReply, Accepts, hok]
  | true =>
    cases hjson : r.json env with
    | none => simp [parseCallReply, Accepts, hok, hjson]
    | some msg =>
      cases hint : env.intercept msg req with
      | error e => simp [parseCallReply, Accepts, hok, hjson, hint]
      | ok msg' =>
        have haccepts : Accepts env req r ↔ ∃ ret, handleCallReply req msg' = .ok (.resolve ret) := by
          rw [handleCallReply_resolve_iff]
          simp [Accepts, hok, hjson, hint]
        rw [haccepts]
        cases hcall : handleCallReply req msg' with
        | error e => simp [parseCallReply, hok, hjson, hint, hcall]
        | ok call => cases call <;> simp [parseCallReply, hok, hjson, hint, hcall]

theorem not_resolve_mem_error {env : Env} {req : Req} {e : Err} {ret : Option JsValue} :
    Call.resolve ret ∉ parseCallReply env req (.error e) := by
  simp [parseCallReply]

/-- The calls that every entry of a batch gets. -/
def settled (env : Env) (queue : List Entry) (outcome : Except Err Response) :
    List (Entry × List Call) :=
  (flushRequestQueue env queue outcome).map fun p => (p.1, parseCallReply env p.1.req p.2)

/-- The message has the id of the entry. -/
def Carries (msg : Option JsValue) (e : Entry) : Prop :=
  ∃ id, e.id = some id ∧ msg.bind (·.get? (units "id")) = some id

/-- The message that a promise of the batch hands over. -/
def message (env : Env) : Except Err Response → Option JsValue
  | .ok r => r.json env
  | .error _ => none

/-- The messages of the array that came back. -/
def messages (env : Env) : Except Err Response → List (Option JsValue)
  | .ok reply => (replies env reply).map fun v => (reply.clone v).json env
  | .error _ => []

/-- Every entry is settled exactly once, is resolved only by a reply with its own id, and is
rejected if there is no such reply. -/
structure Settles (env : Env) (queue : List Entry) (outcome : Except Err Response) : Prop where
  entries : (settled env queue outcome).map (·.1) = queue
  once : ∀ p ∈ settled env queue outcome, p.2.length = 1
  own : ∀ p ∈ flushRequestQueue env queue outcome, ∀ ret,
    Call.resolve ret ∈ parseCallReply env p.1.req p.2 → Carries (message env p.2) p.1
  missing : ∀ p ∈ settled env queue outcome,
    (∀ msg ∈ messages env outcome, ¬ Carries msg p.1) → ∃ err, p.2 = [.reject err]

section Dispatch

variable {env : Env} {reply : Response}

/-- What the loop gives to the entry at one position. -/
theorem getElem?_dispatch (queue : List Entry) (json : List JsValue) (i : ℕ) :
    (dispatch reply queue json)[i]? = queue[i]?.map fun e =>
      (e, match json[i]? with
        | some v => .ok (reply.clone v)
        | none => .error .noReply) := by
  induction queue generalizing json i with
  | nil => simp [dispatch]
  | cons e queue ih =>
    cases json <;> cases i <;> simp [dispatch, ih]

theorem map_fst_flushRequestQueue (queue : List Entry) (outcome : Except Err Response) :
    (flushRequestQueue env queue outcome).map (·.1) = queue := by
  cases outcome with
  | error e => simp [flushRequestQueue, Function.comp_def]
  | ok reply =>
    refine List.ext_getElem? fun i => ?_
    rw [flushRequestQueue, List.getElem?_map, getElem?_dispatch, Option.map_map]
    exact Option.map_id'

/-- An entry that a reply is handed to, and the reply. -/
theorem mem_dispatch_ok {queue : List Entry} {json : List JsValue} {e : Entry} {r : Response} :
    (e, .ok r) ∈ dispatch reply queue json ↔
      ∃ (i : ℕ) (v : JsValue), queue[i]? = some e ∧ json[i]? = some v ∧ r = reply.clone v := by
  rw [List.mem_iff_getElem?]
  constructor
  · rintro ⟨i, hi⟩
    rw [getElem?_dispatch] at hi
    obtain ⟨e', he, hpair⟩ := Option.map_eq_some_iff.mp hi
    obtain ⟨rfl, hr⟩ := Prod.mk.inj hpair
    cases hv : json[i]? with
    | none => simp [hv] at hr
    | some v =>
      rw [hv] at hr
      exact ⟨i, v, he, hv, (Except.ok.inj hr).symm⟩
  · rintro ⟨i, v, he, hv, rfl⟩
    exact ⟨i, by rw [getElem?_dispatch, he, hv]; rfl⟩

end Dispatch

/-- A batch is settled as it should be exactly when no call accepts, at its own place in the
array, a reply with another id. -/
theorem flushRequestQueue_settles_iff (env : Env) (queue : List Entry)
    (outcome : Except Err Response) :
    Settles env queue outcome ↔
      ∀ reply, outcome = .ok reply → ∀ (i : ℕ) (e : Entry) (v : JsValue),
        queue[i]? = some e → (replies env reply)[i]? = some v →
        Accepts env e.req (reply.clone v) → Carries ((reply.clone v).json env) e := by
  constructor
  · rintro h reply rfl i e v he hv haccepts
    obtain ⟨ret, hret⟩ := resolve_mem_iff.mpr haccepts
    exact h.own (e, .ok (reply.clone v)) (mem_dispatch_ok.mpr ⟨i, v, he, hv, rfl⟩) ret hret
  · intro h
    have hown : ∀ p ∈ flushRequestQueue env queue outcome, ∀ ret,
        Call.resolve ret ∈ parseCallReply env p.1.req p.2 →
        Carries (message env p.2) p.1 ∧ message env p.2 ∈ messages env outcome := by
      rintro ⟨e, res⟩ hp ret hret
      cases res with
      | error err => exact absurd hret not_resolve_mem_error
      | ok r =>
        cases outcome with
        | error err =>
          obtain ⟨entry, -, hpair⟩ := List.mem_map.mp hp
          exact absurd (congrArg Prod.snd hpair) (by simp)
        | ok reply =>
          obtain ⟨i, v, he, hv, rfl⟩ := mem_dispatch_ok.mp hp
          refine ⟨h reply rfl i e v he hv (resolve_mem_iff.mp ⟨ret, hret⟩), ?_⟩
          exact List.mem_map.mpr ⟨v, List.mem_of_getElem? hv, rfl⟩
    refine ⟨?_, ?_, fun p hp ret hret => (hown p hp ret hret).1, ?_⟩
    · rw [settled, List.map_map]
      exact map_fst_flushRequestQueue queue outcome
    · intro p hp
      obtain ⟨q, -, rfl⟩ := List.mem_map.mp hp
      exact length_parseCallReply env q.1.req q.2
    · intro p hp hmissing
      obtain ⟨q, hq, rfl⟩ := List.mem_map.mp hp
      obtain ⟨call, hcall⟩ := List.length_eq_one_iff.mp (length_parseCallReply env q.1.req q.2)
      cases call with
      | reject err => exact ⟨err, hcall⟩
      | resolve ret =>
        -- a resolved call has its own reply in the array
        obtain ⟨hcarries, hmem⟩ := hown q hq ret (by simp [hcall])
        exact absurd hcarries (hmissing _ hmem)

/-- A call of `object.method` with an id. -/
def callEntry (id : ℚ) : Entry where
  opt := ⟨units "POST", units "/ubus/", .obj [(units "id", .num id)], false⟩
  req := ⟨units "network", units "status", none, none, false⟩

/-- A successful reply to the call with an id. -/
def replyTo (id : ℚ) : JsValue :=
  .obj [(units "jsonrpc", .str (units "2.0")), (units "id", .num id),
    (units "result", .arr [.num 0, .str (units "up")])]

/-- An array with the reply to the second call only. -/
def secondText : JsString :=
  units "[\x7b\"jsonrpc\":\"2.0\",\"id\":2,\"result\":[0,\"up\"]\x7d]"

/-- That text is the only one in the run, and there are no interceptors. -/
def secondOnly : Env where
  parse s := if s = secondText then some (.arr [replyTo 2]) else none
  intercept msg _ := .ok msg

/-- With only the second reply in the array, the first call is resolved by it. -/
theorem not_settles_secondOnly :
    ¬ Settles secondOnly [callEntry 1, callEntry 2]
      (.ok (.ofText true 200 (units "OK") secondText)) := by
  intro h
  have haccepts : Accepts secondOnly (callEntry 1).req
      ((Response.ofText true 200 (units "OK") secondText).clone (replyTo 2)) :=
    ⟨rfl, replyTo 2, replyTo 2, some (.str (units "up")), rfl, rfl, rfl, rfl, by simp [callEntry]⟩
  obtain ⟨ret, hret⟩ := resolve_mem_iff.mpr haccepts
  obtain ⟨id, hid, hmsg⟩ := h.own (callEntry 1, .ok _)
    (mem_dispatch_ok.mpr ⟨0, replyTo 2, rfl, rfl, rfl⟩) ret hret
  have hone : JsValue.num 1 = id := Option.some.inj hid
  have htwo : JsValue.num 2 = id := Option.some.inj hmsg
  rw [← htwo] at hone
  exact absurd (JsValue.num.inj hone) (by norm_num)

/-- A call is made, or the queue is sent and its request comes to an end. -/
inductive Event
  | call (e : Entry)
  | flush (outcome : Except Err Response)

/-- The queue, and what the calls of earlier batches got. -/
structure State where
  queue : List Entry
  done : List (Entry × List Call)

/-- One event. Calls that are not batched are no concern of the queue. -/
def step (env : Env) (base : Option JsString) (s : State) : Event → State
  | .call e => { s with queue := (request base s.queue e).1 }
  | .flush outcome => ⟨[], s.done ++ settled env s.queue outcome⟩

/-- The batched calls of a list of events, in order. -/
def calls (base : Option JsString) (events : List Event) : List Entry :=
  events.filterMap fun
    | .call e => if isQueueableRequest base e.opt then some e else none
    | .flush _ => none

theorem step_settled (env : Env) (base : Option JsString) (s : State) (ev : Event) :
    (step env base s ev).done.map (·.1) ++ (step env base s ev).queue =
      s.done.map (·.1) ++ s.queue ++ calls base [ev] := by
  cases ev with
  | call e =>
    by_cases hq : isQueueableRequest base e.opt = true
    · simp [step, request, calls, hq]
    · simp [step, request, calls, hq]
  | flush outcome =>
    have hentries : (settled env s.queue outcome).map (·.1) = s.queue := by
      rw [settled, List.map_map]
      exact map_fst_flushRequestQueue s.queue outcome
    simp [step, calls, hentries]

end NeonWrt.Luci.Rpc
