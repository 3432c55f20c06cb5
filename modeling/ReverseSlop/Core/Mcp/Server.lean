import ReverseSlop.Core.Re.TypeCatalog

namespace slop.core.mcp

open Json (Value)
open Numeral (ascii)
open re.type_catalog (object_of valid_object_of)

def kProtocolVersion : String := "2025-06-18"

def kServerName : String := "reverse-slop"

def kServerVersion : String := "0.1.1"

def kInstructions : String :=
  "Windows reverse-engineering workbench. One tool per domain, each " ++
  "dispatched by an 'action' enum; read a tool's description before first " ++
  "use. Core model: ONE shared session, the UI and every tool see the same " ++
  "attached target and the same loaded binary (see 'state' in this " ++
  "response). Open every session with target.status and disasm.loaded. " ++
  "Static flow: disasm.load(path) -> poll disasm.loaded until " ++
  "image.hype.ready=true -> functions/xrefs/strings -> decomp.function. " ++
  "Live flow: target.list -> target.attach(pid) -> memory.scan. Actions " ++
  "fail fast with structured errors when a precondition is missing (target " ++
  "attached, image.ready, image.hype.ready), re-check state rather than " ++
  "retrying. driver.status reports whether the slopdrvr kernel backend is " ++
  "active; kernel-only actions return structured errors when it is not. " ++
  "Annotations (disasm.symbol_set, notes, types) persist per binary hash " ++
  "and are shared with the UI."

/-- What a request finds of the rest of the program. The list of tools is made of literals, and the payload of a tool
is written with escapes for all that is not ASCII. -/
structure env_t where
  session_state : Value
  tools : Value
  call_tool : List UInt8 → Value → Value × Bool
  dump : Value → List UInt8
  active : List (List UInt8)
  tools_valid : tools.valid = true
  dump_ascii : ∀ v, ∀ c ∈ dump v, c < 128

/-- A response, none for a notification, or an exception of the JSON library. -/
inductive handled_t where
  | thrown
  | silent
  | answered (response : Value)

def rpc_error (code : Int64) (message : List UInt8) (id : Value) : Value :=
  object_of [("jsonrpc", .string (ascii "2.0")),
    ("error", object_of [("code", .number_integer code), ("message", .string message)]), ("id", id)]

def rpc_result (result id : Value) : Value :=
  object_of [("jsonrpc", .string (ascii "2.0")), ("result", result), ("id", id)]

/-- A number in decimal, behind a minus sign if it is negative. -/
def to_string (n : Int64) : List UInt8 := (if n < 0 then ascii "-" else []) ++ Numeral.print 10 n.toInt.natAbs

def request_key (session : List UInt8) : Value → Option (List UInt8)
  | .string s => some (session ++ [0] ++ ascii "s:" ++ s)
  | .number_unsigned n => some (session ++ [0] ++ ascii "u:" ++ Numeral.print 10 n.toNat)
  | .number_integer n => some (session ++ [0] ++ ascii "i:" ++ to_string n)
  | _ => none

/-- The answer to `tools/call`. -/
def tools_call (env : env_t) (session : List UInt8) (params id : Value) : Value :=
  match params.member (ascii "name") with
  | some (.string name) =>
    let args := (params.member (ascii "arguments")).getD (.object [])
    if (request_key session id).any env.active.contains then rpc_error (-32600) (ascii "duplicate active request id") id
    else
      let (payload, is_error) := env.call_tool name args
      rpc_result
        (object_of [("content", .array [object_of [("type", .string (ascii "text")), ("text", .string (env.dump payload))]]),
          ("isError", .boolean is_error)])
        id
  | _ => rpc_error (-32602) (ascii "tools/call: missing tool name") id

/-- The answer to a request. Looking for the id of one that is no object throws. -/
def handle_request (env : env_t) (session : List UInt8) (req : Value) : handled_t :=
  match req.member (ascii "method") with
  | some (.string method) =>
    let id := (req.member (ascii "id")).getD .null
    let params := (req.member (ascii "params")).getD (.object [])
    if method = ascii "initialize" then
      .answered <| rpc_result
        (object_of [("protocolVersion", .string (ascii kProtocolVersion)),
          ("capabilities", object_of [("tools", object_of [("listChanged", .boolean false)])]),
          ("serverInfo", object_of [("name", .string (ascii kServerName)), ("version", .string (ascii kServerVersion))]),
          ("instructions", .string (ascii kInstructions)), ("state", env.session_state)])
        id
    else if method = ascii "notifications/initialized" then .silent
    else if method = ascii "notifications/cancelled" then .silent
    else if method = ascii "ping" then .answered (rpc_result (.object []) id)
    else if method = ascii "tools/list" then .answered (rpc_result (object_of [("tools", env.tools)]) id)
    else if method = ascii "tools/call" then .answered (tools_call env session params id)
    else .answered (rpc_error (-32601) (ascii "method not found: " ++ method) id)
  | _ =>
    match req with
    | .object _ =>
      .answered (rpc_error (-32600) (ascii "invalid request: missing method") ((req.member (ascii "id")).getD .null))
    | _ => .thrown

/-- The responses to the elements of a batch, each of which has its own environment. An exception ends the loop. -/
def handle_all (env : Nat → env_t) (session : List UInt8) : Nat → List Value → Option (List (Option Value))
  | _, [] => some []
  | i, r :: rs =>
    match handle_request (env i) session r with
    | .thrown => none
    | .silent => (handle_all env session (i + 1) rs).map (none :: ·)
    | .answered response => (handle_all env session (i + 1) rs).map (some response :: ·)

/-- What a post is answered with. What failed gets an error of the server as a whole, with status 500, that belongs to
none of its elements. -/
inductive reply_t where
  | single (response : Option Value)
  | batch (responses : List (Option Value))
  | failed

/-- What is sent. Nothing is sent with status 204. -/
def reply_t.body : reply_t → Option Value
  | .single response => response
  | .batch responses =>
    if (responses.filterMap id).isEmpty then none else some (.array (responses.filterMap id))
  | .failed => none

/-- Writing a document throws if a text in it is not UTF-8. -/
def reply_t.written (reply : reply_t) : reply_t := if ∀ v ∈ reply.body, v.valid = true then reply else .failed

/-- The handler of a post whose body is a document. -/
def post (env : Nat → env_t) (session : List UInt8) (req_json : Value) : reply_t :=
  match req_json with
  | .array items =>
    match handle_all env session 0 items with
    | none => .failed
    | some responses => (reply_t.batch responses).written
  | _ =>
    match handle_request (env 0) session req_json with
    | .thrown => .failed
    | .silent => (reply_t.single none).written
    | .answered response => (reply_t.single (some response)).written

/-- An object with a text as its method. -/
def IsRequest (v : Value) : Prop := ∃ method, v.member (ascii "method") = some (.string method)

def is_object : Value → Prop
  | .object _ => True
  | _ => False

/-- The methods that the server takes as notifications. -/
def notifications : List (List UInt8) := ["notifications/initialized", "notifications/cancelled"].map ascii

/-- A response to an id, with either a result or an error. -/
def Responds (id r : Value) : Prop :=
  r.member (ascii "id") = some id ∧ (r.member (ascii "result")).isSome ≠ (r.member (ascii "error")).isSome

/-- What an element of a body is due: a request with an id one response with that id, with a result or an error, a
notification none, and what is no request one error. -/
inductive Due (v : Value) : Option Value → Prop
  | request {id r : Value} (hrequest : IsRequest v) (hid : v.member (ascii "id") = some id)
    (hr : Responds id r) : Due v (some r)
  | notification (hrequest : IsRequest v) (hid : v.member (ascii "id") = none) : Due v none
  | invalid {r : Value} (hrequest : ¬ IsRequest v) (herror : (r.member (ascii "error")).isSome = true) : Due v (some r)

/-- Each element gets what it is due. A body that is no batch and no request is due nothing. -/
def Disciplined (reply : reply_t) : Value → Prop
  | .array items => ∃ responses, reply = .batch responses ∧ List.Forall₂ Due items responses
  | v => IsRequest v → ∃ response, reply = .single response ∧ Due v response

/-- An object whose id is there exactly if its method is none of the notifications. What `initialize` returns can be
written. -/
def Proper (env : env_t) (v : Value) : Prop :=
  is_object v ∧ ∀ method, v.member (ascii "method") = some (.string method) →
    ((v.member (ascii "id")).isSome ↔ method ∉ notifications) ∧
      (method = ascii "initialize" → env.session_state.valid = true)

/-- A document that was read, in which all texts are UTF-8. -/
structure body_t where
  value : Value
  valid : value.valid = true

section

variable {members : List (String × Value)} {id v : Value} {env : env_t} {session : List UInt8}

/-- The members of an object with different keys are found. -/
theorem member_object_of (names : List String) (hnames : members.map Prod.fst = names) (hkeys : (names.map ascii).Nodup)
    (key : List UInt8) : (object_of members).member key = some v ↔ ∃ e ∈ members, ascii e.1 = key ∧ e.2 = v := by
  subst hnames
  rw [List.map_map, List.Nodup, List.pairwise_map] at hkeys
  have hmem : (key, v) ∈ SortedMap.collect (fun e : String × Value => (ascii e.1, e.2)) members ↔
      ∃ e ∈ members, (key, v) = (ascii e.1, e.2) := SortedMap.mem_collect hkeys
  rw [object_of, Value.member, SortedMap.find_eq_some SortedMap.sorted_collect, hmem]
  simp only [Prod.mk.injEq, eq_comm]

theorem member_of_mem (names : List String) (hnames : members.map Prod.fst = names) (hkeys : (names.map ascii).Nodup)
    {name : String} (hv : (name, v) ∈ members) : (object_of members).member (ascii name) = some v :=
  (member_object_of names hnames hkeys _).mpr ⟨_, hv, rfl, rfl⟩

theorem member_of_not_mem (names : List String) (hnames : members.map Prod.fst = names) (hkeys : (names.map ascii).Nodup)
    {key : List UInt8} (hkey : key ∉ names.map ascii) : (object_of members).member key = none := by
  refine Option.eq_none_iff_forall_ne_some.mpr fun v hv => hkey ?_
  obtain ⟨e, he, hname, -⟩ := (member_object_of names hnames hkeys key).mp hv
  rw [← hnames, List.map_map]
  exact List.mem_map.mpr ⟨e, he, hname⟩

theorem responds_rpc_result (result id : Value) : Responds id (rpc_result result id) := by
  have hkeys : (["jsonrpc", "result", "id"].map ascii).Nodup := by decide
  have hresult : (rpc_result result id).member (ascii "result") = some result :=
    member_of_mem ["jsonrpc", "result", "id"] rfl hkeys (by simp)
  have herror : (rpc_result result id).member (ascii "error") = none :=
    member_of_not_mem ["jsonrpc", "result", "id"] rfl hkeys (by decide)
  refine ⟨member_of_mem ["jsonrpc", "result", "id"] rfl hkeys (by simp), ?_⟩
  simp [hresult, herror]

theorem rpc_error_spec (code : Int64) (message : List UInt8) (id : Value) :
    Responds id (rpc_error code message id) ∧ ((rpc_error code message id).member (ascii "error")).isSome = true := by
  have hkeys : (["jsonrpc", "error", "id"].map ascii).Nodup := by decide
  have hresult : (rpc_error code message id).member (ascii "result") = none :=
    member_of_not_mem ["jsonrpc", "error", "id"] rfl hkeys (by decide)
  have herror : (rpc_error code message id).member (ascii "error") =
      some (object_of [("code", .number_integer code), ("message", .string message)]) :=
    member_of_mem ["jsonrpc", "error", "id"] rfl hkeys (by simp)
  refine ⟨⟨member_of_mem ["jsonrpc", "error", "id"] rfl hkeys (by simp), ?_⟩, by rw [herror]; rfl⟩
  simp [hresult, herror]

theorem valid_utf8_append {s t : List UInt8} (hs : Json.valid_utf8 s = true) (ht : Json.valid_utf8 t = true) :
    Json.valid_utf8 (s ++ t) = true := by
  rw [Json.valid_utf8, ByteArray.validateUTF8_eq_true_iff] at *
  obtain ⟨m, hm⟩ := hs
  obtain ⟨n, hn⟩ := ht
  exact ⟨m ++ n, by rw [List.toByteArray_append, hm, hn, List.utf8Encode_append]⟩

theorem valid_rpc_result (result id : Value) :
    (rpc_result result id).valid = true ↔ result.valid = true ∧ id.valid = true := by
  refine (valid_object_of ["jsonrpc", "result", "id"] rfl (by decide)).trans ?_
  have hversion : (Value.string (ascii "2.0")).valid = true := by decide
  simp [hversion]

theorem valid_rpc_error (code : Int64) {message : List UInt8} (hmessage : Json.valid_utf8 message = true) (hid : id.valid = true) :
    (rpc_error code message id).valid = true := by
  have herror : (object_of [("code", .number_integer code), ("message", .string message)]).valid = true := by
    refine (valid_object_of ["code", "message"] rfl (by decide)).mpr ?_
    simp [Value.valid, hmessage]
  have hversion : (Value.string (ascii "2.0")).valid = true := by decide
  refine (valid_object_of ["jsonrpc", "error", "id"] rfl (by decide)).mpr ?_
  simp [herror, hversion, hid]

theorem valid_member {key : List UInt8} {w : Value} (hv : v.valid = true) (hw : v.member key = some w) : w.valid = true := by
  cases v with
  | object members =>
    rw [Value.member, SortedMap.find, Option.map_eq_some_iff] at hw
    obtain ⟨e, he, rfl⟩ := hw
    exact (Json.valid_members_iff.mp hv e (List.mem_of_find?_eq_some he)).2
  | _ => cases hw

theorem valid_content {text : List UInt8} (htext : Json.valid_utf8 text = true) (is_error : Bool) :
    (object_of [("content", .array [object_of [("type", .string (ascii "text")), ("text", .string text)]]),
      ("isError", .boolean is_error)]).valid = true := by
  have htype : (Value.string (ascii "text")).valid = true := by decide
  have hitem : (object_of [("type", .string (ascii "text")), ("text", .string text)]).valid = true := by
    refine (valid_object_of ["type", "text"] rfl (by decide)).mpr ?_
    rw [List.forall_mem_cons, List.forall_mem_singleton]
    exact ⟨htype, htext⟩
  refine (valid_object_of ["content", "isError"] rfl (by decide)).mpr ?_
  rw [List.forall_mem_cons, List.forall_mem_singleton]
  exact ⟨Json.valid_items_iff.mpr (List.forall_mem_singleton.mpr hitem), rfl⟩

/-- The answer to a call of a tool can be written. -/
theorem tools_call_spec (env : env_t) (session : List UInt8) (params : Value) (hid : id.valid = true) :
    Responds id (tools_call env session params id) ∧ (tools_call env session params id).valid = true := by
  unfold tools_call
  split
  · dsimp only
    split
    · exact ⟨(rpc_error_spec _ _ _).1, valid_rpc_error _ (by decide) hid⟩
    · refine ⟨responds_rpc_result _ _, (valid_rpc_result _ _).mpr ⟨valid_content ?_ _, hid⟩⟩
      exact Json.valid_utf8_ascii (env.dump_ascii _)
  · exact ⟨(rpc_error_spec _ _ _).1, valid_rpc_error _ (by decide) hid⟩

theorem instructions_ascii : ∀ c ∈ ascii kInstructions, c < 128 := by
  have happend : ∀ {s t : String}, (∀ c ∈ ascii s, c < 128) → (∀ c ∈ ascii t, c < 128) → ∀ c ∈ ascii (s ++ t), c < 128 := by
    intro s t hs ht
    rw [Numeral.ascii_append]
    exact List.forall_mem_append.mpr ⟨hs, ht⟩
  unfold kInstructions
  iterate 13 refine happend ?_ ?_
  all_goals exact Numeral.ascii_lt _ rfl (by decide)

/-- What `initialize` returns can be written if the state of the session can. -/
theorem valid_initialize (state : Value) :
    (object_of [("protocolVersion", .string (ascii kProtocolVersion)),
      ("capabilities", object_of [("tools", object_of [("listChanged", .boolean false)])]),
      ("serverInfo", object_of [("name", .string (ascii kServerName)), ("version", .string (ascii kServerVersion))]),
      ("instructions", .string (ascii kInstructions)), ("state", state)]).valid = true ↔ state.valid = true := by
  have hcapabilities : (object_of [("tools", object_of [("listChanged", .boolean false)])]).valid = true := by decide
  have hinfo : (object_of [("name", .string (ascii kServerName)), ("version", .string (ascii kServerVersion))]).valid = true := by
    decide
  have htexts : (Value.string (ascii kProtocolVersion)).valid = true ∧ (Value.string (ascii kInstructions)).valid = true :=
    ⟨by decide, Json.valid_utf8_ascii instructions_ascii⟩
  refine (valid_object_of ["protocolVersion", "capabilities", "serverInfo", "instructions", "state"] rfl (by decide)).trans ?_
  simp only [List.forall_mem_cons, List.not_mem_nil, false_implies, implies_true, hcapabilities, hinfo, htexts, true_and,
    and_true]

/-- A request with a method is answered unless that is one of the notifications, and the answer can be written unless it
shows a state that cannot. -/
theorem handle_request_spec (env : env_t) (session : List UInt8) {method : List UInt8} (hv : v.valid = true)
    (hmethod : v.member (ascii "method") = some (.string method)) :
    (method ∈ notifications ∧ handle_request env session v = .silent) ∨
      (method ∉ notifications ∧ ∃ r, handle_request env session v = .answered r ∧
        Responds ((v.member (ascii "id")).getD .null) r ∧
        (r.valid = true ↔ (method = ascii "initialize" → env.session_state.valid = true))) := by
  have hid : ((v.member (ascii "id")).getD .null).valid = true := by
    cases hid : v.member (ascii "id") with
    | none => rfl
    | some id => exact valid_member hv hid
  have hname : Json.valid_utf8 method = true := valid_member hv hmethod
  unfold handle_request
  rw [hmethod]
  dsimp only
  split
  · rename_i hinitialize
    subst hinitialize
    refine Or.inr ⟨by decide, _, rfl, responds_rpc_result _ _, ?_⟩
    rw [valid_rpc_result, valid_initialize]
    simp [hid]
  · rename_i hinitialize
    split
    · rename_i hsilent
      exact Or.inl ⟨by rw [hsilent]; decide, rfl⟩
    · rename_i hfirst
      split
      · rename_i hsilent
        exact Or.inl ⟨by rw [hsilent]; decide, rfl⟩
      · rename_i hsecond
        have hnone : method ∉ notifications := by
          simp only [notifications, List.map_cons, List.map_nil, List.mem_cons, List.not_mem_nil, or_false, not_or]
          exact ⟨hfirst, hsecond⟩
        have hvalid : ∀ r : Value, r.valid = true →
            (r.valid = true ↔ (method = ascii "initialize" → env.session_state.valid = true)) :=
          fun r hr => iff_of_true hr fun h => absurd h hinitialize
        right
        refine ⟨hnone, ?_⟩
        split
        · exact ⟨_, rfl, responds_rpc_result _ _, hvalid _ ((valid_rpc_result _ _).mpr ⟨rfl, hid⟩)⟩
        · split
          · have htools : (object_of [("tools", env.tools)]).valid = true :=
              (valid_object_of ["tools"] rfl (by decide)).mpr (List.forall_mem_singleton.mpr env.tools_valid)
            exact ⟨_, rfl, responds_rpc_result _ _, hvalid _ ((valid_rpc_result _ _).mpr ⟨htools, hid⟩)⟩
          · split
            · obtain ⟨hresponds, hwritten⟩ := tools_call_spec env session ((v.member (ascii "params")).getD (.object [])) hid
              exact ⟨_, rfl, hresponds, hvalid _ hwritten⟩
            · have hmessage := valid_utf8_append (s := ascii "method not found: ") (by decide) hname
              exact ⟨_, rfl, (rpc_error_spec _ _ _).1, hvalid _ (valid_rpc_error _ hmessage hid)⟩

/-- What is no request is answered with an error if it is an object, and throws otherwise. -/
theorem handle_request_invalid (env : env_t) (session : List UInt8) (hv : v.valid = true) (hrequest : ¬ IsRequest v) :
    (is_object v ∧ ∃ r, handle_request env session v = .answered r ∧ (r.member (ascii "error")).isSome = true ∧
        r.valid = true) ∨
      (¬ is_object v ∧ handle_request env session v = .thrown) := by
  have hmethod : ∀ method, v.member (ascii "method") ≠ some (.string method) := fun method h => hrequest ⟨method, h⟩
  unfold handle_request
  split
  · exact absurd ‹_› (hmethod _)
  · split
    · rename_i members _
      have hid : (((Value.object members).member (ascii "id")).getD .null).valid = true := by
        cases hid : (Value.object members).member (ascii "id") with
        | none => rfl
        | some id => exact valid_member hv hid
      exact Or.inl ⟨trivial, _, rfl, (rpc_error_spec _ _ _).2, valid_rpc_error _ (by decide) hid⟩
    · rename_i hobject
      refine Or.inr ⟨?_, rfl⟩
      cases v with
      | object members => exact absurd rfl (hobject members)
      | _ => exact id

/-- A response, or none, as what the handler returns. -/
def handled_t.of : Option Value → handled_t
  | none => .silent
  | some r => .answered r

/-- A proper element gets what it is due, and no other does. -/
theorem proper_iff (env : env_t) (session : List UInt8) (hv : v.valid = true) :
    Proper env v ↔
      ∃ response, handle_request env session v = .of response ∧ (∀ r ∈ response, r.valid = true) ∧ Due v response := by
  by_cases hrequest : IsRequest v
  · obtain ⟨method, hmethod⟩ := hrequest
    have hobject : is_object v := by
      cases v with
      | object members => trivial
      | _ => cases hmethod
    have hproper : Proper env v ↔ ((v.member (ascii "id")).isSome ↔ method ∉ notifications) ∧
        (method = ascii "initialize" → env.session_state.valid = true) := by
      refine ⟨fun h => h.2 method hmethod, fun h => ⟨hobject, fun other hother => ?_⟩⟩
      cases hmethod.symm.trans hother
      exact h
    rw [hproper]
    rcases handle_request_spec env session hv hmethod with ⟨hin, hhandled⟩ | ⟨hout, r, hhandled, hresponds, hwritten⟩
    · have hinitialize : method ≠ ascii "initialize" := by
        rintro rfl
        exact absurd hin (by decide)
      rw [hhandled]
      constructor
      · rintro ⟨hid, -⟩
        have hnone : v.member (ascii "id") = none := by
          rw [← Option.not_isSome_iff_eq_none, hid]
          exact not_not.mpr hin
        exact ⟨none, rfl, by simp, .notification ⟨method, hmethod⟩ hnone⟩
      · rintro ⟨response, hof, -, hdue⟩
        cases response with
        | some r => cases hof
        | none =>
          cases hdue with
          | notification _ hid =>
            refine ⟨?_, fun h => absurd h hinitialize⟩
            simp [hid, hin]
    · rw [hhandled]
      constructor
      · rintro ⟨hid, hinitialize⟩
        obtain ⟨id, hid⟩ := Option.isSome_iff_exists.mp (hid.mpr hout)
        rw [hid] at hresponds
        refine ⟨some r, rfl, ?_, .request ⟨method, hmethod⟩ hid hresponds⟩
        rintro _ ⟨⟩
        exact hwritten.mpr hinitialize
      · rintro ⟨response, hof, hvalid, hdue⟩
        cases response with
        | none => cases hof
        | some r' =>
          cases hof
          refine ⟨?_, hwritten.mp (hvalid r rfl)⟩
          cases hdue with
          | request _ hid => simp [hid, hout]
          | invalid hrequest => exact absurd ⟨method, hmethod⟩ hrequest
  · have hproper : Proper env v ↔ is_object v :=
      ⟨And.left, fun h => ⟨h, fun method hmethod => absurd ⟨method, hmethod⟩ hrequest⟩⟩
    rw [hproper]
    rcases handle_request_invalid env session hv hrequest with ⟨hobject, r, hhandled, herror, hvalid⟩ | ⟨hobject, hhandled⟩
    · refine iff_of_true hobject ⟨some r, hhandled, ?_, .invalid hrequest herror⟩
      rintro _ ⟨⟩
      exact hvalid
    · refine iff_of_false hobject ?_
      rintro ⟨response, hof, -⟩
      rw [hhandled] at hof
      cases response <;> cases hof

theorem handle_all_cons (env : Nat → env_t) (session : List UInt8) (i : Nat) (v : Value) (items : List Value)
    {responses : List (Option Value)} :
    handle_all env session i (v :: items) = some responses ↔
      ∃ response rest, handle_request (env i) session v = .of response ∧
        handle_all env session (i + 1) items = some rest ∧ responses = response :: rest := by
  rw [handle_all]
  cases hhandled : handle_request (env i) session v with
  | thrown =>
    refine iff_of_false nofun ?_
    rintro ⟨response, rest, hof, -⟩
    cases response <;> cases hof
  | silent =>
    simp only [Option.map_eq_some_iff]
    constructor
    · rintro ⟨rest, hrest, rfl⟩
      exact ⟨none, rest, rfl, hrest, rfl⟩
    · rintro ⟨response, rest, hof, hrest, rfl⟩
      cases response with
      | none => exact ⟨rest, hrest, rfl⟩
      | some r => cases hof
  | answered r =>
    simp only [Option.map_eq_some_iff]
    constructor
    · rintro ⟨rest, hrest, rfl⟩
      exact ⟨some r, rest, rfl, hrest, rfl⟩
    · rintro ⟨response, rest, hof, hrest, rfl⟩
      cases response with
      | none => cases hof
      | some r' =>
        cases hof
        exact ⟨rest, hrest, rfl⟩

/-- A batch gets what it is due exactly if its elements are proper. -/
theorem handle_all_spec (env : Nat → env_t) (session : List UInt8) {items : List Value} (hitems : ∀ v ∈ items, v.valid = true)
    (i : Nat) :
    (∃ responses, handle_all env session i items = some responses ∧ (∀ r, some r ∈ responses → r.valid = true) ∧
        List.Forall₂ Due items responses) ↔
      ∀ j v, items[j]? = some v → Proper (env (i + j)) v := by
  induction items generalizing i with
  | nil => simp [handle_all]
  | cons v items ih =>
    obtain ⟨hv, hitems⟩ := List.forall_mem_cons.mp hitems
    have hproper := proper_iff (env i) session hv
    have hsplit : (∀ j w, (v :: items)[j]? = some w → Proper (env (i + j)) w) ↔
        Proper (env i) v ∧ ∀ j w, items[j]? = some w → Proper (env (i + 1 + j)) w := by
      constructor
      · refine fun h => ⟨h 0 v rfl, fun j w hw => ?_⟩
        have hnext := h (j + 1) w hw
        rwa [Nat.add_right_comm, Nat.add_assoc]
      · rintro ⟨hfirst, hrest⟩ j w hw
        cases j with
        | zero =>
          cases hw
          exact hfirst
        | succ j =>
          have hnext := hrest j w hw
          rwa [Nat.add_right_comm, Nat.add_assoc] at hnext
    rw [hsplit, ← ih hitems (i + 1), hproper]
    constructor
    · rintro ⟨responses, hall, hvalid, hdue⟩
      obtain ⟨response, rest, hof, hrest, rfl⟩ := (handle_all_cons env session i v items).mp hall
      obtain ⟨hfirst, hothers⟩ := List.forall₂_cons.mp hdue
      refine ⟨⟨response, hof, fun r hr => hvalid r ?_, hfirst⟩, rest, hrest, fun r hr => hvalid r ?_, hothers⟩
      · rw [Option.mem_def.mp hr]
        exact List.mem_cons_self
      · exact List.mem_cons_of_mem _ hr
    · rintro ⟨⟨response, hof, hvalid, hfirst⟩, rest, hrest, hothers, hdue⟩
      refine ⟨response :: rest, (handle_all_cons env session i v items).mpr ⟨_, _, hof, hrest, rfl⟩, ?_,
        List.forall₂_cons.mpr ⟨hfirst, hdue⟩⟩
      intro r hr
      rcases List.mem_cons.mp hr with hr | hr
      · exact hvalid r hr.symm
      · exact hothers r hr

theorem written_batch {responses responses' : List (Option Value)} :
    (reply_t.batch responses).written = .batch responses' ↔
      responses = responses' ∧ ∀ r, some r ∈ responses' → r.valid = true := by
  have hbody : (∀ v ∈ (reply_t.batch responses).body, v.valid = true) ↔ ∀ r, some r ∈ responses → r.valid = true := by
    have hmem : ∀ r, r ∈ responses.filterMap id ↔ some r ∈ responses := fun r => by simp
    rw [reply_t.body]
    split
    · rename_i hempty
      rw [List.isEmpty_iff] at hempty
      refine iff_of_true (by simp) fun r hr => ?_
      rw [← hmem, hempty] at hr
      cases hr
    · simp only [Option.mem_some_iff, forall_eq', Value.valid, Json.valid_items_iff, hmem]
  rw [reply_t.written]
  split
  · rename_i hvalid
    rw [hbody] at hvalid
    constructor
    · rintro ⟨⟩
      exact ⟨rfl, hvalid⟩
    · rintro ⟨rfl, -⟩
      rfl
  · rename_i hinvalid
    rw [hbody] at hinvalid
    have hfailed : ¬ reply_t.failed = .batch responses' := by
      rintro ⟨⟩
    refine iff_of_false hfailed ?_
    rintro ⟨rfl, hvalid⟩
    exact hinvalid hvalid

theorem written_single {response response' : Option Value} :
    (reply_t.single response).written = .single response' ↔ response = response' ∧ ∀ r ∈ response', r.valid = true := by
  rw [reply_t.written]
  split
  · rename_i hvalid
    constructor
    · rintro ⟨⟩
      exact ⟨rfl, hvalid⟩
    · rintro ⟨rfl, -⟩
      rfl
  · rename_i hinvalid
    have hfailed : ¬ reply_t.failed = .single response' := by
      rintro ⟨⟩
    refine iff_of_false hfailed ?_
    rintro ⟨rfl, hvalid⟩
    exact hinvalid hvalid

/-- A post that is no batch gets what it is due exactly if it is proper. -/
theorem post_single (env : Nat → env_t) (session : List UInt8) (hv : v.valid = true) (hbatch : ∀ items, v ≠ .array items) :
    (∃ response, post env session v = .single response ∧ Due v response) ↔ Proper (env 0) v := by
  have hpost : post env session v = match handle_request (env 0) session v with
      | .thrown => .failed
      | .silent => (reply_t.single none).written
      | .answered response => (reply_t.single (some response)).written := by
    cases v with
    | array items => exact absurd rfl (hbatch items)
    | _ => rfl
  rw [proper_iff (env 0) session hv, hpost]
  refine exists_congr fun response => ?_
  rw [← and_assoc]
  refine and_congr_left fun _ => ?_
  cases handle_request (env 0) session v with
  | thrown => cases response <;> exact iff_of_false nofun fun h => nomatch h.1
  | silent => cases response <;> simp [handled_t.of, written_single]
  | answered r => cases response <;> simp [handled_t.of, written_single]

end

/-- Each element of a body gets exactly the response it is due if and only if each element of a batch is an object, each
request has an id exactly if its method is none of the two notifications, and the state that an `initialize` shows can be
written. -/
theorem responses_disciplined_iff (env : Nat → env_t) (session : List UInt8) (body : body_t) :
    Disciplined (post env session body.value) body.value ↔
      match body.value with
      | .array items => ∀ i v, items[i]? = some v → Proper (env i) v
      | v => IsRequest v → Proper (env 0) v := by
  obtain ⟨v, hv⟩ := body
  cases v with
  | array items =>
    have hspec := handle_all_spec env session (Json.valid_items_iff.mp hv) 0
    simp only [Nat.zero_add] at hspec
    simp only [Disciplined, post, ← hspec]
    refine exists_congr fun responses => ?_
    cases handle_all env session 0 items with
    | none => exact iff_of_false (fun h => nomatch h.1) fun h => nomatch h.1
    | some responses' =>
      simp only [written_batch, Option.some.injEq, and_assoc]
  | _ => exact forall_congr' fun _ => post_single env session hv nofun

/-- A program without tools. -/
def idle_env : env_t where
  session_state := .object []
  tools := .array []
  call_tool _ _ := (.null, false)
  dump _ := []
  active := []
  tools_valid := rfl
  dump_ascii _ _ h := nomatch h

/-- A number, and a request to `ping` with an id. -/
def number_and_ping : List Value :=
  [.number_unsigned 5, object_of [("id", .number_unsigned 1), ("method", .string (ascii "ping"))]]

/-- The number takes the response to the request with it. -/
theorem number_suppresses_ping :
    ¬ Disciplined (post (fun _ => idle_env) [] (.array number_and_ping)) (.array number_and_ping) := by
  rintro ⟨responses, hfailed, -⟩
  cases hfailed

end slop.core.mcp
