import Mathlib.Logic.Function.Basic
import Mathlib.Logic.Relation
import ReverseSlop.Library.Numeral
import ReverseSlop.Library.Sorted

namespace slop.core.frida

open Function (update)

/-- `std::stoull` in base 10, which throws where there are no digits or the number is too large. -/
def stoull (tok : List UInt8) : Option UInt64 :=
  let (negative, s) := Numeral.sign (tok.dropWhile Numeral.is_space)
  let ds := Numeral.digits 10 s
  let n := Numeral.value 10 ds
  if ds = [] ∨ n ≥ 2 ^ 64 then none else some (if negative then -n.toUInt64 else n.toUInt64)

/-- The id of a reply: the number between the first two commas of its array. -/
def rpc_reply_id (json : List UInt8) : Option UInt64 :=
  let array := if 91 ∈ json then json.dropWhile (· ≠ 91) else json
  match array.dropWhile (· ≠ 44) with
  | [] => none
  | _ :: rest =>
    if 44 ∈ rest then
      let tok := rest.takeWhile (· ≠ 44)
      if tok = [] then none else stoull tok
    else none

structure rpc_wait_t where
  done : Bool := false
  reply_json : List UInt8 := []
  error : String := ""

/-- A script. `posted` has the requests that the agent was sent, with the calls that wait for them. -/
structure script_rec_t where
  obj : Bool := true
  next_rpc_id : UInt64 := 1
  waits : List (UInt64 × Nat) := []
  posted : List (UInt64 × Nat) := []

/-- Give a call the next id, and send its request. -/
def script_rec_t.post (rec : script_rec_t) (call : Nat) : script_rec_t :=
  { rec with
    next_rpc_id := rec.next_rpc_id + 1
    waits := SortedMap.set rec.next_rpc_id call rec.waits
    posted := rec.posted ++ [(rec.next_rpc_id, call)] }

/-- How far an `rpc_call` is. -/
inductive call_stage_t where
  | idle
  | begun
  | found (rec : Nat)
  | waiting
  | left (done request_cancelled : Bool)
  | erased (done request_cancelled : Bool)
  | checked
  | ended (result : Except String (List UInt8))

/-- An `rpc_call`, with the script and the id of its request once it is sent. -/
structure rpc_call_t where
  script : String := ""
  timeout_ms : Int := 0
  stage : call_stage_t := .idle
  request : Option (Nat × UInt64) := none
  wait : rpc_wait_t := {}

def rpc_call_t.lookup (call : rpc_call_t) (scripts : List (String × Nat)) : call_stage_t :=
  match SortedMap.find call.script scripts with
  | none => .ended (.error ("unknown script handle: " ++ call.script))
  | some r => .found r

/-- What the call returns by its own doing, and by the error in its wait. -/
def rpc_call_t.check (call : rpc_call_t) (id : UInt64) (done request_cancelled : Bool) : call_stage_t :=
  if request_cancelled && !done then .ended (.error "rpc: cancelled")
  else if !done then
    .ended (.error ("rpc: timeout after " ++ toString call.timeout_ms ++ " ms (id " ++ toString id.toNat ++ ")"))
  else if call.wait.error ≠ "" then .ended (.error ("rpc: " ++ call.wait.error))
  else .checked

/-- How far an `on_script_message` with a reply is. -/
inductive callback_t where
  | idle
  | arrived (rec : Nat) (reply : List UInt8)
  | dropped
  | holds (reply : List UInt8) (call : Nat)
  | given (call : Nat)

/-- A `destroy_script` or, without a handle, a `shutdown`: the scripts left, the one it holds with the waits left to
cancel, and those that are destroyed. -/
structure teardown_t where
  handle : Option String
  reason : String
  todo : List Nat
  now : Option (Nat × Option (List Nat)) := none
  destroyed : List Nat := []

/-- The service. A teardown has `call_mu`, and `obj_mu` of the script that it holds. -/
structure frida_service_t where
  scripts : List (String × Nat) := []
  recs : Nat → Option script_rec_t := fun _ => none
  calls : Nat → rpc_call_t := fun _ => {}
  callbacks : Nat → callback_t := fun _ => .idle
  teardown : Option teardown_t := none

namespace frida_service_t

def set_rec (s : frida_service_t) (r : Nat) (rec : script_rec_t) : frida_service_t :=
  { s with recs := update s.recs r (some rec) }

def set_call (s : frida_service_t) (c : Nat) (call : rpc_call_t) : frida_service_t := { s with calls := update s.calls c call }

/-- A call goes on. -/
def move (s : frida_service_t) (c : Nat) (stage : call_stage_t) : frida_service_t :=
  s.set_call c { s.calls c with stage }

def set_callback (s : frida_service_t) (k : Nat) (callback : callback_t) : frida_service_t :=
  { s with callbacks := update s.callbacks k callback }

/-- `obj_mu` of a script is held. -/
def held (s : frida_service_t) (r : Nat) : Prop := ∃ t waits, s.teardown = some t ∧ t.now = some (r, waits)

/-- `destroy_script` of a handle that there is, and `shutdown`. -/
def destroying (handle : String) (r : Nat) : teardown_t := { handle := some handle, reason := "script destroyed", todo := [r] }

def shutting_down (s : frida_service_t) : teardown_t :=
  { handle := none, reason := "frida service shut down", todo := s.scripts.map Prod.snd }

/-- The scripts that a teardown leaves. -/
def remaining (s : frida_service_t) (t : teardown_t) : List (String × Nat) :=
  match t.handle with
  | none => []
  | some handle => SortedMap.erase handle s.scripts

section

variable {s : frida_service_t} {r r' c c' k k' : Nat} {rec : script_rec_t} {call : rpc_call_t} {callback : callback_t}

@[simp]
theorem set_rec_self : (s.set_rec r rec).recs r = some rec := Function.update_self _ _ _

theorem set_rec_of_ne (hne : r' ≠ r) : (s.set_rec r rec).recs r' = s.recs r' := Function.update_of_ne hne _ _

@[simp]
theorem set_call_self : (s.set_call c call).calls c = call := Function.update_self _ _ _

theorem set_call_of_ne (hne : c' ≠ c) : (s.set_call c call).calls c' = s.calls c' := Function.update_of_ne hne _ _

@[simp]
theorem set_callback_self : (s.set_callback k callback).callbacks k = callback := Function.update_self _ _ _

theorem set_callback_of_ne (hne : k' ≠ k) : (s.set_callback k callback).callbacks k' = s.callbacks k' :=
  Function.update_of_ne hne _ _

end

end frida_service_t

open frida_service_t

/-- What a thread of the service does in one critical section, or between two. -/
inductive Step (s : frida_service_t) : frida_service_t → Prop where
  | create_script (handle : String) (r : Nat) (hmu : s.teardown = none) (hnew : s.recs r = none) :
    Step s { s.set_rec r {} with scripts := SortedMap.add handle r s.scripts }
  | rpc_call (c : Nat) (script : String) (timeout_ms : Int) (hidle : (s.calls c).stage = .idle) :
    Step s (s.set_call c { s.calls c with script, timeout_ms, stage := .begun })
  /-- It is cancelled, or there is no device manager. -/
  | refuse (c : Nat) (error : String) (hbegun : (s.calls c).stage = .begun) : Step s (s.move c (.ended (.error error)))
  | lookup (c : Nat) (hbegun : (s.calls c).stage = .begun) (hmu : s.teardown = none) :
    Step s (s.move c ((s.calls c).lookup s.scripts))
  | gone (c r : Nat) (rec : script_rec_t) (hfound : (s.calls c).stage = .found r) (hmu : ¬ s.held r)
    (hrec : s.recs r = some rec) (hobj : rec.obj = false) : Step s (s.move c (.ended (.error "script destroyed")))
  | post (c r : Nat) (rec : script_rec_t) (hfound : (s.calls c).stage = .found r) (hmu : ¬ s.held r)
    (hrec : s.recs r = some rec) (hobj : rec.obj = true) :
    Step s ((s.set_rec r (rec.post c)).set_call c { s.calls c with stage := .waiting, request := some (r, rec.next_rpc_id) })
  /-- It is done, or cancelled, or the time is over. -/
  | leave (c : Nat) (request_cancelled : Bool) (hwaiting : (s.calls c).stage = .waiting)
    (hcancelled : request_cancelled = true → (s.calls c).wait.done = false) :
    Step s (s.move c (.left (s.calls c).wait.done request_cancelled))
  | erase (c r : Nat) (id : UInt64) (rec : script_rec_t) (done request_cancelled : Bool)
    (hleft : (s.calls c).stage = .left done request_cancelled) (hrequest : (s.calls c).request = some (r, id))
    (hrec : s.recs r = some rec) :
    Step s ((s.set_rec r { rec with waits := SortedMap.erase id rec.waits }).move c (.erased done request_cancelled))
  | check (c r : Nat) (id : UInt64) (done request_cancelled : Bool)
    (herased : (s.calls c).stage = .erased done request_cancelled) (hrequest : (s.calls c).request = some (r, id)) :
    Step s (s.move c ((s.calls c).check id done request_cancelled))
  | return_reply (c : Nat) (hchecked : (s.calls c).stage = .checked) :
    Step s (s.move c (.ended (.ok (s.calls c).wait.reply_json)))
  /-- The agent sends a reply, to whatever request it likes. -/
  | on_script_message (k r : Nat) (reply : List UInt8) (hidle : s.callbacks k = .idle) :
    Step s (s.set_callback k (.arrived r reply))
  | drop_reply (k r : Nat) (reply : List UInt8) (rec : script_rec_t) (harrived : s.callbacks k = .arrived r reply)
    (hrec : s.recs r = some rec) (hnone : (rpc_reply_id reply).bind (SortedMap.find · rec.waits) = none) :
    Step s (s.set_callback k .dropped)
  | find_wait (k r c : Nat) (reply : List UInt8) (rec : script_rec_t) (harrived : s.callbacks k = .arrived r reply)
    (hrec : s.recs r = some rec) (hfind : (rpc_reply_id reply).bind (SortedMap.find · rec.waits) = some c) :
    Step s (s.set_callback k (.holds reply c))
  | give_reply (k c : Nat) (reply : List UInt8) (hholds : s.callbacks k = .holds reply c) :
    Step s ((s.set_callback k (.given c)).set_call c
      { s.calls c with wait := { (s.calls c).wait with done := true, reply_json := reply } })
  | destroy_script (handle : String) (r : Nat) (hmu : s.teardown = none) (hfind : SortedMap.find handle s.scripts = some r) :
    Step s { s with teardown := some (destroying handle r) }
  | shutdown (hmu : s.teardown = none) : Step s { s with teardown := some s.shutting_down }
  | hold (t : teardown_t) (r : Nat) (todo : List Nat) (ht : s.teardown = some t) (hnow : t.now = none)
    (htodo : t.todo = r :: todo) : Step s { s with teardown := some { t with todo, now := some (r, none) } }
  | take_waits (t : teardown_t) (r : Nat) (rec : script_rec_t) (ht : s.teardown = some t) (hnow : t.now = some (r, none))
    (hrec : s.recs r = some rec) :
    Step s { s.set_rec r { rec with waits := [] } with
      teardown := some { t with now := some (r, some (rec.waits.map Prod.snd)) } }
  | cancel_wait (t : teardown_t) (r c : Nat) (waits : List Nat) (ht : s.teardown = some t)
    (hnow : t.now = some (r, some (c :: waits))) :
    Step s { s.set_call c { s.calls c with wait := { (s.calls c).wait with done := true, error := t.reason } } with
      teardown := some { t with now := some (r, some waits) } }
  | release (t : teardown_t) (r : Nat) (rec : script_rec_t) (ht : s.teardown = some t) (hnow : t.now = some (r, some []))
    (hrec : s.recs r = some rec) :
    Step s { s.set_rec r { rec with obj := false } with teardown := some { t with now := none, destroyed := t.destroyed ++ [r] } }
  | return_teardown (t : teardown_t) (ht : s.teardown = some t) (hnow : t.now = none) (htodo : t.todo = []) :
    Step s { s with scripts := s.remaining t, teardown := none }

/-- Any number of steps, of any threads. -/
abbrev Reaches : frida_service_t → frida_service_t → Prop := Relation.ReflTransGen Step

end slop.core.frida
