import Mathlib.Data.List.Basic

namespace slop.core.infra.deferred

variable {ω : Type}

inductive status_t where
  | pending | done | failed | cancelled
  deriving DecidableEq

/-- An action that was submitted. Its `serial` numbers the submissions; the code has only the id, which wraps. -/
structure deferred_action_t where
  serial : Nat
  id : UInt64
  kind : String
  params_json : String
  status : status_t := .pending
  result_json : String := ""
  created_ms : Int := 0

/-- What an executor answers, and writes as the result, may depend on a world that it changes. -/
abbrev executor_t (ω : Type) := String → ω → (Bool × String) × ω

/-- What a call does with an action: it passes some parameters to the executor of some kind, which returns `ok`;
or it ends the action without that. -/
inductive event_t where
  | executed (kind params_json : String) (ok : Bool)
  | cancelled
  | cleared
  deriving DecidableEq

structure deferred_manager_t (ω : Type) where
  actions : List deferred_action_t := []
  executors : List (String × executor_t ω) := []
  next_id : UInt64 := 1

namespace deferred_manager_t

variable (m : deferred_manager_t ω)

/-- One executor per kind, false when it is taken. -/
def bind_executor (kind : String) (fn : executor_t ω) : Bool × deferred_manager_t ω :=
  if (m.executors.lookup kind).isSome then (false, m) else (true, { m with executors := m.executors ++ [(kind, fn)] })

def submit (serial : Nat) (kind params_json : String) : UInt64 × deferred_manager_t ω :=
  let actions := m.actions ++ [{ serial, id := m.next_id, kind, params_json }]
  (m.next_id, { m with actions := actions.drop (actions.length - 256), next_id := m.next_id + 1 })

def list : List deferred_action_t := m.actions

/-- The loop of `execute_pending`: the entries behind it, the calls of executors it makes, and the world. -/
def execute_actions (kind : String) : List deferred_action_t → ω →
    List deferred_action_t × List (Nat × event_t) × ω
  | [], w => ([], [], w)
  | a :: rest, w =>
    if a.status ≠ .pending ∨ (kind ≠ "" ∧ a.kind ≠ kind) then
      let (actions, ran, w') := execute_actions kind rest w
      (a :: actions, ran, w')
    else
      match m.executors.lookup a.kind with
      | none =>
        let (actions, ran, w') := execute_actions kind rest w
        (a :: actions, ran, w')
      | some fn =>
        let ((ok, result), w') := fn a.params_json w
        let a' := { a with status := if ok then .done else .failed, result_json := result }
        let (actions, ran, w'') := execute_actions kind rest w'
        (a' :: actions, (a.serial, .executed a.kind a.params_json ok) :: ran, w'')

/-- Run everything pending, of one kind or, for the empty text, of all. -/
def execute_pending (kind : String) (w : ω) : List (Nat × event_t) × deferred_manager_t ω × ω :=
  let (actions, ran, w') := m.execute_actions kind m.actions w
  (ran, { m with actions }, w')

/-- The loop of `cancel`: the entry that is cancelled, if any, and the entries behind the loop. -/
def cancel_action (id : UInt64) : List deferred_action_t → Option deferred_action_t × List deferred_action_t
  | [] => (none, [])
  | a :: rest =>
    if a.id = id ∧ a.status = .pending then (some a, { a with status := .cancelled } :: rest)
    else
      let (cancelled, actions) := cancel_action id rest
      (cancelled, a :: actions)

def cancel (id : UInt64) : Option deferred_action_t × deferred_manager_t ω :=
  let (cancelled, actions) := cancel_action id m.actions
  (cancelled, { m with actions })

def clear : deferred_manager_t ω := { m with actions := [] }

end deferred_manager_t

inductive op_t (ω : Type) where
  | bind_executor (kind : String) (fn : executor_t ω)
  | submit (kind params_json : String)
  | execute_pending (kind : String)
  | cancel (id : UInt64)
  | clear

/-- The manager after some calls, with what was submitted and what was done with the submissions by their
numbers. -/
structure history_t (ω : Type) where
  manager : deferred_manager_t ω := {}
  world : ω
  submissions : List (String × String) := []
  log : List (Nat × event_t) := []

namespace history_t

variable (h : history_t ω)

def apply : op_t ω → history_t ω
  | .bind_executor kind fn => { h with manager := (h.manager.bind_executor kind fn).2 }
  | .submit kind params_json =>
    { h with
      manager := (h.manager.submit h.submissions.length kind params_json).2
      submissions := h.submissions ++ [(kind, params_json)] }
  | .execute_pending kind =>
    let (ran, manager, world) := h.manager.execute_pending kind h.world
    { h with manager, world, log := h.log ++ ran }
  | .cancel id =>
    let (cancelled, manager) := h.manager.cancel id
    { h with manager, log := h.log ++ cancelled.toList.map fun a => (a.serial, .cancelled) }
  | .clear =>
    { h with manager := h.manager.clear, log := h.log ++ h.manager.actions.map fun a => (a.serial, .cleared) }

def run (ops : List (op_t ω)) : history_t ω := ops.foldl apply h

end history_t

/-- What a log has about one submission. -/
def events (log : List (Nat × event_t)) (n : Nat) : List event_t := (log.filter fun e => e.1 = n).map Prod.snd

def event_t.call : event_t → Bool
  | .executed .. => true
  | _ => false

/-- The calls of executors for one submission. -/
def history_t.calls (h : history_t ω) (n : Nat) : List event_t := (events h.log n).filter event_t.call

/-- A submission is listed as pending and no executor was called for it, or its executor was called once, with
what was submitted, and no entry of it says otherwise, or a call has cancelled or cleared it instead. -/
def history_t.Accounted (h : history_t ω) (n : Nat) (kind params_json : String) : Prop :=
  ((∃ a ∈ h.manager.list, a.serial = n ∧ a.status = .pending) ∧ h.calls n = []) ∨
    (∃ ok, h.calls n = [.executed kind params_json ok] ∧
      ∀ a ∈ h.manager.list, a.serial = n → a.status = if ok then .done else .failed) ∨
    ((.cancelled ∈ events h.log n ∨ .cleared ∈ events h.log n) ∧ h.calls n = [] ∧
      ∀ a ∈ h.manager.list, a.serial = n → a.status = .cancelled)

/-- The call is a submission to a full store whose oldest entry is pending. -/
def history_t.displaces (h : history_t ω) : op_t ω → Bool
  | .submit .. => h.manager.actions.length = 256 && h.manager.actions.head?.any fun a => a.status = .pending
  | _ => false

end slop.core.infra.deferred
