import ReverseSlop.Core.Infra.EventBus.Agreement
import ReverseSlop.Core.Mcp.Events

namespace slop.app.engine_store

open core.infra.event_bus core.mcp

/-! What the page shows of the engine. -/

structure target_t where
  attached : Bool
  pid : Option Nat := none
  name : Option String := none
  deriving DecidableEq

structure backend_t where
  badge : String
  kernel : Bool
  deriving DecidableEq

structure hype_t where
  has_image : Bool := false
  image : String := ""
  present : Bool := false
  ready : Bool := false
  running : Bool := false
  progress : Rat := 0
  error : String := ""
  deriving DecidableEq

/-- The payloads of the three events. -/
inductive payload_t where
  | target (target : target_t)
  | backend (backend : backend_t)
  | hype (hype : hype_t)
  deriving DecidableEq

inductive kind_t where
  | target
  | backend
  | hype
  deriving DecidableEq

def kind_t.type : kind_t → String
  | .target => "target.changed"
  | .backend => "backend.changed"
  | .hype => "hype.progress"

/-- The order in which a tick publishes. -/
def kind_t.next : kind_t → kind_t
  | .target => .backend
  | .backend => .hype
  | .hype => .target

def payload_t.kind : payload_t → kind_t
  | .target _ => .target
  | .backend _ => .backend
  | .hype _ => .hype

/-- The state of the engine: the valid session if there is one, whether the active backend
is the kernel one, and the status of the background analysis. -/
structure engine_t where
  session : Option (Nat × String) := none
  kernel : Bool := false
  hype_status : hype_t := {}
  deriving DecidableEq

def engine_t.target (e : engine_t) : target_t :=
  match e.session with
  | none => { attached := false }
  | some (pid, name) => { attached := true, pid := some pid, name := some name }

def active_badge (kernel : Bool) : String := if kernel then "kernel" else "user"

def engine_t.payload (e : engine_t) : kind_t → payload_t
  | .target => .target e.target
  | .backend => .backend { badge := active_badge e.kernel, kernel := e.kernel }
  | .hype => .hype e.hype_status

structure store_t where
  backend : backend_t := { badge := "user", kernel := false }
  target : target_t := { attached := false }
  hype : hype_t := {}
  deriving DecidableEq

def store_t.payload (s : store_t) : kind_t → payload_t
  | .target => .target s.target
  | .backend => .backend s.backend
  | .hype => .hype s.hype

/-- The handlers of the three events. -/
def store_t.set (s : store_t) : payload_t → store_t
  | .target target => { s with target }
  | .backend backend => { s with backend }
  | .hype hype => { s with hype }

/-- What the engine answers to `app.status`. -/
structure status_t where
  backend : String
  target : target_t
  deriving DecidableEq

def refresh (s : store_t) (status : status_t) : store_t :=
  { s with backend := { badge := status.backend, kernel := status.backend = "kernel" }, target := status.target }

/-- The engine with its tick, the event stream, the status requests in flight and the store.
A request first waits, then has read the backend, then is answered. Not in the program:
which state has changed since the tick last read it. -/
structure protocol_t where
  engine : engine_t := {}
  events : events_t payload_t := {}
  turn : kind_t := .target
  reading : Option payload_t := none
  changed : kind_t → Bool := fun _ => true
  requests : Nat := 0
  serving : List String := []
  responses : List status_t := []
  store : store_t := {}

inductive op_t where
  | change (engine : engine_t)
  | tick_read
  | tick_publish
  | server (op : server_op_t payload_t)
  | connect
  | accept
  | onopen
  | greet (output_revision : Nat)
  | deliver
  | status_backend
  | status_target (backend : String)
  | refresh (status : status_t)

/-- Hand the next message of the stream to the store. -/
def store_t.handle (s : store_t) : message_t payload_t → store_t
  | .hello _ => s
  | .event f => s.set f.payload

/-- A change of the engine's state, one section of the engine, one write to a stream, or one
handler of the page. The tick publishes on one thread, a state after the other. -/
def protocol_t.step (s : protocol_t) : op_t → Option protocol_t
  | .change engine =>
    some
      { s with
        engine
        changed := fun k => s.changed k || decide (engine.payload k ≠ s.engine.payload k) }
  | .tick_read =>
    if s.reading.isNone ∧ s.events.bus.calls = [] then
      some
        { s with
          reading := some (s.engine.payload s.turn)
          changed := Function.update s.changed s.turn false
          turn := s.turn.next }
    else none
  | .tick_publish =>
    s.reading.map fun p =>
      { s with
        events := { s.events with bus := publish_changed s.events.bus ⟨p.kind.type, p⟩ }
        reading := none }
  | .server op => (s.events.step op).map fun events => { s with events }
  | .connect => some { s with events := s.events.connect }
  | .accept => s.events.accept.map fun events => { s with events }
  | .onopen => s.events.onopen.map fun events => { s with events, requests := s.requests + 1 }
  | .greet output_revision => (s.events.greet output_revision).map fun events => { s with events }
  | .deliver => s.events.deliver.map fun p => { s with events := p.2, store := s.store.handle p.1 }
  | .status_backend =>
    if s.requests > 0 then
      some { s with requests := s.requests - 1, serving := s.serving ++ [active_badge s.engine.kernel] }
    else none
  | .status_target backend =>
    if backend ∈ s.serving then
      some
        { s with
          serving := s.serving.erase backend
          responses := s.responses ++ [{ backend, target := s.engine.target }] }
    else none
  | .refresh status =>
    if status ∈ s.responses then
      some { s with responses := s.responses.erase status, store := engine_store.refresh s.store status }
    else none

end slop.app.engine_store

namespace slop.app.engine_store

open core.infra.event_bus core.mcp

/-- Behind the frames on their way, a value of the store has become the one published last,
or is about to. -/
def protocol_t.Told (s : protocol_t) (k : kind_t) (v : payload_t) (st : stream_t payload_t)
    (sub : subscriber_t payload_t) : Prop :=
  latest k.type (some v) (st.inbox sub) = s.events.bus.last k.type ∨ s.events.bus.Pending k.type st.sub

/-- The page is still to handle a status response. There is none for the background analysis. -/
def protocol_t.Asks (s : protocol_t) (k : kind_t) (st : stream_t payload_t) : Prop :=
  k ≠ .hype ∧ (st.opened = false ∨ s.requests > 0 ∨ s.serving ≠ [] ∨ s.responses ≠ [])

/-- The engine's state is not the one published last. -/
def protocol_t.Unpublished (s : protocol_t) (k : kind_t) : Prop :=
  s.events.bus.last k.type ≠ some (s.engine.payload k)

instance (s : protocol_t) (k : kind_t) (v : payload_t) (st : stream_t payload_t) (sub : subscriber_t payload_t) :
    Decidable (s.Told k v st sub) :=
  inferInstanceAs (Decidable (_ ∨ _))

instance (s : protocol_t) (k : kind_t) (st : stream_t payload_t) : Decidable (s.Asks k st) :=
  inferInstanceAs (Decidable (_ ∧ _))

instance (s : protocol_t) (k : kind_t) : Decidable (s.Unpublished k) :=
  inferInstanceAs (Decidable (_ ≠ _))

/-- A state goes back to the one published last only while the page shows that one or asks.
A stream starts only if the page shows the analysis that was published last. A status
response is handled only if what it says is what was published last, or is corrected by a
frame on its way, by another response or by the next tick. -/
def InTime (s : protocol_t) : op_t → Prop
  | .change engine =>
    ∀ k ∈ [kind_t.target, .backend, .hype], s.Unpublished k → s.events.bus.last k.type = some (engine.payload k) →
      s.events.Each fun st sub => s.Told k (s.store.payload k) st sub ∨ s.Asks k st
  | .accept =>
    s.events.bus.last kind_t.hype.type = some (s.store.payload .hype) ∨
      s.events.bus.Pending kind_t.hype.type s.events.bus.next_id ∨ s.Unpublished .hype
  | .refresh status =>
    ∀ k ∈ [kind_t.target, .backend], s.events.Each fun st sub =>
      s.Told k ((refresh s.store status).payload k) st sub ∨
        protocol_t.Asks { s with responses := s.responses.erase status } k st ∨ s.Unpublished k
  | _ => True

instance (s : protocol_t) : ∀ op, Decidable (InTime s op)
  | .change _ => inferInstanceAs (Decidable (∀ k ∈ [kind_t.target, .backend, .hype], _))
  | .accept => inferInstanceAs (Decidable (_ ∨ _))
  | .refresh _ => inferInstanceAs (Decidable (∀ k ∈ [kind_t.target, .backend], _))
  | .tick_read | .tick_publish | .server _ | .connect | .onopen | .greet _ | .deliver | .status_backend
  | .status_target _ => instDecidableTrue

theorem kind_type_injective {k k' : kind_t} (h : k.type = k'.type) : k = k' := by
  revert h
  cases k <;> cases k' <;> decide

/-- The frames carry states of their type, and the tick publishes one after the other. -/
structure Serial (s : protocol_t) : Prop where
  fresh : s.events.Fresh
  frames : s.events.All fun f => f.type = f.payload.kind.type
  calls : ∀ c ∈ s.events.bus.calls, s.events.bus.last c.frame.type = some c.frame.payload
  reading : s.reading.isSome = true → s.events.bus.calls = []

/-- What has not changed since the tick last read it is published, or is about to be. -/
def Read (s : protocol_t) : Prop :=
  ∀ k, s.changed k = false →
    (∀ p ∈ s.reading, p.kind = k → p = s.engine.payload k) ∧
      ((∀ p ∈ s.reading, p.kind ≠ k) → ¬ s.Unpublished k)

/-- The page shows what was published last or will do so, or the tick will publish again. -/
def Mirrors (s : protocol_t) : Prop :=
  ∀ k st sub, s.events.Serves st sub → s.Told k (s.store.payload k) st sub ∨ s.Asks k st ∨ s.Unpublished k

theorem mem_kinds (k : kind_t) : k ∈ [kind_t.target, .backend, .hype] := by
  cases k <;> simp

theorem engine_payload_kind (e : engine_t) (k : kind_t) : (e.payload k).kind = k := by
  cases k <;> rfl

/-! The tick. -/

theorem Serial.init : Serial {} :=
  ⟨fresh_init, ⟨bus_all_init _, fun _ hst => by cases hst⟩, List.forall_mem_nil _, fun h => by cases h⟩

variable {s : protocol_t}

/-- The one publish that runs carries what it recorded. -/
theorem Serial.tick_publish (h : Serial s) {p : payload_t} (hreading : s.reading = some p) :
    Serial
      { s with
        events := { s.events with bus := publish_changed s.events.bus ⟨p.kind.type, p⟩ }
        reading := none } := by
  have hnone : s.events.bus.calls = [] := h.reading (by rw [hreading, Option.isSome_some])
  obtain ⟨hsame, -⟩ | hnext := publish_changed_cases s.events.bus ⟨p.kind.type, p⟩
  · rw [hsame]
    exact ⟨h.fresh, h.frames, h.calls, fun h => by cases h⟩
  · rw [hnext]
    refine ⟨⟨⟨h.fresh.bus.distinct, h.fresh.bus.bounded⟩, h.fresh.stream⟩, ⟨?_, h.frames.wire⟩, fun c hc => ?_,
      fun h => by cases h⟩
    · have hframes : bus_t.All (fun f => f.type = f.payload.kind.type)
          { s.events.bus with last := Function.update s.events.bus.last p.kind.type (some p) } :=
        ⟨h.frames.bus.calls, h.frames.bus.queues⟩
      exact hframes.publish (f := ⟨p.kind.type, p⟩) rfl
    · rw [publish, hnone] at hc
      rw [List.mem_singleton.mp hc]
      exact Function.update_self ..

/-- A step of the stream alone. -/
theorem Serial.stream (h : Serial s) {st : stream_t payload_t} (st' : stream_t payload_t)
    (hst : s.events.stream = some st) (hsub : st'.sub = st.sub) (hwire : ∀ f ∈ st'.wire, f ∈ st.wire) :
    Serial { s with events := { s.events with stream := some st' } } := by
  refine ⟨stream_fresh h.fresh hst hsub, ⟨h.frames.bus, fun st'' hst'' f hf => ?_⟩, h.calls, h.reading⟩
  cases hst''
  exact h.frames.wire st hst f (hwire f hf)

theorem Serial.server (h : Serial s) {op : server_op_t payload_t} {events : events_t payload_t}
    (hstep : s.events.step op = some events) : Serial { s with events } := by
  refine ⟨step_fresh h.fresh hstep, step_all h.frames hstep, fun c' hc' => ?_, fun hreading => ?_⟩
  · obtain ⟨c, hc, hframe⟩ := step_calls hstep c' hc'
    rw [hframe, step_last hstep]
    exact h.calls c hc
  · refine List.eq_nil_iff_forall_not_mem.mpr fun c' hc' => ?_
    obtain ⟨c, hc, -⟩ := step_calls hstep c' hc'
    rw [h.reading hreading] at hc
    cases hc

theorem Serial.step {s s' : protocol_t} {op : op_t} (h : Serial s) (hstep : s.step op = some s') : Serial s' := by
  cases op with
  | change engine =>
    cases hstep
    exact ⟨h.fresh, h.frames, h.calls, h.reading⟩
  | tick_read =>
    obtain ⟨hidle, hnext⟩ := Option.ite_none_right_eq_some.mp hstep
    cases hnext
    exact ⟨h.fresh, h.frames, h.calls, fun _ => hidle.2⟩
  | tick_publish =>
    obtain ⟨p, hreading, rfl⟩ := Option.map_eq_some_iff.mp hstep
    exact h.tick_publish hreading
  | server op =>
    obtain ⟨events, hevents, rfl⟩ := Option.map_eq_some_iff.mp hstep
    exact h.server hevents
  | connect =>
    cases hstep
    exact ⟨⟨h.fresh.bus, fun _ hst => by cases hst⟩, ⟨h.frames.bus, fun _ hst => by cases hst⟩, h.calls, h.reading⟩
  | accept =>
    obtain ⟨events, hevents, rfl⟩ := Option.map_eq_some_iff.mp hstep
    have hcases := accept_cases hevents
    refine ⟨accept_fresh h.fresh hevents, accept_all h.frames hevents, ?_, ?_⟩
    · rw [hcases]
      exact h.calls
    · rw [hcases]
      exact h.reading
  | onopen =>
    obtain ⟨events, hevents, rfl⟩ := Option.map_eq_some_iff.mp hstep
    obtain ⟨st, hst, rfl⟩ := onopen_cases hevents
    have hnext := h.stream { st with opened := true } hst rfl fun _ hf => hf
    exact ⟨hnext.fresh, hnext.frames, hnext.calls, hnext.reading⟩
  | greet output_revision =>
    obtain ⟨events, hevents, rfl⟩ := Option.map_eq_some_iff.mp hstep
    obtain ⟨st, hst, rfl⟩ := greet_cases hevents
    exact h.stream _ hst rfl fun _ hf => hf
  | deliver =>
    obtain ⟨⟨m, events⟩, hdeliver, rfl⟩ := Option.map_eq_some_iff.mp hstep
    obtain ⟨st, hst, ⟨revision, -, rfl, rfl⟩ | ⟨f, wire, -, hwire, rfl, rfl⟩⟩ := deliver_cases hdeliver
    · have hnext := h.stream { st with hello := .seen } hst rfl fun _ hf => hf
      exact ⟨hnext.fresh, hnext.frames, hnext.calls, hnext.reading⟩
    · have hnext := h.stream { st with wire } hst rfl fun _ hf => hwire ▸ List.mem_cons_of_mem f hf
      exact ⟨hnext.fresh, hnext.frames, hnext.calls, hnext.reading⟩
  | status_backend =>
    obtain ⟨-, hnext⟩ := Option.ite_none_right_eq_some.mp hstep
    cases hnext
    exact ⟨h.fresh, h.frames, h.calls, h.reading⟩
  | status_target backend =>
    obtain ⟨-, hnext⟩ := Option.ite_none_right_eq_some.mp hstep
    cases hnext
    exact ⟨h.fresh, h.frames, h.calls, h.reading⟩
  | refresh status =>
    obtain ⟨-, hnext⟩ := Option.ite_none_right_eq_some.mp hstep
    cases hnext
    exact ⟨h.fresh, h.frames, h.calls, h.reading⟩

theorem Read.same {s s' : protocol_t} (h : Read s) (hengine : s'.engine = s.engine) (hreading : s'.reading = s.reading)
    (hchanged : s'.changed = s.changed) (hlast : s'.events.bus.last = s.events.bus.last) : Read s' := by
  intro k hk
  rw [protocol_t.Unpublished, hengine, hreading, hlast]
  exact h k (hchanged ▸ hk)

theorem Read.change (h : Read s) (engine : engine_t) :
    Read
      { s with
        engine
        changed := fun k => s.changed k || decide (engine.payload k ≠ s.engine.payload k) } := by
  intro k hk
  obtain ⟨hold, hsame⟩ := Bool.or_eq_false_iff.mp hk
  have heq : engine.payload k = s.engine.payload k := of_not_not (of_decide_eq_false hsame)
  rw [protocol_t.Unpublished, heq]
  exact h k hold

theorem Read.tick_read (h : Read s) (hidle : s.reading.isNone = true) :
    Read
      { s with
        reading := some (s.engine.payload s.turn)
        changed := Function.update s.changed s.turn false
        turn := s.turn.next } := by
  intro k hk
  by_cases hturn : k = s.turn
  · refine ⟨fun p hp _ => ?_, fun hother => ?_⟩
    · cases hp
      rw [hturn]
    · exact absurd ((engine_payload_kind s.engine s.turn).trans hturn.symm) (hother _ rfl)
  · refine ⟨fun p hp hkind => ?_, fun _ => ?_⟩
    · cases hp
      rw [engine_payload_kind] at hkind
      exact absurd hkind.symm hturn
    · have hold : s.changed k = false := (Function.update_of_ne hturn false s.changed).symm.trans hk
      refine (h k hold).2 fun p hp => ?_
      rw [Option.isNone_iff_eq_none.mp hidle] at hp
      cases hp

theorem Read.tick_publish (h : Read s) {p : payload_t} (hreading : s.reading = some p) :
    Read
      { s with
        events := { s.events with bus := publish_changed s.events.bus ⟨p.kind.type, p⟩ }
        reading := none } := by
  intro k hk
  refine ⟨nofun, fun _ => ?_⟩
  obtain ⟨hcurrent, hpublished⟩ := h k hk
  rw [protocol_t.Unpublished, publish_changed_last, not_not]
  split
  · rename_i htype
    rw [hcurrent p hreading (kind_type_injective htype).symm]
  · rename_i htype
    refine of_not_not (hpublished fun p' hp' hkind => ?_)
    rw [hreading] at hp'
    cases hp'
    exact htype (congrArg kind_t.type hkind.symm)

theorem Read.init : Read {} := fun _ hk => by cases hk

theorem Read.step {s s' : protocol_t} {op : op_t} (h : Read s) (hstep : s.step op = some s') : Read s' := by
  cases op with
  | change engine =>
    cases hstep
    exact h.change engine
  | tick_read =>
    obtain ⟨hidle, hnext⟩ := Option.ite_none_right_eq_some.mp hstep
    cases hnext
    exact h.tick_read hidle.1
  | tick_publish =>
    obtain ⟨p, hreading, rfl⟩ := Option.map_eq_some_iff.mp hstep
    exact h.tick_publish hreading
  | server op =>
    obtain ⟨events, hevents, rfl⟩ := Option.map_eq_some_iff.mp hstep
    exact h.same rfl rfl rfl (step_last hevents)
  | connect =>
    cases hstep
    exact h.same rfl rfl rfl rfl
  | accept =>
    obtain ⟨events, hevents, rfl⟩ := Option.map_eq_some_iff.mp hstep
    exact h.same rfl rfl rfl (by rw [accept_cases hevents, subscribe])
  | onopen =>
    obtain ⟨events, hevents, rfl⟩ := Option.map_eq_some_iff.mp hstep
    obtain ⟨st, -, rfl⟩ := onopen_cases hevents
    exact h.same rfl rfl rfl rfl
  | greet output_revision =>
    obtain ⟨events, hevents, rfl⟩ := Option.map_eq_some_iff.mp hstep
    obtain ⟨st, -, rfl⟩ := greet_cases hevents
    exact h.same rfl rfl rfl rfl
  | deliver =>
    obtain ⟨⟨m, events⟩, hdeliver, rfl⟩ := Option.map_eq_some_iff.mp hstep
    obtain ⟨st, -, ⟨revision, -, -, rfl⟩ | ⟨f, wire, -, -, -, rfl⟩⟩ := deliver_cases hdeliver
    · exact h.same rfl rfl rfl rfl
    · exact h.same rfl rfl rfl rfl
  | status_backend =>
    obtain ⟨-, hnext⟩ := Option.ite_none_right_eq_some.mp hstep
    cases hnext
    exact h.same rfl rfl rfl rfl
  | status_target backend =>
    obtain ⟨-, hnext⟩ := Option.ite_none_right_eq_some.mp hstep
    cases hnext
    exact h.same rfl rfl rfl rfl
  | refresh status =>
    obtain ⟨-, hnext⟩ := Option.ite_none_right_eq_some.mp hstep
    cases hnext
    exact h.same rfl rfl rfl rfl

/-! What the page shows. -/

theorem store_set_payload (s : store_t) (p : payload_t) (k : kind_t) :
    (s.set p).payload k = if p.kind = k then p else s.payload k := by
  cases p <;> cases k <;> rfl

/-- A status response does not say how the analysis goes. -/
theorem refresh_hype (s : store_t) (status : status_t) : (refresh s status).payload .hype = s.payload .hype := by
  rw [refresh, store_t.payload, store_t.payload]

theorem Mirrors.change (h : Mirrors s) {engine : engine_t} (hok : InTime s (.change engine))
    {changed : kind_t → Bool} : Mirrors { s with engine, changed } := by
  intro k st sub hserves
  by_cases hlast : s.events.bus.last k.type = some (engine.payload k)
  · obtain htold | hasks | hunpublished := h k st sub hserves
    · exact Or.inl htold
    · exact Or.inr (Or.inl hasks)
    · exact ((hok k (mem_kinds k) hunpublished hlast).of_serves hserves).imp_right Or.inl
  · exact Or.inr (Or.inr hlast)

theorem Mirrors.tick_publish (h : Mirrors s) (p : payload_t) :
    Mirrors
      { s with
        events := { s.events with bus := publish_changed s.events.bus ⟨p.kind.type, p⟩ }
        reading := none } := by
  obtain ⟨hsame, -⟩ | hnext := publish_changed_cases s.events.bus ⟨p.kind.type, p⟩
  · rw [hsame]
    exact h
  · rw [hnext]
    intro k st sub hserves
    by_cases hkind : p.kind = k
    · refine Or.inl (Or.inr ⟨p, ?_, ?_⟩)
      · rw [← hkind]
        exact Function.update_self ..
      · rw [← hkind]
        exact publish_reaches_self ..
    · have hlast : Function.update s.events.bus.last p.kind.type (some p) k.type = s.events.bus.last k.type :=
        Function.update_of_ne (fun htype => hkind (kind_type_injective htype.symm)) ..
      refine (h k st sub (hserves.of_subs rfl)).imp (fun htold => ?_) fun hrest => hrest.imp_right fun hunpublished heq => ?_
      · refine htold.imp (fun htold => htold.trans hlast.symm) ?_
        rintro ⟨v, hv, hreaches⟩
        exact ⟨v, hlast.trans hv, publish_reaches hreaches⟩
      · exact hunpublished (hlast.symm.trans heq)

/-- The frame of the publish that runs carries the value published last. -/
theorem Mirrors.server (h : Mirrors s) (hserial : Serial s) {op : server_op_t payload_t}
    {events : events_t payload_t} (hstep : s.events.step op = some events) : Mirrors { s with events } := by
  intro k st' sub' hserves
  obtain ⟨st, sub, hserves', hsub, hopened, -, hinbox⟩ := step_inbox hserial.fresh hstep hserves
  rw [protocol_t.Told, protocol_t.Asks, protocol_t.Unpublished, bus_t.Pending, hsub, hopened, step_last hstep]
  refine (h k st sub hserves').imp_left fun htold => ?_
  obtain ⟨hsame, hreaches⟩ | ⟨c, hc, -, hpushed, hreaches⟩ := hinbox
  · rw [hsame]
    refine htold.imp_right ?_
    rintro ⟨v, hv, hv'⟩
    exact ⟨v, hv, hreaches _ hv'⟩
  · rw [hpushed]
    by_cases htype : c.frame.type = k.type
    · left
      rw [← htype, latest_append_same]
      exact (hserial.calls c hc).symm
    · rw [latest_append_other htype]
      refine htold.imp_right ?_
      rintro ⟨v, hv, hv'⟩
      exact ⟨v, hv, hreaches _ (fun heq => htype (heq ▸ rfl)) hv'⟩

/-- A new stream asks for target and backend. -/
theorem Mirrors.accept (hserial : Serial s) (hok : InTime s .accept) {events : events_t payload_t}
    (hstep : s.events.accept = some events) : Mirrors { s with events } := by
  rw [accept_cases hstep]
  intro k st sub hserves
  obtain ⟨hstream, hmem, hid, -, -⟩ := hserves
  cases hstream
  have hnew : sub = { id := s.events.bus.next_id, joined := s.events.bus.last } := by
    obtain hold | hnew := List.mem_append.mp hmem
    · exact absurd hid (Nat.ne_of_lt (hserial.fresh.bus.bounded sub hold))
    · exact List.mem_singleton.mp hnew
  by_cases hkind : k = .hype
  · rw [hkind, hnew]
    obtain hshown | hpending | hunpublished := hok
    · exact Or.inl (Or.inl hshown.symm)
    · exact Or.inl (Or.inr hpending)
    · exact Or.inr (Or.inr hunpublished)
  · exact Or.inr (Or.inl ⟨hkind, Or.inl rfl⟩)

/-- The frame that is handled was on its way. -/
theorem Mirrors.event (h : Mirrors s) (hserial : Serial s) {st : stream_t payload_t}
    {f : frame_t payload_t} {wire : List (frame_t payload_t)} (hst : s.events.stream = some st)
    (hwire : st.wire = f :: wire) :
    Mirrors
      { s with
        events := { s.events with stream := some { st with wire } }
        store := s.store.set f.payload } := by
  intro k st' sub hserves
  obtain ⟨rfl, hserves'⟩ := hserves.restream hst rfl
  refine (h k st sub hserves').imp_left fun htold => htold.imp_left fun hlatest => ?_
  have hkind : f.type = f.payload.kind.type := hserial.frames.wire st hst f (hwire ▸ List.mem_cons_self)
  rw [stream_t.inbox, hwire, List.cons_append, latest_cons] at hlatest
  rw [← hlatest, store_set_payload, stream_t.inbox]
  by_cases heq : f.payload.kind = k
  · rw [if_pos heq, if_pos (hkind.trans (congrArg kind_t.type heq))]
  · rw [if_neg heq, if_neg fun htype => heq (kind_type_injective (hkind.symm.trans htype))]

theorem Mirrors.refresh (h : Mirrors s) {status : status_t} (hok : InTime s (.refresh status)) :
    Mirrors { s with responses := s.responses.erase status, store := engine_store.refresh s.store status } := by
  intro k st sub hserves
  cases k with
  | target => exact (hok .target List.mem_cons_self).of_serves hserves
  | backend => exact (hok .backend (List.mem_cons_of_mem _ List.mem_cons_self)).of_serves hserves
  | hype =>
    rw [refresh_hype]
    exact (h .hype st sub hserves).imp_right fun hrest => hrest.imp_left fun hasks => absurd rfl hasks.1

/-- The requests in flight change, but the page still asks if it did. -/
theorem Mirrors.asks (h : Mirrors s) {requests : Nat} {serving : List String}
    {responses : List status_t} (hasks : requests > 0 ∨ serving ≠ [] ∨ responses ≠ []) :
    Mirrors { s with requests, serving, responses } := by
  intro k st sub hserves
  exact (h k st sub hserves).imp_right fun hrest => hrest.imp_left fun hold => ⟨hold.1, Or.inr hasks⟩

theorem Mirrors.step {s s' : protocol_t} {op : op_t} (h : Mirrors s) (hserial : Serial s) (hok : InTime s op)
    (hstep : s.step op = some s') : Mirrors s' := by
  cases op with
  | change engine =>
    cases hstep
    exact h.change hok
  | tick_read =>
    obtain ⟨-, hnext⟩ := Option.ite_none_right_eq_some.mp hstep
    cases hnext
    exact h
  | tick_publish =>
    obtain ⟨p, -, rfl⟩ := Option.map_eq_some_iff.mp hstep
    exact h.tick_publish p
  | server op =>
    obtain ⟨events, hevents, rfl⟩ := Option.map_eq_some_iff.mp hstep
    exact h.server hserial hevents
  | connect =>
    cases hstep
    intro k st sub hserves
    cases hserves.stream
  | accept =>
    obtain ⟨events, hevents, rfl⟩ := Option.map_eq_some_iff.mp hstep
    exact Mirrors.accept hserial hok hevents
  | onopen =>
    obtain ⟨events, hevents, rfl⟩ := Option.map_eq_some_iff.mp hstep
    obtain ⟨st, hst, rfl⟩ := onopen_cases hevents
    intro k st' sub hserves
    obtain ⟨rfl, hserves'⟩ := hserves.restream hst rfl
    refine (h k st sub hserves').imp_right fun hrest => hrest.imp_left fun hasks => ?_
    exact ⟨hasks.1, Or.inr (Or.inl (Nat.succ_pos _))⟩
  | greet output_revision =>
    obtain ⟨events, hevents, rfl⟩ := Option.map_eq_some_iff.mp hstep
    obtain ⟨st, hst, rfl⟩ := greet_cases hevents
    intro k st' sub hserves
    obtain ⟨rfl, hserves'⟩ := hserves.restream hst rfl
    exact h k st sub hserves'
  | deliver =>
    obtain ⟨⟨m, events⟩, hdeliver, rfl⟩ := Option.map_eq_some_iff.mp hstep
    obtain ⟨st, hst, ⟨revision, -, rfl, rfl⟩ | ⟨f, wire, -, hwire, rfl, rfl⟩⟩ := deliver_cases hdeliver
    · intro k st' sub hserves
      obtain ⟨rfl, hserves'⟩ := hserves.restream hst rfl
      exact h k st sub hserves'
    · exact h.event hserial hst hwire
  | status_backend =>
    obtain ⟨-, hnext⟩ := Option.ite_none_right_eq_some.mp hstep
    cases hnext
    exact h.asks (Or.inr (Or.inl (by simp)))
  | status_target backend =>
    obtain ⟨-, hnext⟩ := Option.ite_none_right_eq_some.mp hstep
    cases hnext
    exact h.asks (Or.inr (Or.inr (by simp)))
  | refresh status =>
    obtain ⟨-, hnext⟩ := Option.ite_none_right_eq_some.mp hstep
    cases hnext
    exact h.refresh hok

/-- Nothing is in flight, the tick has read every change, and the stream is open and has
lost no frame. -/
structure Quiet (s : protocol_t) : Prop where
  changed : ∀ k, s.changed k = false
  reading : s.reading = none
  calls : s.events.bus.calls = []
  requests : s.requests = 0
  serving : s.serving = []
  responses : s.responses = []
  stream : ∃ st sub, s.events.Serves st sub ∧ st.opened = true ∧ st.inbox sub = []

/-- In every run whose changes, stream starts and status responses are in time, the page
shows the target, the backend and the analysis of the engine once nothing is in flight. -/
theorem store_mirrors_engine
    (hreach : Relation.ReflTransGen (Transition.Step InTime protocol_t.step) {} s) (hquiet : Quiet s) (k : kind_t) :
    s.store.payload k = s.engine.payload k := by
  have hkeeps : ∀ s op s', Serial s ∧ Read s ∧ Mirrors s → InTime s op → s.step op = some s' →
      Serial s' ∧ Read s' ∧ Mirrors s' :=
    fun _ _ _ h hok hstep => ⟨h.1.step hstep, h.2.1.step hstep, h.2.2.step h.1 hok hstep⟩
  have hinit : Mirrors {} := fun _ _ _ hserves => by cases hserves.stream
  obtain ⟨-, hread, hmirrors⟩ : Serial s ∧ Read s ∧ Mirrors s :=
    Transition.invariant (I := fun s => Serial s ∧ Read s ∧ Mirrors s) ⟨Serial.init, Read.init, hinit⟩ hkeeps hreach
  obtain ⟨st, sub, hserves, hopened, hinbox⟩ := hquiet.stream
  have hpublished : s.events.bus.last k.type = some (s.engine.payload k) := by
    refine of_not_not ((hread k (hquiet.changed k)).2 fun p hp => ?_)
    rw [hquiet.reading] at hp
    cases hp
  obtain (htold | ⟨v, -, c, hc, -⟩) | ⟨-, hasks⟩ | hunpublished := hmirrors k st sub hserves
  · rw [hinbox, hpublished] at htold
    exact Option.some.inj htold
  · rw [hquiet.calls] at hc
    cases hc
  · rw [hquiet.requests, hquiet.serving, hquiet.responses, hopened] at hasks
    simp at hasks
  · exact absurd hpublished hunpublished

/-- The target is attached after the status was read, and the response is handled before
the event. -/
theorem event_after_snapshot :
    ∃ s : protocol_t, Quiet s ∧ s.engine.session = some (4, "a.exe") ∧
      s.store.payload .target = s.engine.payload .target := by
  have hrun : ∃ s, Transition.run InTime protocol_t.step {}
      [.tick_read, .tick_publish, .server (.fan_out ⟨⟨"target.changed", .target { attached := false }⟩, .recorded⟩),
        .tick_read, .tick_publish, .server (.fan_out ⟨⟨"backend.changed", .backend ⟨"user", false⟩⟩, .recorded⟩),
        .tick_read, .tick_publish, .server (.fan_out ⟨⟨"hype.progress", .hype {}⟩, .recorded⟩),
        .connect, .accept, .onopen, .status_backend, .status_target "user", .change { session := some (4, "a.exe") },
        .tick_read, .tick_publish,
        .server (.fan_out ⟨⟨"target.changed", .target ⟨true, some 4, some "a.exe"⟩⟩, .recorded⟩),
        .server (.fan_out ⟨⟨"target.changed", .target ⟨true, some 4, some "a.exe"⟩⟩, .listening⟩),
        .server (.fan_out ⟨⟨"target.changed", .target ⟨true, some 4, some "a.exe"⟩⟩, .pushing [0]⟩),
        .server (.fan_out ⟨⟨"target.changed", .target ⟨true, some 4, some "a.exe"⟩⟩, .pushing []⟩),
        .greet 0, .server (.wait 0), .deliver, .refresh ⟨"user", { attached := false }⟩, .deliver] = some s ∧
      Quiet s ∧ s.engine.session = some (4, "a.exe") :=
    ⟨_, rfl, ⟨fun k => by cases k <;> rfl, rfl, rfl, rfl, rfl, rfl, _, _,
      ⟨rfl, List.mem_cons_self, rfl, rfl, rfl⟩, rfl, rfl⟩, rfl⟩
  obtain ⟨s, hrun, hquiet, hsession⟩ := hrun
  exact ⟨s, hquiet, hsession, store_mirrors_engine (Transition.run_reaches hrun) hquiet .target⟩

/-- The same response is handled after the event: the page shows no target. -/
theorem snapshot_after_event :
    ∃ s : protocol_t, Transition.run (fun _ _ => True) protocol_t.step {}
      [.tick_read, .tick_publish, .server (.fan_out ⟨⟨"target.changed", .target { attached := false }⟩, .recorded⟩),
        .tick_read, .tick_publish, .server (.fan_out ⟨⟨"backend.changed", .backend ⟨"user", false⟩⟩, .recorded⟩),
        .tick_read, .tick_publish, .server (.fan_out ⟨⟨"hype.progress", .hype {}⟩, .recorded⟩),
        .connect, .accept, .onopen, .status_backend, .status_target "user", .change { session := some (4, "a.exe") },
        .tick_read, .tick_publish,
        .server (.fan_out ⟨⟨"target.changed", .target ⟨true, some 4, some "a.exe"⟩⟩, .recorded⟩),
        .server (.fan_out ⟨⟨"target.changed", .target ⟨true, some 4, some "a.exe"⟩⟩, .listening⟩),
        .server (.fan_out ⟨⟨"target.changed", .target ⟨true, some 4, some "a.exe"⟩⟩, .pushing [0]⟩),
        .server (.fan_out ⟨⟨"target.changed", .target ⟨true, some 4, some "a.exe"⟩⟩, .pushing []⟩),
        .greet 0, .server (.wait 0), .deliver, .deliver, .refresh ⟨"user", { attached := false }⟩] = some s ∧
      Quiet s ∧ s.engine.target = ⟨true, some 4, some "a.exe"⟩ ∧ s.store.target = { attached := false } :=
  ⟨_, rfl, ⟨fun k => by cases k <;> rfl, rfl, rfl, rfl, rfl, rfl, _, _,
    ⟨rfl, List.mem_cons_self, rfl, rfl, rfl⟩, rfl, rfl⟩, rfl, rfl⟩

end slop.app.engine_store
