import ReverseSlop.Core.Infra.EventBus.Delivery

namespace slop.core.mcp

open infra.event_bus

section

variable {π : Type}

/-- The first thing on a stream: not written yet, written but not handled, or handled. -/
inductive hello_t where
  | unsent
  | sent (output_revision : Nat)
  | seen
  deriving DecidableEq

/-- The event stream of the page: its subscriber, whether the page has seen it open, and
the frames that are written but not handled. -/
structure stream_t (π : Type) where
  sub : Nat
  opened : Bool := false
  hello : hello_t := .unsent
  wire : List (frame_t π) := []

structure events_t (π : Type) where
  bus : bus_t π := {}
  stream : Option (stream_t π) := none

/-- The page closes its stream and asks for another. The subscriber stays until the server
notices. -/
def events_t.connect (s : events_t π) : events_t π := { s with stream := none }

/-- The handler of the request subscribes. -/
def events_t.accept (s : events_t π) : Option (events_t π) :=
  if s.stream.isNone then
    some { bus := subscribe s.bus, stream := some { sub := s.bus.next_id } }
  else none

def events_t.onopen (s : events_t π) : Option (events_t π) :=
  (s.stream.filter fun st => !st.opened).map fun st => { s with stream := some { st with opened := true } }

/-- The hello is the first chunk that the content provider writes. -/
def events_t.greet (s : events_t π) (output_revision : Nat) : Option (events_t π) :=
  (s.stream.filter fun st => st.hello = .unsent).map fun st =>
    { s with stream := some { st with hello := .sent output_revision } }

/-- Drain a subscriber. What the subscriber of the stream has goes out, behind the hello. -/
def events_t.wait (s : events_t π) (id : Nat) : Option (events_t π) :=
  match s.stream.filter fun st => st.sub = id with
  | none => some { s with bus := s.bus.edit id subscriber_t.wait }
  | some st =>
    if st.hello = .unsent then none
    else
      some
        { bus := s.bus.edit id subscriber_t.wait
          stream := some { st with wire := st.wire ++ s.bus.backlog id } }

/-- What a page gets from its stream. -/
inductive message_t (π : Type) where
  | hello (output_revision : Nat)
  | event (f : frame_t π)

/-- The page takes the next message, once it has seen the stream open. -/
def events_t.deliver (s : events_t π) : Option (message_t π × events_t π) :=
  (s.stream.filter stream_t.opened).bind fun st =>
    match st.hello, st.wire with
    | .sent output_revision, _ => some (.hello output_revision, { s with stream := some { st with hello := .seen } })
    | .seen, f :: wire => some (.event f, { s with stream := some { st with wire } })
    | _, _ => none

inductive server_op_t (π : Type) where
  | subscribe
  | close (id : Nat)
  | wait (id : Nat)
  | fan_out (c : call_t π)

/-- A step of a subscriber, or of a publish. -/
def events_t.step [DecidableEq π] (s : events_t π) : server_op_t π → Option (events_t π)
  | .subscribe => some { s with bus := subscribe s.bus }
  | .close id => some { s with bus := s.bus.edit id subscriber_t.close }
  | .wait id => s.wait id
  | .fan_out c => (s.bus.step (.fan_out c)).map fun bus => { s with bus }

/-! Subscribers have ids of their own. -/

structure events_t.Fresh (s : events_t π) : Prop where
  bus : s.bus.Fresh
  stream : ∀ st ∈ s.stream, st.sub < s.bus.next_id

theorem fresh_init : events_t.Fresh ({} : events_t π) := ⟨bus_fresh_init, fun _ h => by cases h⟩

theorem accept_cases {s s' : events_t π} (hstep : s.accept = some s') :
    s' = { bus := subscribe s.bus, stream := some { sub := s.bus.next_id } } := by
  rw [events_t.accept] at hstep
  split at hstep
  · cases hstep
    rfl
  · cases hstep

theorem accept_fresh {s s' : events_t π} (h : s.Fresh) (hstep : s.accept = some s') : s'.Fresh := by
  rw [accept_cases hstep]
  refine ⟨h.bus.subscribe, fun st hst => ?_⟩
  cases hst
  exact Nat.lt_succ_self _

theorem stream_fresh {s : events_t π} (h : s.Fresh) {st st' : stream_t π} (hst : s.stream = some st)
    (hsub : st'.sub = st.sub) : events_t.Fresh { s with stream := some st' } := by
  refine ⟨h.bus, fun st'' hst'' => ?_⟩
  cases hst''
  rw [hsub]
  exact h.stream st hst

/-- What there is to drain belongs to the subscriber of the id. -/
theorem backlog_eq {b : bus_t π} (h : b.Fresh) {sub : subscriber_t π} (hsub : sub ∈ b.subs) :
    b.backlog sub.id = sub.q := by
  have hfind : b.subs.find? (fun x => x.id = sub.id) = some sub := by
    obtain ⟨found, hfound⟩ : ∃ found, b.subs.find? (fun x => x.id = sub.id) = some found := by
      rw [← Option.isSome_iff_exists, List.find?_isSome]
      exact ⟨sub, hsub, decide_eq_true rfl⟩
    have hid := List.find?_some hfound
    rw [hfound, h.distinct.eq_of_key (List.mem_of_find?_eq_some hfound) hsub (of_decide_eq_true hid)]
  rw [bus_t.backlog, hfind, Option.map_some, Option.getD_some]

theorem wait_cases {s s' : events_t π} {id : Nat} (hstep : s.wait id = some s') :
    s'.bus = s.bus.edit id subscriber_t.wait ∧
      ((s'.stream = s.stream ∧ ∀ st ∈ s.stream, st.sub ≠ id) ∨
        ∃ st, s.stream = some st ∧ st.sub = id ∧ st.hello ≠ .unsent ∧
          s'.stream = some { st with wire := st.wire ++ s.bus.backlog id }) := by
  rw [events_t.wait] at hstep
  split at hstep
  · rename_i hnone
    cases hstep
    refine ⟨rfl, Or.inl ⟨rfl, fun st hst heq => ?_⟩⟩
    exact Option.filter_eq_none_iff.mp hnone st hst (decide_eq_true heq)
  · rename_i st hsome
    obtain ⟨hst, hid⟩ := Option.filter_eq_some_iff.mp hsome
    split at hstep
    · cases hstep
    · cases hstep
      exact ⟨rfl, Or.inr ⟨st, hst, of_decide_eq_true hid, ‹_›, rfl⟩⟩

theorem deliver_cases {s s' : events_t π} {m : message_t π} (hstep : s.deliver = some (m, s')) :
    ∃ st, s.stream = some st ∧
      ((∃ output_revision, st.hello = .sent output_revision ∧ m = .hello output_revision ∧
          s' = { s with stream := some { st with hello := .seen } }) ∨
        ∃ f wire, st.hello = .seen ∧ st.wire = f :: wire ∧ m = .event f ∧
          s' = { s with stream := some { st with wire } }) := by
  obtain ⟨st, hst, hnext⟩ := Option.bind_eq_some_iff.mp hstep
  refine ⟨st, (Option.filter_eq_some_iff.mp hst).1, ?_⟩
  split at hnext
  · cases hnext
    exact Or.inl ⟨_, ‹_›, rfl, rfl⟩
  · cases hnext
    exact Or.inr ⟨_, _, ‹_›, ‹_›, rfl, rfl⟩
  · cases hnext

theorem onopen_cases {s s' : events_t π} (hstep : s.onopen = some s') :
    ∃ st, s.stream = some st ∧ s' = { s with stream := some { st with opened := true } } := by
  obtain ⟨st, hst, rfl⟩ := Option.map_eq_some_iff.mp hstep
  exact ⟨st, (Option.filter_eq_some_iff.mp hst).1, rfl⟩

theorem greet_cases {s s' : events_t π} {output_revision : Nat} (hstep : s.greet output_revision = some s') :
    ∃ st, s.stream = some st ∧ s' = { s with stream := some { st with hello := .sent output_revision } } := by
  obtain ⟨st, hst, rfl⟩ := Option.map_eq_some_iff.mp hstep
  exact ⟨st, (Option.filter_eq_some_iff.mp hst).1, rfl⟩

/-! No frame is made up. -/

/-- All frames on their way have a property. -/
structure events_t.All (P : frame_t π → Prop) (s : events_t π) : Prop where
  bus : s.bus.All P
  wire : ∀ st ∈ s.stream, ∀ f ∈ st.wire, P f

theorem accept_all {P : frame_t π → Prop} {s s' : events_t π} (h : s.All P) (hstep : s.accept = some s') :
    s'.All P := by
  rw [accept_cases hstep]
  refine ⟨h.bus.subscribe, fun st hst => ?_⟩
  cases hst
  exact List.forall_mem_nil _

/-! What comes to the page. -/

/-- The frames on their way from a subscriber. -/
def stream_t.inbox (st : stream_t π) (sub : subscriber_t π) : List (frame_t π) := st.wire ++ sub.q

/-- The stream listens to this subscriber, which is open and has lost no frame. -/
structure events_t.Serves (s : events_t π) (st : stream_t π) (sub : subscriber_t π) : Prop where
  stream : s.stream = some st
  mem : sub ∈ s.bus.subs
  id : sub.id = st.sub
  opened : sub.closed = false
  kept : sub.dropped = 0

/-- The stream goes on with the same subscriber. -/
theorem events_t.Serves.restream {s : events_t π} {st st' st'' : stream_t π} {sub : subscriber_t π}
    (h : events_t.Serves { s with stream := some st' } st'' sub) (hst : s.stream = some st)
    (hsub : st'.sub = st.sub) : st'' = st' ∧ s.Serves st sub := by
  obtain ⟨hstream, hmem, hid, hopened, hkept⟩ := h
  cases hstream
  exact ⟨rfl, hst, hmem, hid.trans hsub, hopened, hkept⟩

/-- The subscribers stay as they are. -/
theorem events_t.Serves.of_subs {s : events_t π} {b : bus_t π} {st : stream_t π} {sub : subscriber_t π}
    (h : events_t.Serves { s with bus := b } st sub) (hsubs : b.subs = s.bus.subs) : s.Serves st sub :=
  ⟨h.stream, hsubs ▸ h.mem, h.id, h.opened, h.kept⟩

/-- A property of the stream and of a subscriber that it listens to. -/
def events_t.Each (s : events_t π) (P : stream_t π → subscriber_t π → Prop) : Prop :=
  ∀ st ∈ s.stream, ∀ sub ∈ s.bus.subs, sub.id = st.sub → sub.closed = false → sub.dropped = 0 → P st sub

instance (s : events_t π) (P : stream_t π → subscriber_t π → Prop) [∀ st sub, Decidable (P st sub)] :
    Decidable (s.Each P) :=
  inferInstanceAs (Decidable (∀ st ∈ s.stream, _))

theorem events_t.Each.of_serves {s : events_t π} {P : stream_t π → subscriber_t π → Prop} (h : s.Each P)
    {st : stream_t π} {sub : subscriber_t π} (hserves : s.Serves st sub) : P st sub :=
  h st hserves.stream sub hserves.mem hserves.id hserves.opened hserves.kept

/-! A step of the server. -/

variable [DecidableEq π]

theorem step_fresh {s s' : events_t π} {op : server_op_t π} (h : s.Fresh) (hstep : s.step op = some s') :
    s'.Fresh := by
  cases op with
  | subscribe =>
    cases hstep
    exact ⟨h.bus.subscribe, fun st hst => Nat.lt_succ_of_lt (h.stream st hst)⟩
  | close id =>
    cases hstep
    exact ⟨h.bus.edit fun _ => rfl, h.stream⟩
  | wait id =>
    obtain ⟨hbus, ⟨hstream, -⟩ | ⟨st, hst, -, -, hstream⟩⟩ := wait_cases hstep
    · refine ⟨hbus ▸ h.bus.edit fun _ => rfl, ?_⟩
      rw [hstream, hbus]
      exact h.stream
    · refine ⟨hbus ▸ h.bus.edit fun _ => rfl, fun st' hst' => ?_⟩
      rw [hstream] at hst'
      cases hst'
      rw [hbus]
      exact h.stream st hst
  | fan_out c =>
    obtain ⟨bus, hbus, rfl⟩ := Option.map_eq_some_iff.mp hstep
    obtain ⟨hc, rfl⟩ := step_fan_out hbus
    refine ⟨h.bus.fan_out c, fun st hst => ?_⟩
    rw [fan_out_next_id]
    exact h.stream st hst

theorem step_hello {s s' : events_t π} {op : server_op_t π} {st' : stream_t π} (hstep : s.step op = some s')
    (hst' : s'.stream = some st') : ∃ st, s.stream = some st ∧ st'.hello = st.hello := by
  cases op with
  | subscribe =>
    cases hstep
    exact ⟨st', hst', rfl⟩
  | close id =>
    cases hstep
    exact ⟨st', hst', rfl⟩
  | wait id =>
    obtain ⟨-, ⟨hstream, -⟩ | ⟨st, hst, -, -, hstream⟩⟩ := wait_cases hstep
    · exact ⟨st', hstream ▸ hst', rfl⟩
    · rw [hstream] at hst'
      cases hst'
      exact ⟨st, hst, rfl⟩
  | fan_out c =>
    obtain ⟨bus, hbus, rfl⟩ := Option.map_eq_some_iff.mp hstep
    obtain ⟨hc, rfl⟩ := step_fan_out hbus
    exact ⟨st', hst', rfl⟩

theorem step_all {P : frame_t π → Prop} {s s' : events_t π} {op : server_op_t π} (h : s.All P)
    (hstep : s.step op = some s') : s'.All P := by
  cases op with
  | subscribe =>
    cases hstep
    exact ⟨h.bus.subscribe, h.wire⟩
  | close id =>
    cases hstep
    exact ⟨h.bus.edit fun _ hq => hq, h.wire⟩
  | wait id =>
    obtain ⟨hbus, hwire⟩ := wait_cases hstep
    refine ⟨hbus ▸ h.bus.edit fun _ _ => List.forall_mem_nil _, ?_⟩
    obtain ⟨hstream, -⟩ | ⟨st, hst, -, -, hstream⟩ := hwire
    · rw [hstream]
      exact h.wire
    · intro st' hst' f hf
      rw [hstream] at hst'
      cases hst'
      exact (List.mem_append.mp hf).elim (h.wire st hst f) (h.bus.backlog id f)
  | fan_out c =>
    obtain ⟨bus, hbus, rfl⟩ := Option.map_eq_some_iff.mp hstep
    obtain ⟨hc, rfl⟩ := step_fan_out hbus
    exact ⟨h.bus.fan_out (h.bus.calls c hc), h.wire⟩

theorem step_last {s s' : events_t π} {op : server_op_t π} (hstep : s.step op = some s') :
    s'.bus.last = s.bus.last := by
  cases op with
  | subscribe =>
    cases hstep
    rfl
  | close id =>
    cases hstep
    rfl
  | wait id => rw [(wait_cases hstep).1, bus_t.edit]
  | fan_out c =>
    obtain ⟨bus, hbus, rfl⟩ := Option.map_eq_some_iff.mp hstep
    obtain ⟨hc, rfl⟩ := step_fan_out hbus
    exact fan_out_last s.bus c

/-- No publish starts. -/
theorem step_calls {s s' : events_t π} {op : server_op_t π} (hstep : s.step op = some s') :
    ∀ c' ∈ s'.bus.calls, ∃ c ∈ s.bus.calls, c'.frame = c.frame := by
  cases op with
  | subscribe =>
    cases hstep
    exact fun c' hc' => ⟨c', hc', rfl⟩
  | close id =>
    cases hstep
    exact fun c' hc' => ⟨c', hc', rfl⟩
  | wait id =>
    rw [(wait_cases hstep).1]
    exact fun c' hc' => ⟨c', hc', rfl⟩
  | fan_out c =>
    obtain ⟨bus, hbus, rfl⟩ := Option.map_eq_some_iff.mp hstep
    obtain ⟨hc, rfl⟩ := step_fan_out hbus
    intro c' hc'
    obtain hold | hsame := fan_out_calls hc'
    · exact ⟨c', hold, rfl⟩
    · exact ⟨c, hc, hsame⟩

/-- What a step of the server does to the frames on their way: nothing, or it puts the frame
of a publish behind them. No frame that is still to be pushed is forgotten. -/
theorem step_inbox {s s' : events_t π} {op : server_op_t π} {st' : stream_t π} {sub' : subscriber_t π}
    (hfresh : s.Fresh) (hstep : s.step op = some s') (hserves : s'.Serves st' sub') :
    ∃ st sub, s.Serves st sub ∧ st'.sub = st.sub ∧ st'.opened = st.opened ∧ st'.hello = st.hello ∧
      ((st'.inbox sub' = st.inbox sub ∧ ∀ f, s.bus.Reaches f st.sub → s'.bus.Reaches f st.sub) ∨
        ∃ c ∈ s.bus.calls, c.target = some st.sub ∧ st'.inbox sub' = st.inbox sub ++ [c.frame] ∧
          ∀ f ≠ c.frame, s.bus.Reaches f st.sub → s'.bus.Reaches f st.sub) := by
  cases op with
  | subscribe =>
    cases hstep
    obtain ⟨hstream, hmem, hid, hopened, hkept⟩ := hserves
    obtain hold | hnew := List.mem_append.mp hmem
    · exact ⟨st', sub', ⟨hstream, hold, hid, hopened, hkept⟩, rfl, rfl, rfl, Or.inl ⟨rfl, fun _ h => h⟩⟩
    · rw [List.mem_singleton.mp hnew] at hid
      exact absurd hid.symm (Nat.ne_of_lt (hfresh.stream st' hstream))
  | close id =>
    cases hstep
    obtain ⟨hstream, hmem, hid, hopened, hkept⟩ := hserves
    obtain ⟨old, hold, rfl⟩ := List.mem_map.mp hmem
    split_ifs at hid hopened hkept ⊢
    · cases hopened
    · exact ⟨st', old, ⟨hstream, hold, hid, hopened, hkept⟩, rfl, rfl, rfl, Or.inl ⟨rfl, fun _ h => h⟩⟩
  | wait id =>
    obtain ⟨hbus, ⟨hstream, hother⟩ | ⟨st, hst, hid, -, hstream⟩⟩ := wait_cases hstep
    · obtain ⟨hstream', hmem, hid, hopened, hkept⟩ := hserves
      rw [hstream] at hstream'
      rw [hbus] at hmem
      obtain ⟨old, hold, rfl⟩ := List.mem_map.mp hmem
      split_ifs at hid hopened hkept ⊢ with heq
      · exact absurd (hid.symm.trans heq) (hother st' hstream')
      · refine ⟨st', old, ⟨hstream', hold, hid, hopened, hkept⟩, rfl, rfl, rfl, Or.inl ⟨rfl, fun f h => ?_⟩⟩
        rw [hbus]
        exact h
    · obtain ⟨hstream', hmem, hid', hopened, hkept⟩ := hserves
      rw [hstream] at hstream'
      cases hstream'
      rw [hbus] at hmem
      obtain ⟨old, hold, rfl⟩ := List.mem_map.mp hmem
      split_ifs at hid' hopened hkept ⊢ with heq
      · refine ⟨st, old, ⟨hst, hold, hid', hopened, hkept⟩, rfl, rfl, rfl, Or.inl ⟨?_, fun f h => ?_⟩⟩
        · rw [← heq, backlog_eq hfresh.bus hold]
          exact List.append_nil _
        · rw [hbus]
          exact h
      · exact absurd (hid'.trans hid) heq
  | fan_out c =>
    obtain ⟨bus, hbus, rfl⟩ := Option.map_eq_some_iff.mp hstep
    obtain ⟨hc, rfl⟩ := step_fan_out hbus
    obtain ⟨hstream, hmem, hid, hopened, hkept⟩ := hserves
    obtain ⟨hold, hreaches⟩ | ⟨old, hold, rfl, htarget, hreaches⟩ := fan_out_cases s.bus c hmem hopened hkept
    · refine ⟨st', sub', ⟨hstream, hold, hid, hopened, hkept⟩, rfl, rfl, rfl, Or.inl ⟨rfl, ?_⟩⟩
      rw [← hid]
      exact hreaches
    · refine ⟨st', old, ⟨hstream, hold, hid, hopened, hkept⟩, rfl, rfl, rfl, Or.inr ⟨c, hc, ?_, ?_, ?_⟩⟩
      · rw [htarget, ← hid]
      · exact (List.append_assoc ..).symm
      · rw [← hid]
        exact hreaches

end

end slop.core.mcp
