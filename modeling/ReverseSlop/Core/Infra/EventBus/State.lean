import Mathlib.Logic.Function.Basic
import Mathlib.Data.List.Basic
import ReverseSlop.Library.Transition
import ReverseSlop.Library.Counted

namespace slop.core.infra.event_bus

def kMaxQueueFrames : Nat := 512

section

variable {π : Type} [DecidableEq π]

/-- One sse frame. -/
structure frame_t (π : Type) where
  type : String
  payload : π
  deriving DecidableEq

/-- A subscriber with its backlog. Not in the program: the frames that it has drained, and
what was recorded as last published when it came. -/
structure subscriber_t (π : Type) where
  id : Nat
  q : List (frame_t π) := []
  dropped : Nat := 0
  closed : Bool := false
  drained : List (frame_t π) := []
  joined : String → Option π

def subscriber_t.push (sub : subscriber_t π) (f : frame_t π) : subscriber_t π :=
  if sub.closed then sub
  -- drop oldest: fresh state beats stale
  else if sub.q.length ≥ kMaxQueueFrames then { sub with q := sub.q.tail ++ [f], dropped := sub.dropped + 1 }
  else { sub with q := sub.q ++ [f] }

def subscriber_t.wait (sub : subscriber_t π) : subscriber_t π := { sub with q := [], drained := sub.drained ++ sub.q }

def subscriber_t.close (sub : subscriber_t π) : subscriber_t π := { sub with closed := true }

/-- Between which sections a publish is: before it looks whether anybody listens, before it
copies the registry, or with the subscribers that it has yet to push to. -/
inductive stage_t where
  | recorded
  | listening
  | pushing (live : List Nat)
  deriving DecidableEq

/-- A publish that runs. -/
structure call_t (π : Type) where
  frame : frame_t π
  stage : stage_t := .recorded
  deriving DecidableEq

/-- The bus with the publishes that run. -/
structure bus_t (π : Type) where
  last : String → Option π := fun _ => none
  subs : List (subscriber_t π) := []
  next_id : Nat := 0
  calls : List (call_t π) := []

def subscribe (b : bus_t π) : bus_t π :=
  { b with subs := b.subs ++ [{ id := b.next_id, joined := b.last }], next_id := b.next_id + 1 }

/-- Change the subscriber of an id. -/
def bus_t.edit (b : bus_t π) (id : Nat) (f : subscriber_t π → subscriber_t π) : bus_t π :=
  { b with subs := b.subs.map fun sub => if sub.id = id then f sub else sub }

/-- The frames that the subscriber of an id has yet to drain. -/
def bus_t.backlog (b : bus_t π) (id : Nat) : List (frame_t π) :=
  ((b.subs.find? fun sub => sub.id = id).map subscriber_t.q).getD []

/-- A publish goes from one section to the next, or returns. -/
def bus_t.advance (b : bus_t π) (c : call_t π) (next : Option stage_t) : bus_t π :=
  { b with calls := b.calls.erase c ++ (next.map fun stage => { c with stage }).toList }

def publish (b : bus_t π) (f : frame_t π) : bus_t π := { b with calls := b.calls ++ [{ frame := f }] }

/-- The first section of `publish_changed`. -/
def publish_changed (b : bus_t π) (f : frame_t π) : bus_t π :=
  if b.last f.type = some f.payload then b   -- unchanged: stay silent
  else publish { b with last := Function.update b.last f.type (some f.payload) } f

/-- Nobody listening: the publish returns. -/
def check (b : bus_t π) (c : call_t π) : bus_t π :=
  if b.subs.isEmpty then b.advance c none else b.advance c (some .listening)

/-- The first part of `fan_out`: copy the registry, and reap dead subscribers lazily. -/
def snapshot (b : bus_t π) (c : call_t π) : bus_t π :=
  let live := b.subs.filter fun sub => !sub.closed
  { b.advance c (some (.pushing (live.map subscriber_t.id))) with subs := live }

inductive op_t (π : Type) where
  | subscribe
  | close (id : Nat)
  | wait (id : Nat)
  | publish (f : frame_t π)
  | publish_changed (f : frame_t π)
  | fan_out (c : call_t π)

/-- The next section of a publish that runs. -/
def fan_out (b : bus_t π) (c : call_t π) : bus_t π :=
  match c.stage with
  | .recorded => check b c
  | .listening => snapshot b c
  | .pushing [] => b.advance c none
  | .pushing (id :: live) => (b.edit id fun sub => sub.push c.frame).advance c (some (.pushing live))

/-- One lock section. -/
def bus_t.step (b : bus_t π) : op_t π → Option (bus_t π)
  | .subscribe => some (subscribe b)
  | .close id => some (b.edit id subscriber_t.close)
  | .wait id => some (b.edit id subscriber_t.wait)
  | .publish f => some (publish b f)
  | .publish_changed f => some (publish_changed b f)
  | .fan_out c => if c ∈ b.calls then some (fan_out b c) else none

end

def kMaxOutput : Nat := 4096

structure output_line_t where
  seq : Nat
  ms : Int
  text : String
  deriving DecidableEq

/-- The app output ring. -/
structure ring_t where
  g_out : List output_line_t := []
  g_out_seq : Nat := 0
  deriving DecidableEq

/-- The section of `output`: the line that it publishes next, and the ring. -/
def output (r : ring_t) (ms : Int) (text : String) : output_line_t × ring_t :=
  let line : output_line_t := { seq := r.g_out_seq + 1, ms, text }
  (line, { g_out := (if r.g_out.length ≥ kMaxOutput then r.g_out.tail else r.g_out) ++ [line], g_out_seq := line.seq })

def output_since (r : ring_t) (since : Nat) : List output_line_t := r.g_out.dropWhile fun line => line.seq ≤ since

def output_revision (r : ring_t) : Nat := r.g_out_seq

/-- A ring that has never overflowed holds the lines from 1 on. -/
structure ring_t.Whole (r : ring_t) : Prop where
  numbered : Counted.Numbered output_line_t.seq r.g_out
  revision : r.g_out_seq = r.g_out.length
  bounded : r.g_out.length ≤ kMaxOutput

theorem whole_init : ring_t.Whole {} := ⟨Counted.nil, rfl, Nat.zero_le _⟩

theorem output_room {r : ring_t} (hroom : r.g_out.length < kMaxOutput) (ms : Int) (text : String) :
    (output r ms text).2 =
      { g_out := r.g_out ++ [(output r ms text).1], g_out_seq := (output r ms text).1.seq } := by
  rw [output, if_neg (Nat.not_le.mpr hroom)]

theorem ring_t.Whole.output {r : ring_t} (h : r.Whole) (hroom : r.g_out.length < kMaxOutput) (ms : Int)
    (text : String) : (event_bus.output r ms text).2.Whole := by
  rw [output_room hroom]
  have hseq : (event_bus.output r ms text).1.seq = r.g_out.length + 1 := congrArg (· + 1) h.revision
  refine ⟨h.numbered.append hseq, ?_, ?_⟩
  · rw [hseq, List.length_append, List.length_singleton]
  · rw [List.length_append, List.length_singleton]
    exact hroom

theorem ring_t.Whole.output_since {r : ring_t} (h : r.Whole) (since : Nat) :
    event_bus.output_since r since = r.g_out.drop since := h.numbered.dropWhile since

end slop.core.infra.event_bus
