import Mathlib.Algebra.Group.Nat.Defs
import ReverseSlop.Core.Infra.EventBus.State

namespace slop.core.infra.event_bus

variable {π : Type}

/-- A lock section of one subscriber: a push, or the part of a wait that takes the batch, which comes when a
frame is there or the time is up. -/
inductive queue_op_t (π : Type) where
  | push (f : frame_t π)
  | wait

/-- A subscriber that nobody has pushed to. -/
def joined (id : Nat) (last : String → Option π) : subscriber_t π := { id, joined := last }

def subscriber_t.apply (sub : subscriber_t π) : queue_op_t π → subscriber_t π
  | .push f => sub.push f
  | .wait => sub.wait

def subscriber_t.run (sub : subscriber_t π) (ops : List (queue_op_t π)) : subscriber_t π := ops.foldl subscriber_t.apply sub

/-- What `dropped()` returns. -/
def subscriber_t.dropped_value (sub : subscriber_t π) : UInt64 := UInt64.ofNat sub.dropped

/-- The frames pushed. -/
def pushed : List (queue_op_t π) → List (frame_t π)
  | [] => []
  | .push f :: ops => f :: pushed ops
  | .wait :: ops => pushed ops

/-- The frame that leaves the queue for a section without being received. -/
def subscriber_t.pops (sub : subscriber_t π) : queue_op_t π → Option (frame_t π)
  | .push _ => if !sub.closed ∧ sub.q.length ≥ kMaxQueueFrames then sub.q.head? else none
  | .wait => none

/-- The frames dropped in a run, in their order. -/
def lost (sub : subscriber_t π) : List (queue_op_t π) → List (frame_t π)
  | [] => []
  | op :: ops => (sub.pops op).toList ++ lost (sub.apply op) ops

/-- Some frames in their order, with those that are kept and those that are not. -/
def Sifted (frames kept dropped : List (frame_t π)) : Prop :=
  ∃ marked : List (frame_t π × Bool), marked.map Prod.fst = frames ∧
    (marked.filter Prod.snd).map Prod.fst = kept ∧ (marked.filter fun m => !m.2).map Prod.fst = dropped

/-- The account of an open subscriber: the frames that have left the queue were received or dropped, the others
are queued, and the counter has the number of those dropped. -/
structure subscriber_t.Account (sub : subscriber_t π) (frames dropped : List (frame_t π)) : Prop where
  opened : sub.closed = false
  settled : ∃ front, frames = front ++ sub.q ∧ Sifted front sub.drained dropped
  counted : sub.dropped = dropped.length
  bounded : sub.q.length ≤ kMaxQueueFrames

section

variable {sub : subscriber_t π} {frames frames' kept kept' dropped dropped' : List (frame_t π)} {f : frame_t π}
  {op : queue_op_t π} {ops : List (queue_op_t π)}

theorem Sifted.append (h : Sifted frames kept dropped) (h' : Sifted frames' kept' dropped') :
    Sifted (frames ++ frames') (kept ++ kept') (dropped ++ dropped') := by
  obtain ⟨marked, hframes, hkept, hdropped⟩ := h
  obtain ⟨marked', hframes', hkept', hdropped'⟩ := h'
  exact ⟨marked ++ marked', by simp [hframes, hframes'], by simp [hkept, hkept'], by simp [hdropped, hdropped']⟩

theorem sifted_kept (frames : List (frame_t π)) : Sifted frames frames [] := by
  refine ⟨frames.map fun f => (f, true), ?_, ?_, ?_⟩
  · simp [Function.comp_def]
  · simp [List.filter_map, Function.comp_def]
  · simp [List.filter_map, Function.comp_def]

theorem sifted_dropped (f : frame_t π) : Sifted [f] [] [f] := ⟨[(f, false)], by simp, by simp, by simp⟩

theorem Sifted.length (h : Sifted frames kept dropped) : kept.length + dropped.length = frames.length := by
  obtain ⟨marked, hframes, hkept, hdropped⟩ := h
  have hpartition := List.length_eq_length_filter_add (l := marked) Prod.snd
  rw [← hframes, ← hkept, ← hdropped]
  simp only [List.length_map]
  omega

theorem push_open (hopen : sub.closed = false) (hroom : sub.q.length < kMaxQueueFrames) :
    sub.push f = { sub with q := sub.q ++ [f] } := by
  simp [subscriber_t.push, hopen, hroom]

theorem push_full (hopen : sub.closed = false) (hfull : sub.q.length ≥ kMaxQueueFrames) :
    sub.push f = { sub with q := sub.q.tail ++ [f], dropped := sub.dropped + 1 } := by
  simp [subscriber_t.push, hopen, hfull]

/-- Only the oldest queued frame is dropped, and only for a push to a full queue. -/
theorem subscriber_t.Account.push_cases (h : sub.Account frames dropped) (f : frame_t π) :
    (sub.q.length < kMaxQueueFrames ∧ sub.pops (.push f) = none ∧ sub.push f = { sub with q := sub.q ++ [f] }) ∨
      ∃ oldest rest, sub.q = oldest :: rest ∧ sub.q.length = kMaxQueueFrames ∧ sub.pops (.push f) = some oldest ∧
        sub.push f = { sub with q := rest ++ [f], dropped := sub.dropped + 1 } := by
  obtain hroom | hfull := Nat.lt_or_ge sub.q.length kMaxQueueFrames
  · left
    refine ⟨hroom, ?_, push_open h.opened hroom⟩
    rw [subscriber_t.pops, if_neg (not_and_of_not_right _ (Nat.not_le.mpr hroom))]
  · right
    have hpush := push_full (f := f) h.opened hfull
    have hne : sub.q ≠ [] := by
      apply List.ne_nil_of_length_pos
      have hpos : 0 < kMaxQueueFrames := by simp [kMaxQueueFrames]
      omega
    obtain ⟨oldest, rest, hq⟩ := List.exists_cons_of_ne_nil hne
    refine ⟨oldest, rest, hq, Nat.le_antisymm h.bounded hfull, ?_, ?_⟩
    · rw [subscriber_t.pops, if_pos ⟨by simp [h.opened], hfull⟩, hq, List.head?_cons]
    · rw [hpush, hq, List.tail_cons]

/-- Every section keeps the account. -/
theorem subscriber_t.Account.apply (h : sub.Account frames dropped) (op : queue_op_t π) :
    (sub.apply op).Account (frames ++ pushed [op]) (dropped ++ (sub.pops op).toList) := by
  obtain ⟨front, hframes, hsifted⟩ := h.settled
  cases op with
  | wait =>
    refine ⟨h.opened, ⟨frames, by simp [pushed, subscriber_t.apply, subscriber_t.wait], ?_⟩, ?_, ?_⟩
    · rw [hframes]
      exact hsifted.append (sifted_kept sub.q)
    · simp [subscriber_t.apply, subscriber_t.wait, subscriber_t.pops, h.counted]
    · simp [subscriber_t.apply, subscriber_t.wait]
  | push f =>
    rw [subscriber_t.apply]
    obtain ⟨hroom, hpops, hpush⟩ | ⟨oldest, rest, hq, hfull, hpops, hpush⟩ := h.push_cases f
    · rw [hpops, hpush]
      refine ⟨h.opened, ⟨front, by simp [hframes, pushed], by simpa using hsifted⟩, by simp [h.counted], ?_⟩
      simp only [List.length_append, List.length_singleton]
      omega
    · rw [hpops, hpush]
      refine ⟨h.opened, ⟨front ++ [oldest], by simp [hframes, hq, pushed], ?_⟩, by simp [h.counted], ?_⟩
      · simpa using hsifted.append (sifted_dropped oldest)
      · rw [hq, List.length_cons] at hfull
        simp only [List.length_append, List.length_singleton]
        omega

theorem pushed_cons (op : queue_op_t π) (ops : List (queue_op_t π)) : pushed (op :: ops) = pushed [op] ++ pushed ops := by
  cases op <;> simp [pushed]

theorem subscriber_t.Account.run (h : sub.Account frames dropped) (ops : List (queue_op_t π)) :
    (sub.run ops).Account (frames ++ pushed ops) (dropped ++ lost sub ops) := by
  induction ops generalizing sub frames dropped with
  | nil => simpa [subscriber_t.run, pushed, lost] using h
  | cons op ops ih =>
    have hnext := ih (h.apply op)
    rw [List.append_assoc, List.append_assoc, ← pushed_cons] at hnext
    rw [lost]
    exact hnext

theorem joined_account (id : Nat) (last : String → Option π) : (joined id last).Account [] [] := by
  refine ⟨by simp [joined], ⟨[], by simp [joined], ?_⟩, by simp [joined], by simp [joined]⟩
  exact sifted_kept []

end

/-- What a section does: nothing is lost, or the oldest frame of a full queue is dropped for a new one. -/
def Loses (sub sub' : subscriber_t π) (op : queue_op_t π) : Prop :=
  (sub'.drained ++ sub'.q = sub.drained ++ sub.q ++ pushed [op] ∧ sub'.dropped = sub.dropped ∧ sub.pops op = none) ∨
    ∃ oldest rest f, op = .push f ∧ sub.q = oldest :: rest ∧ sub.q.length = kMaxQueueFrames ∧ sub'.q = rest ++ [f] ∧
      sub'.drained = sub.drained ∧ sub'.dropped = sub.dropped + 1 ∧ sub.pops op = some oldest

theorem subscriber_t.Account.loses {sub : subscriber_t π} {frames dropped : List (frame_t π)} (h : sub.Account frames dropped)
    (op : queue_op_t π) : Loses sub (sub.apply op) op := by
  cases op with
  | wait =>
    left
    simp [subscriber_t.apply, subscriber_t.wait, subscriber_t.pops, pushed]
  | push f =>
    rw [subscriber_t.apply]
    obtain ⟨-, hpops, hpush⟩ | ⟨oldest, rest, hq, hfull, hpops, hpush⟩ := h.push_cases f
    · left
      simp [hpush, hpops, pushed]
    · right
      refine ⟨oldest, rest, f, by simp, hq, hfull, ?_⟩
      simp [hpush, hpops]

/-- The account of a subscriber after any pushes and waits: the frames received and then those queued are the
frames pushed without those dropped. -/
theorem backlog_accounted (id : Nat) (last : String → Option π) (ops : List (queue_op_t π)) :
    let sub := (joined id last).run ops
    Sifted (pushed ops) (sub.drained ++ sub.q) (lost (joined id last) ops) ∧
      sub.drained.length + sub.q.length + sub.dropped = (pushed ops).length ∧
      sub.dropped = (lost (joined id last) ops).length ∧ sub.dropped_value.toNat = sub.dropped % 2 ^ 64 ∧
      sub.q.length ≤ kMaxQueueFrames ∧
      ∀ before op after, ops = before ++ op :: after →
        Loses ((joined id last).run before) ((joined id last).run (before ++ [op])) op := by
  intro sub
  have haccount := (joined_account id last).run ops
  rw [List.nil_append, List.nil_append] at haccount
  obtain ⟨front, hframes, hsifted⟩ := haccount.settled
  have hwhole := hsifted.append (sifted_kept sub.q)
  rw [List.append_nil, ← hframes] at hwhole
  have hlength := hwhole.length
  rw [List.length_append] at hlength
  refine ⟨hwhole, ?_, haccount.counted, by simp [subscriber_t.dropped_value], haccount.bounded, ?_⟩
  · rw [haccount.counted]
    exact hlength
  · intro before op after hops
    have hbefore := (joined_account id last).run before
    have hstep := hbefore.loses op
    rwa [subscriber_t.run, subscriber_t.run, List.foldl_append, ← subscriber_t.run]

end slop.core.infra.event_bus
