import ReverseSlop.Library.Numeral
import ReverseSlop.Library.Sorted
import ReverseSlop.Library.Transition

namespace slop.core.network

open Numeral (ascii)

def kProtoTcp : UInt32 := 6

def kProtoUdp : UInt32 := 17

/-- A captured packet. A direction of 0 is outbound. -/
structure packet_record_t where
  id : UInt64 := 0
  at_ms : Int64 := 0
  pid : UInt32 := 0
  protocol : UInt32 := 0
  direction : UInt32 := 0
  local_addr : List UInt8
  local_port : UInt16 := 0
  remote_addr : List UInt8
  remote_port : UInt16 := 0
  payload : List UInt8 := []

/-- An address and a port. -/
structure endpoint_t where
  addr : List UInt8
  port : UInt16
  deriving DecidableEq

def packet_record_t.local_end (p : packet_record_t) : endpoint_t := ⟨p.local_addr, p.local_port⟩

def packet_record_t.remote_end (p : packet_record_t) : endpoint_t := ⟨p.remote_addr, p.remote_port⟩

/-- The endpoint that sent a packet. -/
def packet_record_t.sender (p : packet_record_t) : endpoint_t := if p.direction = 0 then p.local_end else p.remote_end

def packet_record_t.receiver (p : packet_record_t) : endpoint_t := if p.direction = 0 then p.remote_end else p.local_end

structure stream_key_t where
  protocol : UInt32
  a_addr : List UInt8
  a_port : UInt16
  b_addr : List UInt8
  b_port : UInt16

/-- Keys are ordered field by field. -/
instance : Ord stream_key_t where
  compare := compareLex (compareOn stream_key_t.protocol) <| compareLex (compareOn stream_key_t.a_addr) <|
    compareLex (compareOn stream_key_t.a_port) <| compareLex (compareOn stream_key_t.b_addr) <|
    compareOn stream_key_t.b_port

instance : Std.TransOrd stream_key_t :=
  inferInstanceAs (Std.TransCmp (compareLex (compareOn stream_key_t.protocol) <|
    compareLex (compareOn stream_key_t.a_addr) <| compareLex (compareOn stream_key_t.a_port) <|
    compareLex (compareOn stream_key_t.b_addr) <| compareOn stream_key_t.b_port))

instance : Std.LawfulEqOrd stream_key_t where
  eq_of_compare {k k'} hsame := by
    have hfields : compareOn stream_key_t.protocol k k' = .eq ∧ compareOn stream_key_t.a_addr k k' = .eq ∧
        compareOn stream_key_t.a_port k k' = .eq ∧ compareOn stream_key_t.b_addr k k' = .eq ∧
        compareOn stream_key_t.b_port k k' = .eq := by
      change compareLex _ _ k k' = .eq at hsame
      simpa only [compareLex_eq_eq] using hsame
    obtain ⟨hprotocol, ha, hap, hb, hbp⟩ := hfields
    cases k
    cases k'
    simp only [stream_key_t.mk.injEq]
    exact ⟨Std.LawfulEqOrd.eq_of_compare hprotocol, Std.LawfulEqOrd.eq_of_compare ha, Std.LawfulEqOrd.eq_of_compare hap,
      Std.LawfulEqOrd.eq_of_compare hb, Std.LawfulEqOrd.eq_of_compare hbp⟩

def stream_key_t.a_end (k : stream_key_t) : endpoint_t := ⟨k.a_addr, k.a_port⟩

def stream_key_t.b_end (k : stream_key_t) : endpoint_t := ⟨k.b_addr, k.b_port⟩

/-- A stream. `records` is not in the program: the packets of the stream since it was created. -/
structure stream_rec_t where
  key : stream_key_t
  c2s : List UInt8 := []
  s2c : List UInt8 := []
  c2s_packets : Nat := 0
  s2c_packets : Nat := 0
  first_ms : Int64
  last_ms : Int64 := 0
  id : UInt64
  client : Option (endpoint_t × endpoint_t) := none
  records : List packet_record_t := []

structure traffic_store_t where
  max_packets_ : Nat
  pkts_ : List packet_record_t := []
  next_id_ : UInt64 := 1
  streams_ : List (stream_key_t × stream_rec_t) := []
  next_stream_id_ : UInt64 := 1

/-- The key of a packet's stream: the lower endpoint comes first. -/
def packet_record_t.key (p : packet_record_t) : stream_key_t :=
  if p.local_addr < p.remote_addr ∨ (p.local_addr = p.remote_addr ∧ p.local_port ≤ p.remote_port) then
    ⟨p.protocol, p.local_addr, p.local_port, p.remote_addr, p.remote_port⟩
  else ⟨p.protocol, p.remote_addr, p.remote_port, p.local_addr, p.local_port⟩

def kMaxStreamPayloadBytes : Nat := 1024 * 1024

def kMaxStreams : Nat := 4096

/-- Append a payload to a buffer that is not full. -/
def append_payload (buffer payload : List UInt8) : List UInt8 :=
  if buffer.length < kMaxStreamPayloadBytes then
    buffer ++ payload.take (min payload.length (kMaxStreamPayloadBytes - buffer.length))
  else buffer

/-- A packet is added to a stream. -/
def stream_rec_t.push (s : stream_rec_t) (p : packet_record_t) : stream_rec_t :=
  let client := if s.client.isNone ∧ p.direction = 0 then some (p.local_end, p.remote_end) else s.client
  let s := { s with last_ms := p.at_ms, client, records := s.records ++ [p] }
  if p.direction = 0 then { s with c2s := append_payload s.c2s p.payload, c2s_packets := s.c2s_packets + 1 }
  else { s with s2c := append_payload s.s2c p.payload, s2c_packets := s.s2c_packets + 1 }

/-- The stream of a packet: the stored one, or a new one. -/
def traffic_store_t.stream_of (s : traffic_store_t) (p : packet_record_t) : stream_rec_t :=
  (SortedMap.find p.key s.streams_).getD { key := p.key, id := s.next_stream_id_, first_ms := p.at_ms }

def traffic_store_t.index_stream (s : traffic_store_t) (p : packet_record_t) : traffic_store_t :=
  { s with
    streams_ := SortedMap.set p.key ((s.stream_of p).push p) s.streams_
    next_stream_id_ := if (SortedMap.find p.key s.streams_).isNone then s.next_stream_id_ + 1 else s.next_stream_id_ }

/-- The first of the streams whose last packet is the oldest. -/
def oldest : List (stream_key_t × stream_rec_t) → Option (stream_key_t × stream_rec_t)
  | [] => none
  | e :: rest => some (rest.foldl (fun oldest it => if it.2.last_ms < oldest.2.last_ms then it else oldest) e)

def traffic_store_t.evict (s : traffic_store_t) : traffic_store_t :=
  if s.streams_.length > kMaxStreams then
    match oldest s.streams_ with
    | some e => { s with streams_ := SortedMap.erase e.1 s.streams_ }
    | none => s
  else s

def traffic_store_t.add (s : traffic_store_t) (pkt : packet_record_t) : traffic_store_t :=
  let pkt := { pkt with id := s.next_id_ }
  let s := { s with next_id_ := s.next_id_ + 1 }.index_stream pkt
  let pkts := s.pkts_ ++ [pkt]
  { s with pkts_ := pkts.drop (pkts.length - s.max_packets_) }.evict

def traffic_store_t.clear (s : traffic_store_t) : traffic_store_t :=
  { s with pkts_ := [], streams_ := [], next_id_ := 1, next_stream_id_ := 1 }

inductive traffic_op_t where
  | add (pkt : packet_record_t)
  | clear

def traffic_store_t.step (s : traffic_store_t) : traffic_op_t → Option traffic_store_t
  | .add pkt => some (s.add pkt)
  | .clear => some s.clear

/-- The payloads of some packets, up to the size of a buffer. -/
def joined (pkts : List packet_record_t) : List UInt8 :=
  (pkts.flatMap packet_record_t.payload).take kMaxStreamPayloadBytes

/-- Two endpoints are those of a stream. -/
def stream_key_t.Ends (k : stream_key_t) (c s : endpoint_t) : Prop :=
  (k.a_end = c ∧ k.b_end = s) ∨ (k.a_end = s ∧ k.b_end = c)

/-- Each buffer of a stream has what one of its endpoints sent. -/
def stream_rec_t.Directed (r : stream_rec_t) : Prop :=
  ∃ c s, r.key.Ends c s ∧ r.c2s = joined (r.records.filter fun p => p.sender = c) ∧
    r.s2c = joined (r.records.filter fun p => p.sender = s)

/-- One endpoint of a stream sent what goes outbound, and the other one what comes inbound. -/
def Agree (k : stream_key_t) (pkts : List packet_record_t) : Prop :=
  ∃ c s, k.Ends c s ∧ ∀ p ∈ pkts, p.payload ≠ [] → (p.sender = c ↔ p.direction = 0) ∧ (p.sender = s ↔ p.direction ≠ 0)

/-- With a packet that is added, its stream still has one sender for each direction. -/
def KeepsSides (s : traffic_store_t) : traffic_op_t → Prop
  | .add pkt => Agree pkt.key ((s.stream_of pkt).records ++ [pkt])
  | .clear => True

/-- The buffers have the payloads of the two directions. -/
structure stream_rec_t.Filled (r : stream_rec_t) : Prop where
  c2s : r.c2s = joined (r.records.filter fun p => p.direction = 0)
  s2c : r.s2c = joined (r.records.filter fun p => ¬ p.direction = 0)

structure Reassembled (s : traffic_store_t) : Prop where
  sorted : SortedMap.Sorted s.streams_
  filled : ∀ e ∈ s.streams_, e.2.Filled ∧ e.2.key = e.1 ∧ Agree e.1 e.2.records

section

variable {s s' : traffic_store_t} {pkts : List packet_record_t} {p : packet_record_t}

private theorem append_payload_eq (buffer payload : List UInt8) (hbuffer : buffer.length ≤ kMaxStreamPayloadBytes) :
    append_payload buffer payload = (buffer ++ payload).take kMaxStreamPayloadBytes := by
  unfold append_payload
  rw [List.take_append, List.take_of_length_le hbuffer]
  split
  · rw [Nat.min_comm, ← List.take_take, List.take_length]
  · have hfull : kMaxStreamPayloadBytes - buffer.length = 0 := by omega
    rw [hfull, List.take_zero, List.append_nil]

/-- A payload is appended to what has been joined. -/
theorem append_joined (pkts : List packet_record_t) (p : packet_record_t) :
    append_payload (joined pkts) p.payload = joined (pkts ++ [p]) := by
  have hroom : kMaxStreamPayloadBytes - min kMaxStreamPayloadBytes (pkts.flatMap packet_record_t.payload).length =
      kMaxStreamPayloadBytes - (pkts.flatMap packet_record_t.payload).length := by omega
  rw [append_payload_eq (joined pkts) _ (List.length_take_le _ _)]
  simp only [joined, List.flatMap_append, List.flatMap_singleton, List.take_append, List.length_take, List.take_take,
    Nat.min_self, hroom]

/-- Packets without a payload do not matter. -/
theorem joined_filter_congr {f g : packet_record_t → Bool} (hsame : ∀ p ∈ pkts, p.payload ≠ [] → f p = g p) :
    joined (pkts.filter f) = joined (pkts.filter g) := by
  have hflat : (pkts.filter f).flatMap packet_record_t.payload = (pkts.filter g).flatMap packet_record_t.payload := by
    induction pkts with
    | nil => rfl
    | cons p pkts ih =>
      obtain ⟨hp, hpkts⟩ := List.forall_mem_cons.mp hsame
      by_cases hempty : p.payload = []
      · have hskip : ∀ h : packet_record_t → Bool, ((p :: pkts).filter h).flatMap packet_record_t.payload =
            (pkts.filter h).flatMap packet_record_t.payload := by
          intro h
          cases hh : h p <;> simp [hh, hempty]
        rw [hskip, hskip, ih hpkts]
      · cases hf : f p <;> simp [hf, ← hp hempty, ih hpkts]
  rw [joined, joined, hflat]

private theorem stream_rec_t.Filled.push {r : stream_rec_t} (h : r.Filled) (p : packet_record_t) : (r.push p).Filled := by
  obtain ⟨hc2s, hs2c⟩ := h
  by_cases hdirection : p.direction = 0
  · refine ⟨?_, ?_⟩
    · simp [stream_rec_t.push, hdirection, hc2s, append_joined]
    · simp [stream_rec_t.push, hdirection, hs2c]
  · refine ⟨?_, ?_⟩
    · simp [stream_rec_t.push, hdirection, hc2s]
    · simp [stream_rec_t.push, hdirection, hs2c, append_joined]

private theorem push_records (r : stream_rec_t) (p : packet_record_t) :
    (r.push p).records = r.records ++ [p] ∧ (r.push p).key = r.key := by
  by_cases hdirection : p.direction = 0 <;> simp [stream_rec_t.push, hdirection]

/-- The stream of a packet has its key and is filled. -/
theorem Reassembled.stream_of (h : Reassembled s) (p : packet_record_t) :
    (s.stream_of p).Filled ∧ (s.stream_of p).key = p.key := by
  unfold traffic_store_t.stream_of
  cases hfind : SortedMap.find p.key s.streams_ with
  | none => exact ⟨⟨rfl, rfl⟩, rfl⟩
  | some r =>
    obtain ⟨hfilled, hkey, -⟩ := h.filled _ ((SortedMap.find_eq_some h.sorted).mp hfind)
    exact ⟨hfilled, hkey⟩

private theorem Reassembled.index_stream (h : Reassembled s) (hok : Agree p.key ((s.stream_of p).records ++ [p])) :
    Reassembled (s.index_stream p) := by
  refine ⟨h.sorted.set _ _, fun e he => ?_⟩
  rcases (SortedMap.mem_set h.sorted).mp he with rfl | ⟨he, -⟩
  · obtain ⟨hfilled, hkey⟩ := h.stream_of p
    obtain ⟨hrecords, hsame⟩ := push_records (s.stream_of p) p
    refine ⟨hfilled.push p, hsame.trans hkey, ?_⟩
    rw [hrecords]
    exact hok
  · exact h.filled e he

private theorem Reassembled.evict (h : Reassembled s) : Reassembled s.evict := by
  unfold traffic_store_t.evict
  split
  · split
    · exact ⟨h.sorted.erase _, fun e he => h.filled e (SortedMap.mem_erase.mp he).1⟩
    · exact h
  · exact h

private theorem Reassembled.step {op : traffic_op_t} (h : Reassembled s) (hok : KeepsSides s op) (hstep : s.step op = some s') :
    Reassembled s' := by
  cases op with
  | clear =>
    cases hstep
    exact ⟨SortedMap.Sorted.nil, List.forall_mem_nil _⟩
  | add pkt =>
    cases hstep
    -- the number that a packet gets does not matter
    have hnumbered : Agree pkt.key ((s.stream_of pkt).records ++ [{ pkt with id := s.next_id_ }]) := by
      obtain ⟨c, v, hends, hall⟩ := hok
      refine ⟨c, v, hends, List.forall_mem_append.mpr ⟨(List.forall_mem_append.mp hall).1, ?_⟩⟩
      exact List.forall_mem_singleton.mpr ((List.forall_mem_append.mp hall).2 pkt List.mem_cons_self)
    have hindex : Reassembled ({ s with next_id_ := s.next_id_ + 1 }.index_stream { pkt with id := s.next_id_ }) :=
      Reassembled.index_stream ⟨h.sorted, h.filled⟩ hnumbered
    exact Reassembled.evict ⟨hindex.sorted, hindex.filled⟩

private theorem Reassembled.directed (h : Reassembled s) : ∀ e ∈ s.streams_, e.2.Directed := by
  intro e he
  obtain ⟨⟨hc2s, hs2c⟩, hkey, c, v, hends, hall⟩ := h.filled e he
  refine ⟨c, v, hkey ▸ hends, ?_, ?_⟩
  · rw [hc2s]
    refine joined_filter_congr fun p hp hpayload => ?_
    simp [(hall p hp hpayload).1]
  · rw [hs2c]
    refine joined_filter_congr fun p hp hpayload => ?_
    simp [(hall p hp hpayload).2]

/-- As long as each stream has one sender for each direction, its buffers have what its endpoints sent. -/
theorem streams_directed {max_packets : Nat}
    (hreach : Relation.ReflTransGen (Transition.Step KeepsSides traffic_store_t.step) { max_packets_ := max_packets } s) :
    ∀ e ∈ s.streams_, e.2.Directed := by
  have hstart : Reassembled { max_packets_ := max_packets } := ⟨SortedMap.Sorted.nil, List.forall_mem_nil _⟩
  have hall : Reassembled s := Transition.invariant hstart (fun _ _ _ h hok hstep => h.step hok hstep) hreach
  exact hall.directed

end

/-- What a client sent to a server, as its process saw it. -/
def sent : packet_record_t where
  protocol := 6
  local_addr := ascii "127.0.0.1"
  local_port := 5000
  remote_addr := ascii "127.0.0.1"
  remote_port := 6000
  payload := ascii "a"

/-- The answer, as the client's process saw it. -/
def answer_in : packet_record_t := { sent with direction := 1, payload := ascii "b" }

/-- The answer, as the server's process saw it. -/
def answer_out : packet_record_t := { sent with local_port := 6000, remote_port := 5000, payload := ascii "b" }

/-- A request and its answer, seen from one side. -/
theorem answer_is_separate :
    ∃ s : traffic_store_t, s.streams_.map (fun e => (e.2.c2s, e.2.s2c)) = [(ascii "a", ascii "b")] ∧
      ∀ e ∈ s.streams_, e.2.Directed := by
  have hends : sent.key.Ends sent.local_end sent.remote_end := Or.inl ⟨by decide, by decide⟩
  have hfirst : KeepsSides { max_packets_ := 100 } (.add sent) := by
    refine ⟨_, _, hends, ?_⟩
    decide
  have hsecond : KeepsSides (traffic_store_t.add { max_packets_ := 100 } sent) (.add answer_in) := by
    refine ⟨_, _, hends, ?_⟩
    decide
  have hreach : Relation.ReflTransGen (Transition.Step KeepsSides traffic_store_t.step) { max_packets_ := 100 } _ :=
    .head ⟨.add sent, hfirst, rfl⟩ <| .head ⟨.add answer_in, hsecond, rfl⟩ .refl
  exact ⟨_, by decide, streams_directed hreach⟩

/-- Both processes of a local connection report what they send as outbound. -/
theorem loopback_is_mixed :
    ¬ ∀ (max_packets : Nat) (s : traffic_store_t),
      Relation.ReflTransGen (Transition.Step (fun _ _ => True) traffic_store_t.step) { max_packets_ := max_packets } s →
        ∀ e ∈ s.streams_, e.2.Directed := by
  have hreach : Relation.ReflTransGen (Transition.Step (fun (_ : traffic_store_t) _ => True) traffic_store_t.step)
      { max_packets_ := 100 } _ :=
    .head ⟨.add sent, trivial, rfl⟩ <| .head ⟨.add answer_out, trivial, rfl⟩ .refl
  intro hlaw
  obtain ⟨c, v, hends, hc2s, -⟩ := hlaw 100 _ hreach _ List.mem_cons_self
  rcases hends with ⟨rfl, -⟩ | ⟨-, rfl⟩
  · exact absurd hc2s (by decide)
  · exact absurd hc2s (by decide)

end slop.core.network
