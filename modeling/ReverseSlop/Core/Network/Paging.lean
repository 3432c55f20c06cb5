import ReverseSlop.Core.Network.Filter
import ReverseSlop.Library.Requests

namespace slop.core.network

abbrev page_t := Paging.Page packet_record_t

/-- The packets behind an id that pass, up to a limit; one more of them only says that there are more. -/
def page_loop (passes : packet_record_t → Bool) (from_id : UInt64) (limit : Nat) : page_t → List packet_record_t → page_t
  | out, [] => out
  | out, p :: pkts =>
    if p.id ≤ from_id then page_loop passes from_id limit out pkts
    else if passes p = false then page_loop passes from_id limit out pkts
    else if out.items.length ≥ limit then { out with truncated := true }
    else page_loop passes from_id limit { out with items := out.items ++ [p] } pkts

/-- A range of a buffer, which has to be in it. -/
def copied (buffer : List UInt8) (offset n : Nat) : Option (List UInt8) :=
  if offset + n ≤ buffer.length then some ((buffer.drop offset).take n) else none

namespace traffic_store_t

variable (s : traffic_store_t)

def packets (from_id : UInt64) (limit : Nat) : page_t := page_loop (fun _ => true) from_id limit {} s.pkts_

def packets_filtered (from_id : UInt64) (limit : Nat) (expr : List UInt8) : page_t :=
  page_loop (fun p => eval_filter p expr) from_id limit {} s.pkts_

/-- A part of what a stream has. It is `none` outside if a copy leaves its buffer, and inside if there is no such
stream. -/
def stream_bytes (id : UInt64) (offset len : Nat) : Option (Option (List UInt8)) :=
  match s.streams_.find? fun e => e.2.id = id with
  | none => some none
  | some e => do
    let total := e.2.c2s.length + e.2.s2c.length
    if offset ≥ total then return some []
    let take := min len (total - offset)
    if offset < e.2.c2s.length then
      let out ← copied e.2.c2s offset (min take (e.2.c2s.length - offset))
      return some (out ++ (← copied e.2.s2c 0 (take - out.length)))
    else return some (← copied e.2.s2c (offset - e.2.c2s.length) take)

/-- The numbers of the packets and of the streams are those that the counters gave them. -/
structure Numbered : Prop where
  below : ∀ p ∈ s.pkts_, p.id < s.next_id_
  increasing : s.pkts_.Pairwise fun p q => p.id < q.id
  sorted : SortedMap.Sorted s.streams_
  stream_below : ∀ e ∈ s.streams_, e.2.id < s.next_stream_id_
  one_stream : ∀ e ∈ s.streams_, ∀ e' ∈ s.streams_, e.2.id = e'.2.id → e = e'
  counters : s.next_stream_id_ ≤ s.next_id_

end traffic_store_t

/-- The counter of the packets does not wrap. -/
def Counts (s : traffic_store_t) : traffic_op_t → Prop
  | .add _ => s.next_id_.toNat + 1 < 2 ^ 64
  | .clear => True

instance (s : traffic_store_t) : (op : traffic_op_t) → Decidable (Counts s op)
  | .add _ => inferInstanceAs (Decidable (_ < _))
  | .clear => .isTrue trivial

/-- Page by page, the packets with a larger id that pass come once each and by their ids, and a page is truncated exactly
if there are more of them. -/
structure Paged (pkts : List packet_record_t) (passes : packet_record_t → Bool) (page : UInt64 → page_t) : Prop where
  all : ∀ from_id, Paging.read_all packet_record_t.id page (pkts.length + 1) from_id =
    some (pkts.filter fun p => from_id < p.id ∧ passes p)
  truncated : ∀ from_id, (page from_id).truncated = true ↔
    ∃ p ∈ pkts, from_id < p.id ∧ passes p ∧ ∀ q ∈ (page from_id).items, q.id < p.id

/-- Ranges behind each other. -/
def ranges : Nat → List Nat → List (Nat × Nat)
  | _, [] => []
  | offset, len :: lens => (offset, len) :: ranges (offset + len) lens

section

variable {s s' : traffic_store_t} {pkts : List packet_record_t} {passes : packet_record_t → Bool} {from_id : UInt64}
  {limit : Nat}

private theorem page_loop_eq {out : page_t} (hout : out.truncated = false) (hroom : out.items.length ≤ limit) :
    page_loop passes from_id limit out pkts =
      { items := out.items ++ (Paging.behind packet_record_t.id (pkts.filter passes) from_id).take (limit - out.items.length)
        truncated := limit - out.items.length < (Paging.behind packet_record_t.id (pkts.filter passes) from_id).length } := by
  induction pkts generalizing out with
  | nil => cases out; simp_all [page_loop, Paging.behind]
  | cons p pkts ih =>
    rw [page_loop]
    by_cases hbefore : p.id ≤ from_id
    · have hskip : ¬ from_id < p.id := UInt64.not_lt.mpr hbefore
      rw [if_pos hbefore, ih hout hroom]
      cases hp : passes p <;> simp [Paging.behind, hp, hskip]
    · have hbehind : from_id < p.id := UInt64.not_le.mp hbefore
      rw [if_neg hbefore]
      cases hp : passes p with
      | false =>
        rw [if_pos rfl, ih hout hroom]
        simp [Paging.behind, hp]
      | true =>
        rw [if_neg (by simp)]
        by_cases hfull : out.items.length ≥ limit
        · have hnone : limit - out.items.length = 0 := by omega
          rw [if_pos hfull, hnone]
          simp [Paging.behind, hp, hbehind]
        · have hfirst : Paging.behind packet_record_t.id ((p :: pkts).filter passes) from_id =
              p :: Paging.behind packet_record_t.id (pkts.filter passes) from_id := by
            simp [Paging.behind, hp, hbehind]
          have hleft : limit - out.items.length = limit - (out.items.length + 1) + 1 := by omega
          have hnext : ({ out with items := out.items ++ [p] } : page_t).items.length ≤ limit := by
            rw [List.length_append, List.length_singleton]
            omega
          rw [if_neg hfull, @ih { out with items := out.items ++ [p] } hout hnext, hfirst, hleft]
          simp

/-- A page is the first of the packets that pass behind an id. -/
theorem page_loop_start (passes : packet_record_t → Bool) (from_id : UInt64) (limit : Nat) (pkts : List packet_record_t) :
    page_loop passes from_id limit {} pkts = Paging.cut packet_record_t.id (pkts.filter passes) limit from_id := by
  rw [page_loop_eq rfl (Nat.zero_le limit)]
  simp [Paging.cut]

/-- Packets with increasing numbers are paged exactly. -/
theorem paged (hsorted : pkts.Pairwise fun p q => p.id < q.id) (passes : packet_record_t → Bool) (hlimit : 0 < limit) :
    Paged pkts passes fun from_id => page_loop passes from_id limit {} pkts := by
  have hpassed : (pkts.filter passes).Pairwise fun p q => p.id < q.id := hsorted.filter _
  simp only [page_loop_start]
  refine ⟨fun from_id => ?_, fun from_id => ?_⟩
  · have hfew : (Paging.behind packet_record_t.id (pkts.filter passes) from_id).length < pkts.length + 1 :=
      Nat.lt_succ_of_le ((List.length_filter_le _ _).trans (List.length_filter_le _ _))
    have hwanted : Paging.behind packet_record_t.id (pkts.filter passes) from_id =
        pkts.filter fun p => from_id < p.id ∧ passes p := by
      rw [Paging.behind, List.filter_filter]
      exact List.filter_congr fun p _ => by simp
    rw [Paging.read_all_cut hpassed hlimit hfew, hwanted]
  · have hall : ∀ p, p ∈ Paging.behind packet_record_t.id (pkts.filter passes) from_id ↔ p ∈ pkts ∧ from_id < p.id ∧ passes p := by
      intro p
      rw [Paging.mem_behind, List.mem_filter]
      tauto
    have hbehind : (Paging.behind packet_record_t.id (pkts.filter passes) from_id).Pairwise fun p q => p.id < q.id :=
      hpassed.filter _
    rw [Paging.cut, decide_eq_true_iff]
    constructor
    · intro hmore
      have hparts := List.take_append_drop limit (Paging.behind packet_record_t.id (pkts.filter passes) from_id)
      rw [← hparts, List.pairwise_append] at hbehind
      have hlast := List.getElem_mem (l := (Paging.behind packet_record_t.id (pkts.filter passes) from_id).drop limit) (n := 0)
        (by rw [List.length_drop]; omega)
      obtain ⟨hp, hid, hpasses⟩ := (hall _).mp (List.mem_of_mem_drop hlast)
      exact ⟨_, hp, hid, hpasses, fun q hq => hbehind.2.2 q hq _ hlast⟩
    · rintro ⟨p, hp, hid, hpasses, hlater⟩
      by_contra hfew
      -- all packets are in the page, so one would have a number below its own
      rw [List.take_of_length_le (by omega)] at hlater
      exact absurd (hlater p ((hall p).mpr ⟨hp, hid, hpasses⟩)) (UInt64.lt_irrefl p.id)

/-- A part of two buffers behind each other that begins in the first one. -/
theorem part_across (c2s s2c : List UInt8) {offset : Nat} (n : Nat) (hfirst : offset ≤ c2s.length) :
    ((c2s ++ s2c).drop offset).take n =
      (c2s.drop offset).take (min n (c2s.length - offset)) ++ s2c.take (n - min n (c2s.length - offset)) := by
  have hfront : (c2s.drop offset).take n = (c2s.drop offset).take (min n (c2s.length - offset)) := by
    rw [List.take_eq_take_min, List.length_drop]
  have hback : n - (c2s.length - offset) = n - min n (c2s.length - offset) := by omega
  rw [List.drop_append_of_le_length hfirst, List.take_append, List.length_drop, hfront, hback]

private theorem copied_eq {buffer : List UInt8} {offset n : Nat} (hin : offset + n ≤ buffer.length) :
    copied buffer offset n = some ((buffer.drop offset).take n) := if_pos hin

/-- A part of a stream is that part of what the client sent and then of what the server sent. -/
theorem stream_bytes_of_mem (h : s.Numbered) {e : stream_key_t × stream_rec_t} (he : e ∈ s.streams_) (offset len : Nat) :
    s.stream_bytes e.2.id offset len = some (some (((e.2.c2s ++ e.2.s2c).drop offset).take len)) := by
  have hfind : s.streams_.find? (fun e' => e'.2.id = e.2.id) = some e := by
    obtain ⟨e', he'⟩ := Option.isSome_iff_exists.mp
      (List.find?_isSome.mpr (show ∃ e' ∈ s.streams_, decide (e'.2.id = e.2.id) = true from ⟨e, he, by simp⟩))
    have hid : e'.2.id = e.2.id := by simpa using List.find?_some he'
    rw [he', h.one_stream e' (List.mem_of_find?_eq_some he') e he hid]
  rw [traffic_store_t.stream_bytes, hfind]
  dsimp only
  have hlength : (e.2.c2s ++ e.2.s2c).length = e.2.c2s.length + e.2.s2c.length := List.length_append
  by_cases hend : offset ≥ e.2.c2s.length + e.2.s2c.length
  · rw [if_pos hend, List.drop_of_length_le (by omega), List.take_nil]
    rfl
  · rw [if_neg hend]
    have hcut : ((e.2.c2s ++ e.2.s2c).drop offset).take len =
        ((e.2.c2s ++ e.2.s2c).drop offset).take (min len (e.2.c2s.length + e.2.s2c.length - offset)) := by
      rw [List.take_eq_take_min, List.length_drop, hlength]
    rw [hcut]
    generalize hn : min len (e.2.c2s.length + e.2.s2c.length - offset) = n
    by_cases hfirst : offset < e.2.c2s.length
    · rw [if_pos hfirst, copied_eq (by omega)]
      have hout : ((e.2.c2s.drop offset).take (min n (e.2.c2s.length - offset))).length =
          min n (e.2.c2s.length - offset) := by
        rw [List.length_take, List.length_drop]
        omega
      rw [Option.bind_eq_bind, Option.bind_some, hout, copied_eq (by omega), part_across _ _ _ (Nat.le_of_lt hfirst)]
      rfl
    · have hskip : e.2.c2s.drop offset = [] := List.drop_of_length_le (by omega)
      rw [if_neg hfirst, copied_eq (by omega), List.drop_append, hskip, List.nil_append]
      rfl

/-- Parts behind each other make up the stream. -/
theorem ranges_flatten (b : List UInt8) (offset : Nat) (lens : List Nat) :
    ((ranges offset lens).map fun r => (b.drop r.1).take r.2).flatten = (b.drop offset).take lens.sum := by
  induction lens generalizing offset with
  | nil => rfl
  | cons len lens ih =>
    rw [ranges, List.map_cons, List.flatten_cons, ih, List.sum_cons, List.take_add, List.drop_drop]

private theorem push_id (r : stream_rec_t) (p : packet_record_t) : (r.push p).id = r.id := by
  by_cases hdirection : p.direction = 0 <;> simp [stream_rec_t.push, hdirection]

/-- A packet goes to the stream with its key, which keeps its number, or to a new one with a new number. -/
theorem stream_number (h : s.Numbered) (p : packet_record_t) :
    (∃ r, (p.key, r) ∈ s.streams_ ∧ (s.stream_of p).id = r.id ∧ (s.index_stream p).next_stream_id_ = s.next_stream_id_) ∨
      ((s.stream_of p).id = s.next_stream_id_ ∧ (s.index_stream p).next_stream_id_ = s.next_stream_id_ + 1) := by
  rw [traffic_store_t.stream_of, traffic_store_t.index_stream]
  cases hfind : SortedMap.find p.key s.streams_ with
  | none => exact .inr ⟨rfl, rfl⟩
  | some r => exact .inl ⟨r, (SortedMap.find_eq_some h.sorted).mp hfind, rfl, rfl⟩

private theorem traffic_store_t.Numbered.index_stream (h : s.Numbered) (p : packet_record_t)
    (hroom : s.next_stream_id_.toNat + 1 < 2 ^ 64) :
    (∀ e ∈ (s.index_stream p).streams_, e.2.id < (s.index_stream p).next_stream_id_) ∧
      (∀ e ∈ (s.index_stream p).streams_, ∀ e' ∈ (s.index_stream p).streams_, e.2.id = e'.2.id → e = e') ∧
      (s.index_stream p).next_stream_id_.toNat ≤ s.next_stream_id_.toNat + 1 := by
  have hmem : ∀ e, e ∈ (s.index_stream p).streams_ ↔ e = (p.key, (s.stream_of p).push p) ∨ e ∈ s.streams_ ∧ e.1 ≠ p.key :=
    fun e => SortedMap.mem_set h.sorted
  have hstream : (s.next_stream_id_ + 1).toNat = s.next_stream_id_.toNat + 1 := by
    rw [UInt64.toNat_add, UInt64.toNat_one, Nat.mod_eq_of_lt hroom]
  -- the stream that gets the packet shares its number with no other
  have hapart : ∀ e ∈ s.streams_, e.1 ≠ p.key → e.2.id ≠ (s.stream_of p).id := by
    intro e he hne hid
    rcases stream_number h p with ⟨r, hr, hsame, -⟩ | ⟨hnew, -⟩
    · exact hne (congrArg Prod.fst (h.one_stream e he _ hr (hid.trans hsame)))
    · have hlt := h.stream_below e he
      rw [hid, hnew] at hlt
      exact UInt64.lt_irrefl _ hlt
  refine ⟨?_, ?_, ?_⟩
  · intro e he
    rw [UInt64.lt_iff_toNat_lt]
    rcases (hmem e).mp he with rfl | ⟨he, -⟩
    · rw [push_id]
      rcases stream_number h p with ⟨r, hr, hsame, hkept⟩ | ⟨hnew, hcount⟩
      · rw [hsame, hkept]
        exact UInt64.lt_iff_toNat_lt.mp (h.stream_below _ hr)
      · rw [hnew, hcount, hstream]
        exact Nat.lt_succ_self _
    · have hlt := UInt64.lt_iff_toNat_lt.mp (h.stream_below e he)
      rcases stream_number h p with ⟨r, hr, hsame, hkept⟩ | ⟨hnew, hcount⟩
      · rw [hkept]
        exact hlt
      · rw [hcount, hstream]
        exact Nat.lt_succ_of_lt hlt
  · intro e he e' he' hid
    rcases (hmem e).mp he with rfl | ⟨he, hne⟩
    · rcases (hmem e').mp he' with rfl | ⟨he', hne'⟩
      · rfl
      · rw [push_id] at hid
        exact absurd hid.symm (hapart e' he' hne')
    · rcases (hmem e').mp he' with rfl | ⟨he', -⟩
      · rw [push_id] at hid
        exact absurd hid (hapart e he hne)
      · exact h.one_stream e he e' he' hid
  · rcases stream_number h p with ⟨r, hr, hsame, hkept⟩ | ⟨hnew, hcount⟩
    · rw [hkept]
      exact Nat.le_succ _
    · rw [hcount, hstream]

private theorem traffic_store_t.Numbered.evict (h : s.Numbered) : s.evict.Numbered := by
  unfold traffic_store_t.evict
  split
  · split
    · rename_i e _
      have hkept : ∀ e' ∈ SortedMap.erase e.1 s.streams_, e' ∈ s.streams_ := fun e' he' => (SortedMap.mem_erase.mp he').1
      exact ⟨h.below, h.increasing, h.sorted.erase _, fun e' he' => h.stream_below e' (hkept e' he'),
        fun a ha b hb => h.one_stream a (hkept a ha) b (hkept b hb), h.counters⟩
    · exact h
  · exact h

private theorem traffic_store_t.Numbered.step {op : traffic_op_t} (h : s.Numbered) (hok : Counts s op) (hstep : s.step op = some s') :
    s'.Numbered := by
  cases op with
  | clear =>
    cases hstep
    exact ⟨List.forall_mem_nil _, List.Pairwise.nil, SortedMap.Sorted.nil, List.forall_mem_nil _, List.forall_mem_nil _,
      UInt64.le_refl 1⟩
  | add pkt =>
    cases hstep
    have hnext : (s.next_id_ + 1).toNat = s.next_id_.toNat + 1 := by
      rw [UInt64.toNat_add, UInt64.toNat_one, Nat.mod_eq_of_lt hok]
    have hlt : s.next_id_ < s.next_id_ + 1 := by
      rw [UInt64.lt_iff_toNat_lt, hnext]
      exact Nat.lt_succ_self _
    have hcounters := UInt64.le_iff_toNat_le.mp h.counters
    obtain ⟨hbelow, hone, hcount⟩ := h.index_stream { pkt with id := s.next_id_ } (Nat.lt_of_le_of_lt (Nat.succ_le_succ hcounters) hok)
    have hpkts : ∀ p ∈ s.pkts_ ++ [{ pkt with id := s.next_id_ }], p.id < s.next_id_ + 1 := by
      intro p hp
      rcases List.mem_append.mp hp with hp | hp
      · exact UInt64.lt_trans (h.below p hp) hlt
      · rw [List.mem_singleton.mp hp]
        exact hlt
    have hincreasing : (s.pkts_ ++ [{ pkt with id := s.next_id_ }]).Pairwise fun (p q : packet_record_t) => p.id < q.id := by
      refine List.pairwise_append.mpr ⟨h.increasing, List.pairwise_singleton _ _, fun p hp q hq => ?_⟩
      rw [List.mem_singleton.mp hq]
      exact h.below p hp
    refine traffic_store_t.Numbered.evict ⟨fun p hp => hpkts p (List.mem_of_mem_drop hp), hincreasing.drop, h.sorted.set _ _,
      hbelow, hone, ?_⟩
    rw [UInt64.le_iff_toNat_le]
    show (s.index_stream _).next_stream_id_.toNat ≤ (s.next_id_ + 1).toNat
    omega

/-- As long as the counter of the packets does not wrap, paging neither loses nor repeats a packet, and the parts of a
stream that are read are those of the whole of it. -/
theorem paging_exact {max_packets : Nat}
    (hreach : Relation.ReflTransGen (Transition.Step Counts traffic_store_t.step) { max_packets_ := max_packets } s) :
    s.pkts_.Pairwise (fun p q => p.id < q.id) ∧
      (∀ limit > 0, Paged s.pkts_ (fun _ => true) fun from_id => s.packets from_id limit) ∧
      (∀ limit > 0, ∀ expr, Paged s.pkts_ (fun p => eval_filter p expr) fun from_id => s.packets_filtered from_id limit expr) ∧
      (∀ id, (∀ e ∈ s.streams_, e.2.id ≠ id) → ∀ offset len, s.stream_bytes id offset len = some none) ∧
      ∀ e ∈ s.streams_,
        (∀ offset len, s.stream_bytes e.2.id offset len = some (some (((e.2.c2s ++ e.2.s2c).drop offset).take len))) ∧
        ∀ lens : List Nat, ∃ parts : List (List UInt8),
          ((ranges 0 lens).map fun r => s.stream_bytes e.2.id r.1 r.2) = parts.map (fun b => some (some b)) ∧
            parts.flatten = (e.2.c2s ++ e.2.s2c).take lens.sum := by
  have hstart : traffic_store_t.Numbered { max_packets_ := max_packets } :=
    ⟨List.forall_mem_nil _, List.Pairwise.nil, SortedMap.Sorted.nil, List.forall_mem_nil _, List.forall_mem_nil _, UInt64.le_refl 1⟩
  have h : s.Numbered := Transition.invariant hstart (fun _ _ _ h hok hstep => h.step hok hstep) hreach
  refine ⟨h.increasing, fun limit hlimit => paged h.increasing _ hlimit, fun limit hlimit expr => paged h.increasing _ hlimit,
    ?_, ?_⟩
  · intro id hnone offset len
    have hfind : s.streams_.find? (fun e => e.2.id = id) = none := by
      rw [List.find?_eq_none]
      intro e he
      simpa using hnone e he
    rw [traffic_store_t.stream_bytes, hfind]
  · intro e he
    have hbytes := stream_bytes_of_mem h he
    refine ⟨hbytes, fun lens => ⟨(ranges 0 lens).map fun r => ((e.2.c2s ++ e.2.s2c).drop r.1).take r.2, ?_, ?_⟩⟩
    · rw [List.map_map]
      exact List.map_congr_left fun r _ => hbytes r.1 r.2
    · rw [ranges_flatten, List.drop_zero]

end

/-- After a request and its answer, the first page of one packet is not the last. -/
theorem answer_is_paged :
    ∃ s : traffic_store_t, (s.packets 0 1).truncated = true ∧
      Paging.read_all packet_record_t.id (fun from_id => s.packets from_id 1) (s.pkts_.length + 1) 0 =
        some (s.pkts_.filter fun p => 0 < p.id ∧ true) := by
  have hreach : Relation.ReflTransGen (Transition.Step Counts traffic_store_t.step) { max_packets_ := 100 } _ :=
    .head ⟨.add sent, by decide, rfl⟩ <| .head ⟨.add answer_in, by decide, rfl⟩ .refl
  exact ⟨_, by decide, ((paging_exact hreach).2.1 1 Nat.one_pos).all 0⟩

end slop.core.network
