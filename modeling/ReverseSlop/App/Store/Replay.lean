import ReverseSlop.Core.Mcp.Events

namespace slop.app.output_store

open core.infra.event_bus core.mcp

def kMaxLines : Nat := 4096

/-- The store of the output pane. -/
structure store_t where
  lines : List output_line_t := []
  revision : Nat := 0
  deriving DecidableEq

/-- What the engine answers to `app.output`. -/
structure response_t where
  revision : Nat
  lines : List output_line_t
  deriving DecidableEq

/-- The last `n` elements, as `slice(-n)` has them. -/
def slice (n : Nat) (lines : List output_line_t) : List output_line_t := lines.drop (lines.length - n)

/-- A live frame. Out-of-order or duplicate frames are dropped by sequence. -/
def on_output (s : store_t) (line : output_line_t) : store_t :=
  if line.seq ≤ s.revision then s
  else { lines := slice (kMaxLines - 1) s.lines ++ [line], revision := line.seq }

/-- The hello of a stream: the store, and the revision to replay from. -/
def on_hello (s : store_t) (output_revision : Nat) : store_t × Nat :=
  let s := if output_revision < s.revision then {} else s
  (s, if s.revision > 0 then s.revision else output_revision - kMaxLines)

/-- The response to a replay. -/
def on_replay (s : store_t) (res : response_t) : store_t :=
  if res.lines.length = 0 then s
  else
    let merged := s.lines ++ res.lines.filter fun l => l.seq > s.revision
    { lines := if merged.length > kMaxLines then slice kMaxLines merged else merged, revision := res.revision }

/-- The engine's ring, the event stream, the replays in flight and the store. A replay is a
request, then lines without the revision, then a response. -/
structure protocol_t where
  ring : ring_t := {}
  events : events_t output_line_t := {}
  requests : List Nat := []
  serving : List (List output_line_t) := []
  responses : List response_t := []
  store : store_t := {}

inductive op_t where
  | output (ms : Int) (text : String)
  | server (op : server_op_t output_line_t)
  | connect
  | accept
  | onopen
  | greet
  | deliver
  | output_since (since : Nat)
  | output_revision (lines : List output_line_t)
  | replay (res : response_t)

/-- Hand the next message of the stream to the store. -/
def protocol_t.handle (s : protocol_t) : message_t output_line_t → protocol_t
  | .hello revision =>
    { s with store := (on_hello s.store revision).1, requests := s.requests ++ [(on_hello s.store revision).2] }
  | .event f => if f.type = "output" then { s with store := on_output s.store f.payload } else s

/-- One lock section of the engine, one write to a stream, or one handler of the page. -/
def protocol_t.step (s : protocol_t) : op_t → Option protocol_t
  | .output ms text =>
    some
      { s with
        ring := (output s.ring ms text).2
        events := { s.events with bus := publish s.events.bus ⟨"output", (output s.ring ms text).1⟩ } }
  | .server op => (s.events.step op).map fun events => { s with events }
  | .connect => some { s with events := s.events.connect }
  | .accept => s.events.accept.map fun events => { s with events }
  | .onopen => s.events.onopen.map fun events => { s with events }
  | .greet => (s.events.greet (output_revision s.ring)).map fun events => { s with events }
  | .deliver => s.events.deliver.map fun p => protocol_t.handle { s with events := p.2 } p.1
  | .output_since since =>
    if since ∈ s.requests then
      some { s with requests := s.requests.erase since, serving := s.serving ++ [output_since s.ring since] }
    else none
  | .output_revision lines =>
    if lines ∈ s.serving then
      some
        { s with
          serving := s.serving.erase lines
          responses := s.responses ++ [{ revision := output_revision s.ring, lines }] }
    else none
  | .replay res =>
    if res ∈ s.responses then some { s with responses := s.responses.erase res, store := on_replay s.store res }
    else none

end slop.app.output_store

namespace slop.app.output_store

open core.infra.event_bus core.mcp

def output_frame (line : output_line_t) : frame_t output_line_t := ⟨"output", line⟩

/-- A live line is handled only if the store has all lines before it. -/
def store_t.Next (s : store_t) : message_t output_line_t → Prop
  | .hello _ => True
  | .event f => f.payload.seq ≤ s.revision + 1

/-- A response is handled only if it starts no later than behind what the store has, and if
its revision is that of the last line that the store has then. -/
def store_t.Continues (s : store_t) (res : response_t) : Prop :=
  (∀ line ∈ res.lines.head?, line.seq ≤ s.revision + 1) ∧
    ∀ line ∈ res.lines.getLast?, res.revision = max s.revision line.seq

/-- The ring has room for every line, and the store handles lines and responses in order. -/
def InSequence (s : protocol_t) : op_t → Prop
  | .output _ _ => s.ring.g_out.length < kMaxOutput
  | .deliver => ∀ p ∈ s.events.deliver, s.store.Next p.1
  | .replay res => s.store.Continues res
  | _ => True

instance (s : store_t) : ∀ m, Decidable (s.Next m)
  | .hello _ => instDecidableTrue
  | .event f => inferInstanceAs (Decidable (f.payload.seq ≤ s.revision + 1))

instance (s : store_t) (res : response_t) : Decidable (s.Continues res) :=
  inferInstanceAs (Decidable ((∀ line ∈ res.lines.head?, _) ∧ ∀ line ∈ res.lines.getLast?, _))

instance (s : protocol_t) : ∀ op, Decidable (InSequence s op)
  | .output _ _ => inferInstanceAs (Decidable (s.ring.g_out.length < kMaxOutput))
  | .deliver => inferInstanceAs (Decidable (∀ p ∈ s.events.deliver, _))
  | .replay res => inferInstanceAs (Decidable (s.store.Continues res))
  | .server _ | .connect | .accept | .onopen | .greet | .output_since _ | .output_revision _ => instDecidableTrue

/-- Some lines in a row that the ring had. -/
def Part (ring : ring_t) (lines : List output_line_t) : Prop :=
  ∃ since m, m ≤ ring.g_out.length ∧ lines = (ring.g_out.take m).drop since

/-- The store has the lines of the ring up to its revision, and everything in flight comes
from the ring. -/
structure Sound (s : protocol_t) : Prop where
  fresh : s.events.Fresh
  ring : s.ring.Whole
  frames : s.events.All fun f => f.type = "output" ∧ f.payload ∈ s.ring.g_out
  hello : ∀ st ∈ s.events.stream, ∀ revision, st.hello = .sent revision → revision ≤ s.ring.g_out_seq
  serving : ∀ lines ∈ s.serving, Part s.ring lines
  responses : ∀ res ∈ s.responses, Part s.ring res.lines
  revision : s.store.revision ≤ s.ring.g_out_seq
  lines : s.store.lines = s.ring.g_out.take s.store.revision

/-- A replay in flight brings the line of a number. -/
def protocol_t.Replays (s : protocol_t) (seq : Nat) : Prop :=
  (∃ since ∈ s.requests, since < seq) ∨ (∃ lines ∈ s.serving, ∃ line ∈ lines, line.seq = seq) ∨
    ∃ res ∈ s.responses, ∃ line ∈ res.lines, line.seq = seq

/-- A line comes with a replay, or on the stream. -/
def protocol_t.Comes (s : protocol_t) (st : stream_t output_line_t) (sub : subscriber_t output_line_t)
    (line : output_line_t) : Prop :=
  s.Replays line.seq ∨ output_frame line ∈ st.inbox sub ∨ s.events.bus.Reaches (output_frame line) st.sub

/-- Once the hello of the stream is handled, every line that the store has not is on its way. -/
def Covered (s : protocol_t) : Prop :=
  ∀ st sub, s.events.Serves st sub → st.hello = .seen → ∀ line ∈ s.ring.g_out, s.store.revision < line.seq →
    s.Comes st sub line

/-! The handlers of the store. -/

theorem slice_eq {n : Nat} {lines : List output_line_t} (h : lines.length ≤ n) : slice n lines = lines := by
  rw [slice, Nat.sub_eq_zero_of_le h, List.drop_zero]

/-- The next live line continues the lines of the ring. -/
theorem on_output_lines {s : store_t} {ring : ring_t} (hring : ring.Whole)
    (hlines : s.lines = ring.g_out.take s.revision) {line : output_line_t} (hline : line ∈ ring.g_out)
    (hnext : line.seq ≤ s.revision + 1) :
    (on_output s line).lines = ring.g_out.take (on_output s line).revision ∧
      (on_output s line).revision = max s.revision line.seq := by
  rw [on_output]
  split
  · rename_i hold
    exact ⟨hlines, (Nat.max_eq_left hold).symm⟩
  · rename_i hnew
    have hseq : line.seq = s.revision + 1 := Nat.le_antisymm hnext (Nat.lt_of_not_le hnew)
    have hlen : s.lines.length ≤ kMaxLines - 1 := by
      have hbound := (hring.numbered.bounds hline).2
      have hcap : ring.g_out.length ≤ kMaxLines := hring.bounded
      rw [hlines, List.length_take]
      omega
    refine ⟨?_, (Nat.max_eq_right (Nat.le_of_not_le hnew)).symm⟩
    rw [slice_eq hlen, hlines, hseq]
    exact hring.numbered.take_succ hline hseq

/-- A response that continues the lines of the store continues the lines of the ring. -/
theorem on_replay_lines {s : store_t} {ring : ring_t} (hring : ring.Whole)
    (hlines : s.lines = ring.g_out.take s.revision) {res : response_t} (hpart : Part ring res.lines)
    (hok : s.Continues res) :
    (on_replay s res).lines = ring.g_out.take (on_replay s res).revision ∧
      ∃ m ≤ ring.g_out.length, (on_replay s res).revision = max s.revision m ∧ ∀ line ∈ res.lines, line.seq ≤ m := by
  obtain ⟨since, m, hm, hpart⟩ := hpart
  obtain ⟨hhead, hlast⟩ := hok
  have htake := hring.numbered.take m
  rw [hpart] at hhead hlast
  rw [on_replay, hpart]
  split
  · rename_i hempty
    refine ⟨hlines, 0, Nat.zero_le _, (Nat.max_zero _).symm, ?_⟩
    rw [List.length_eq_zero_iff.mp hempty]
    exact List.forall_mem_nil _
  · rename_i hsome
    have hne : (ring.g_out.take m).drop since ≠ [] := fun h => hsome (List.length_eq_zero_iff.mpr h)
    have hfirst := List.head?_eq_some_head hne
    have hsince : since ≤ s.revision := by
      have hseq := htake.head_drop hfirst
      have hle := hhead _ hfirst
      omega
    have hrev : res.revision = max s.revision m := by
      have hend := List.getLast?_eq_some_getLast hne
      rw [hlast _ hend, htake.getLast_drop hend, List.length_take, Nat.min_eq_left hm]
    have hmerged : s.lines ++ ((ring.g_out.take m).drop since).filter (fun l => l.seq > s.revision) =
        ring.g_out.take (max s.revision m) := by
      rw [hlines]
      exact hring.numbered.take_append hsince
    have hcap : ¬ (ring.g_out.take (max s.revision m)).length > kMaxLines := by
      have hbound : ring.g_out.length ≤ kMaxLines := hring.bounded
      rw [List.length_take]
      omega
    simp only [hmerged, if_neg hcap]
    refine ⟨by rw [hrev], m, hm, hrev, fun line hline => ?_⟩
    exact hring.numbered.mem_take (List.mem_of_mem_drop hline)

/-! What is in flight comes from the ring. -/

theorem Sound.init : Sound {} where
  fresh := fresh_init
  ring := whole_init
  frames := ⟨bus_all_init _, fun _ hst => by cases hst⟩
  hello _ hst := by cases hst
  serving := List.forall_mem_nil _
  responses := List.forall_mem_nil _
  revision := Nat.le_refl _
  lines := rfl

theorem output_part {ring : ring_t} (hroom : ring.g_out.length < kMaxOutput) {ms : Int} {text : String}
    {lines : List output_line_t} (h : Part ring lines) : Part (output ring ms text).2 lines := by
  obtain ⟨since, m, hm, rfl⟩ := h
  rw [Part, output_room hroom]
  refine ⟨since, m, ?_, ?_⟩
  · rw [List.length_append]
    exact Nat.le_add_right_of_le hm
  · rw [List.take_append_of_le_length hm]

variable {s : protocol_t}

theorem output_sound (h : Sound s) (hroom : s.ring.g_out.length < kMaxOutput) (ms : Int)
    (text : String) :
    Sound
      { s with
        ring := (output s.ring ms text).2
        events := { s.events with bus := publish s.events.bus (output_frame (output s.ring ms text).1) } } := by
  have hgrown := output_room hroom ms text
  have hseq : s.ring.g_out_seq ≤ (output s.ring ms text).2.g_out_seq := Nat.le_succ _
  have hkept : ∀ f : frame_t output_line_t, f.type = "output" ∧ f.payload ∈ s.ring.g_out →
      f.type = "output" ∧ f.payload ∈ (output s.ring ms text).2.g_out := by
    rintro f ⟨htype, hline⟩
    rw [hgrown]
    exact ⟨htype, List.mem_append_left _ hline⟩
  refine ⟨⟨⟨h.fresh.bus.distinct, h.fresh.bus.bounded⟩, h.fresh.stream⟩, h.ring.output hroom ms text, ?_, ?_,
    fun lines hlines => output_part hroom (h.serving lines hlines), fun res hres => output_part hroom (h.responses res hres),
    Nat.le_trans h.revision hseq, ?_⟩
  · refine ⟨(h.frames.bus.mono hkept).publish ⟨rfl, ?_⟩, fun st hst f hf => hkept f (h.frames.wire st hst f hf)⟩
    rw [hgrown]
    exact List.mem_append_right _ List.mem_cons_self
  · exact fun st hst revision hhello => Nat.le_trans (h.hello st hst revision hhello) hseq
  · have hle : s.store.revision ≤ s.ring.g_out.length := h.ring.revision ▸ h.revision
    rw [hgrown, List.take_append_of_le_length hle]
    exact h.lines

/-- A step of the stream alone. -/
theorem Sound.stream (h : Sound s) {events : events_t output_line_t} (hfresh : events.Fresh)
    (hframes : events.All fun f => f.type = "output" ∧ f.payload ∈ s.ring.g_out)
    (hhello : ∀ st ∈ events.stream, ∀ revision, st.hello = .sent revision → revision ≤ s.ring.g_out_seq) :
    Sound { s with events } :=
  ⟨hfresh, h.ring, hframes, hhello, h.serving, h.responses, h.revision, h.lines⟩

/-- The stream goes on without a change to its subscriber. -/
theorem Sound.restream (h : Sound s) {st st' : stream_t output_line_t}
    (hst : s.events.stream = some st) (hsub : st'.sub = st.sub) (hwire : ∀ f ∈ st'.wire, f ∈ st.wire)
    (hhello : ∀ revision, st'.hello = .sent revision → revision ≤ s.ring.g_out_seq) :
    Sound { s with events := { s.events with stream := some st' } } := by
  refine h.stream (stream_fresh h.fresh hst hsub) ⟨h.frames.bus, fun st'' hst'' f hf => ?_⟩ fun st'' hst'' => ?_
  · cases hst''
    exact h.frames.wire st hst f (hwire f hf)
  · cases hst''
    exact hhello

theorem Sound.handle (h : Sound s) {m : message_t output_line_t} (hok : s.store.Next m)
    (hevent : ∀ f, m = .event f → f.type = "output" ∧ f.payload ∈ s.ring.g_out) : Sound (s.handle m) := by
  cases m with
  | hello revision =>
    have hstore : (on_hello s.store revision).1 = {} ∨ (on_hello s.store revision).1 = s.store := by
      rw [on_hello]
      split
      · exact Or.inl rfl
      · exact Or.inr rfl
    refine ⟨h.fresh, h.ring, h.frames, h.hello, h.serving, h.responses, ?_, ?_⟩
    · obtain hreset | hsame := hstore
      · rw [protocol_t.handle, hreset]
        exact Nat.zero_le _
      · rw [protocol_t.handle, hsame]
        exact h.revision
    · obtain hreset | hsame := hstore
      · rw [protocol_t.handle, hreset]
        rfl
      · rw [protocol_t.handle, hsame]
        exact h.lines
  | event f =>
    obtain ⟨htype, hline⟩ := hevent f rfl
    obtain ⟨hlines, hrev⟩ := on_output_lines h.ring h.lines hline hok
    rw [protocol_t.handle, if_pos htype]
    refine ⟨h.fresh, h.ring, h.frames, h.hello, h.serving, h.responses, ?_, hlines⟩
    rw [hrev, h.ring.revision]
    exact Nat.max_le.mpr ⟨h.ring.revision ▸ h.revision, (h.ring.numbered.bounds hline).2⟩

theorem Sound.replay (h : Sound s) {res : response_t} (hres : res ∈ s.responses)
    (hok : s.store.Continues res) :
    Sound { s with responses := s.responses.erase res, store := on_replay s.store res } := by
  obtain ⟨hlines, m, hm, hrev, -⟩ := on_replay_lines h.ring h.lines (h.responses res hres) hok
  refine ⟨h.fresh, h.ring, h.frames, h.hello, h.serving,
    fun res' hres' => h.responses res' (List.mem_of_mem_erase hres'), ?_, hlines⟩
  rw [hrev, h.ring.revision]
  exact Nat.max_le.mpr ⟨h.ring.revision ▸ h.revision, hm⟩

theorem Sound.server (h : Sound s) {op : server_op_t output_line_t} {events : events_t output_line_t}
    (hstep : s.events.step op = some events) : Sound { s with events } := by
  refine h.stream (step_fresh h.fresh hstep) (step_all h.frames hstep) ?_
  intro st' hst' revision hhello
  obtain ⟨st, hst, hsame⟩ := step_hello hstep hst'
  exact h.hello st hst revision (hsame ▸ hhello)

theorem Sound.step {s s' : protocol_t} {op : op_t} (h : Sound s) (hok : InSequence s op)
    (hstep : s.step op = some s') : Sound s' := by
  cases op with
  | output ms text =>
    cases hstep
    exact output_sound h hok ms text
  | server op =>
    obtain ⟨events, hevents, rfl⟩ := Option.map_eq_some_iff.mp hstep
    exact h.server hevents
  | connect =>
    cases hstep
    exact h.stream ⟨h.fresh.bus, fun _ hst => by cases hst⟩ ⟨h.frames.bus, fun _ hst => by cases hst⟩
      fun _ hst => by cases hst
  | accept =>
    obtain ⟨events, hevents, rfl⟩ := Option.map_eq_some_iff.mp hstep
    refine h.stream (accept_fresh h.fresh hevents) (accept_all h.frames hevents) ?_
    rw [accept_cases hevents]
    intro st hst revision hhello
    cases hst
    cases hhello
  | onopen =>
    obtain ⟨events, hevents, rfl⟩ := Option.map_eq_some_iff.mp hstep
    obtain ⟨st, hst, rfl⟩ := onopen_cases hevents
    exact h.restream hst rfl (fun _ hf => hf) (h.hello st hst)
  | greet =>
    obtain ⟨events, hevents, rfl⟩ := Option.map_eq_some_iff.mp hstep
    obtain ⟨st, hst, rfl⟩ := greet_cases hevents
    refine h.restream hst rfl (fun _ hf => hf) fun revision hhello => ?_
    cases hhello
    exact Nat.le_refl _
  | deliver =>
    obtain ⟨⟨m, events⟩, hdeliver, rfl⟩ := Option.map_eq_some_iff.mp hstep
    have hnext := hok _ hdeliver
    obtain ⟨st, hst, ⟨revision, -, rfl, rfl⟩ | ⟨f, wire, hhello, hwire, rfl, rfl⟩⟩ := deliver_cases hdeliver
    · have hseen : Sound { s with events := { s.events with stream := some { st with hello := .seen } } } := by
        refine h.restream hst rfl (fun _ hf => hf) fun _ hhello => ?_
        cases hhello
      refine hseen.handle hnext fun f hf => ?_
      cases hf
    · have hrest : Sound { s with events := { s.events with stream := some { st with wire } } } := by
        refine h.restream hst rfl (fun f' hf' => ?_) (h.hello st hst)
        exact hwire ▸ List.mem_cons_of_mem f hf'
      refine hrest.handle hnext fun f' hf' => ?_
      cases hf'
      exact h.frames.wire st hst f (hwire ▸ List.mem_cons_self)
  | output_since since =>
    obtain ⟨-, hnext⟩ := Option.ite_none_right_eq_some.mp hstep
    cases hnext
    refine ⟨h.fresh, h.ring, h.frames, h.hello, fun lines hlines => ?_, h.responses, h.revision, h.lines⟩
    obtain hold | hnew := List.mem_append.mp hlines
    · exact h.serving lines hold
    · refine ⟨since, s.ring.g_out.length, Nat.le_refl _, ?_⟩
      rw [List.mem_singleton.mp hnew, h.ring.output_since, List.take_length]
  | output_revision lines =>
    obtain ⟨hlines, hnext⟩ := Option.ite_none_right_eq_some.mp hstep
    cases hnext
    refine ⟨h.fresh, h.ring, h.frames, h.hello, fun lines' hlines' => ?_, fun res hres => ?_, h.revision, h.lines⟩
    · exact h.serving lines' (List.mem_of_mem_erase hlines')
    · obtain hold | hnew := List.mem_append.mp hres
      · exact h.responses res hold
      · rw [List.mem_singleton.mp hnew]
        exact h.serving lines hlines
  | replay res =>
    obtain ⟨hin, hnext⟩ := Option.ite_none_right_eq_some.mp hstep
    cases hnext
    exact h.replay hin hok

/-! No line is forgotten. -/

theorem output_covered (h : Covered s) (hroom : s.ring.g_out.length < kMaxOutput) (ms : Int)
    (text : String) :
    Covered
      { s with
        ring := (output s.ring ms text).2
        events := { s.events with bus := publish s.events.bus (output_frame (output s.ring ms text).1) } } := by
  intro st sub hserves hhello line hline hnew
  rw [output_room hroom] at hline
  obtain hold | hlast := List.mem_append.mp hline
  · exact (h st sub (hserves.of_subs rfl) hhello line hold hnew).imp_right fun hstream => hstream.imp_right publish_reaches
  · rw [List.mem_singleton.mp hlast]
    exact Or.inr (Or.inr (publish_reaches_self ..))

theorem Covered.server (h : Covered s) (hfresh : s.events.Fresh) {op : server_op_t output_line_t}
    {events : events_t output_line_t} (hstep : s.events.step op = some events) : Covered { s with events } := by
  intro st' sub' hserves hhello line hline hnew
  obtain ⟨st, sub, hserves', hsub, -, hhello', hinbox⟩ := step_inbox hfresh hstep hserves
  refine (h st sub hserves' (hhello' ▸ hhello) line hline hnew).imp_right fun hstream => ?_
  rw [hsub]
  obtain ⟨hsame, hreaches⟩ | ⟨c, -, -, hpushed, hreaches⟩ := hinbox
  · rw [hsame]
    exact hstream.imp_right (hreaches _)
  · rw [hpushed]
    obtain hin | hcall := hstream
    · exact Or.inl (List.mem_append_left _ hin)
    · by_cases heq : output_frame line = c.frame
      · exact Or.inl (List.mem_append_right _ (List.mem_singleton.mpr heq))
      · exact Or.inr (hreaches _ heq hcall)

theorem eq_or_mem_erase {α : Type} [BEq α] [LawfulBEq α] {l : List α} {a b : α} (h : b ∈ l) :
    b = a ∨ b ∈ l.erase a := by
  by_cases heq : b = a
  · exact Or.inl heq
  · exact Or.inr ((List.mem_erase_of_ne heq).mpr h)

theorem replays_served (hring : s.ring.Whole) {since : Nat} {line : output_line_t}
    (hline : line ∈ s.ring.g_out) (h : s.Replays line.seq) :
    protocol_t.Replays
      { s with requests := s.requests.erase since, serving := s.serving ++ [output_since s.ring since] } line.seq := by
  obtain ⟨since', hsince', hlt⟩ | ⟨lines, hlines, hin⟩ | hres := h
  · obtain rfl | hstays := eq_or_mem_erase (a := since) hsince'
    · refine Or.inr (Or.inl ⟨_, List.mem_append_right _ List.mem_cons_self, line, ?_, rfl⟩)
      rw [hring.output_since, ← hring.numbered.filter]
      exact List.mem_filter.mpr ⟨hline, decide_eq_true hlt⟩
    · exact Or.inl ⟨since', hstays, hlt⟩
  · exact Or.inr (Or.inl ⟨lines, List.mem_append_left _ hlines, hin⟩)
  · exact Or.inr (Or.inr hres)

theorem replays_answered {lines : List output_line_t} {revision seq : Nat} (h : s.Replays seq) :
    protocol_t.Replays
      { s with serving := s.serving.erase lines, responses := s.responses ++ [{ revision, lines }] } seq := by
  obtain hreq | ⟨lines', hlines', hin⟩ | ⟨res, hres, hin⟩ := h
  · exact Or.inl hreq
  · obtain rfl | hstays := eq_or_mem_erase (a := lines) hlines'
    · exact Or.inr (Or.inr ⟨_, List.mem_append_right _ List.mem_cons_self, hin⟩)
    · exact Or.inr (Or.inl ⟨lines', hstays, hin⟩)
  · exact Or.inr (Or.inr ⟨res, List.mem_append_left _ hres, hin⟩)

theorem replays_handled {res : response_t} {store : store_t} {seq : Nat}
    (hnone : ∀ line ∈ res.lines, line.seq ≠ seq) (h : s.Replays seq) :
    protocol_t.Replays { s with responses := s.responses.erase res, store } seq := by
  obtain hreq | hserving | ⟨res', hres', line, hline, hseq⟩ := h
  · exact Or.inl hreq
  · exact Or.inr (Or.inl hserving)
  · obtain rfl | hstays := eq_or_mem_erase (a := res) hres'
    · exact absurd hseq (hnone line hline)
    · exact Or.inr (Or.inr ⟨res', hstays, line, hline, hseq⟩)

/-- A replay goes on, or ends. -/
theorem Covered.replays (h : Covered s) {requests : List Nat} {serving : List (List output_line_t)}
    {responses : List response_t} {store : store_t} (hrev : s.store.revision ≤ store.revision)
    (hreplays : ∀ line ∈ s.ring.g_out, store.revision < line.seq → s.Replays line.seq →
      protocol_t.Replays { s with requests, serving, responses, store } line.seq) :
    Covered { s with requests, serving, responses, store } := by
  intro st sub hserves hhello line hline hnew
  exact (h st sub hserves hhello line hline (Nat.lt_of_le_of_lt hrev hnew)).imp_left (hreplays line hline hnew)

/-- The replay that a hello asks for starts behind what the store has. -/
theorem on_hello_since (s : store_t) {output_revision : Nat} (hcap : output_revision ≤ kMaxLines) :
    (on_hello s output_revision).2 = (on_hello s output_revision).1.revision := by
  rw [on_hello]
  generalize (if output_revision < s.revision then ({} : store_t) else s) = s'
  by_cases hpos : s'.revision > 0
  · exact if_pos hpos
  · rw [if_neg hpos, Nat.sub_eq_zero_of_le hcap]
    exact (Nat.eq_zero_of_not_pos hpos).symm

theorem covered_hello {output_revision : Nat} (hcap : output_revision ≤ kMaxLines) :
    Covered (s.handle (.hello output_revision)) := by
  intro st sub _ _ line _ hnew
  refine Or.inl (Or.inl ⟨(on_hello s.store output_revision).2, List.mem_append_right _ List.mem_cons_self, ?_⟩)
  rw [on_hello_since s.store hcap]
  exact hnew

/-- The live line that is handled is the only one that leaves the stream. -/
theorem Covered.event (h : Covered s) {st : stream_t output_line_t} {f : frame_t output_line_t}
    {wire : List (frame_t output_line_t)} (hst : s.events.stream = some st) (hwire : st.wire = f :: wire)
    (htype : f.type = "output") (hrev : (on_output s.store f.payload).revision = max s.store.revision f.payload.seq) :
    Covered (protocol_t.handle { s with events := { s.events with stream := some { st with wire } } } (.event f)) := by
  rw [protocol_t.handle, if_pos htype]
  intro st' sub hserves hhello line hline hnew
  obtain ⟨rfl, hserves'⟩ := hserves.restream hst rfl
  have hnew' : max s.store.revision f.payload.seq < line.seq := hrev ▸ hnew
  obtain ⟨hk, hf⟩ := Nat.max_lt.mp hnew'
  refine (h st sub hserves' hhello line hline hk).imp_right fun hstream => ?_
  refine hstream.imp_left fun hin => ?_
  rw [stream_t.inbox, hwire, List.cons_append] at hin
  refine (List.mem_cons.mp hin).resolve_left fun heq => ?_
  rw [← heq] at hf
  exact absurd hf (Nat.lt_irrefl _)

theorem Covered.step {s s' : protocol_t} {op : op_t} (h : Covered s) (hsound : Sound s) (hok : InSequence s op)
    (hstep : s.step op = some s') : Covered s' := by
  cases op with
  | output ms text =>
    cases hstep
    exact output_covered h hok ms text
  | server op =>
    obtain ⟨events, hevents, rfl⟩ := Option.map_eq_some_iff.mp hstep
    exact h.server hsound.fresh hevents
  | connect =>
    cases hstep
    intro st sub hserves
    cases hserves.stream
  | accept =>
    obtain ⟨events, hevents, rfl⟩ := Option.map_eq_some_iff.mp hstep
    intro st sub hserves hhello
    have hstream := hserves.stream
    rw [accept_cases hevents] at hstream
    cases hstream
    cases hhello
  | onopen =>
    obtain ⟨events, hevents, rfl⟩ := Option.map_eq_some_iff.mp hstep
    obtain ⟨st, hst, rfl⟩ := onopen_cases hevents
    intro st' sub hserves hhello line hline hnew
    obtain ⟨rfl, hserves'⟩ := hserves.restream hst rfl
    exact h st sub hserves' hhello line hline hnew
  | greet =>
    obtain ⟨events, hevents, rfl⟩ := Option.map_eq_some_iff.mp hstep
    obtain ⟨st, hst, rfl⟩ := greet_cases hevents
    intro st' sub hserves hhello
    cases hserves.stream
    cases hhello
  | deliver =>
    obtain ⟨⟨m, events⟩, hdeliver, rfl⟩ := Option.map_eq_some_iff.mp hstep
    have hnext := hok _ hdeliver
    obtain ⟨st, hst, ⟨revision, hsent, rfl, rfl⟩ | ⟨f, wire, -, hwire, rfl, rfl⟩⟩ := deliver_cases hdeliver
    · refine covered_hello ?_
      have hle := hsound.hello st hst revision hsent
      rw [hsound.ring.revision] at hle
      exact Nat.le_trans hle hsound.ring.bounded
    · obtain ⟨htype, hline⟩ := hsound.frames.wire st hst f (hwire ▸ List.mem_cons_self)
      exact h.event hst hwire htype (on_output_lines hsound.ring hsound.lines hline hnext).2
  | output_since since =>
    obtain ⟨-, hnext⟩ := Option.ite_none_right_eq_some.mp hstep
    cases hnext
    exact h.replays (Nat.le_refl _) fun line hline _ hreplays => replays_served hsound.ring hline hreplays
  | output_revision lines =>
    obtain ⟨-, hnext⟩ := Option.ite_none_right_eq_some.mp hstep
    cases hnext
    exact h.replays (Nat.le_refl _) fun _ _ _ hreplays => replays_answered hreplays
  | replay res =>
    obtain ⟨hres, hnext⟩ := Option.ite_none_right_eq_some.mp hstep
    cases hnext
    obtain ⟨-, m, -, hrev, hlines⟩ := on_replay_lines hsound.ring hsound.lines (hsound.responses res hres) hok
    refine h.replays (hrev ▸ Nat.le_max_left _ _) fun line _ hnew hreplays => replays_handled ?_ hreplays
    intro line' hline' heq
    have hle := hlines line' hline'
    rw [hrev, Nat.max_lt] at hnew
    omega

/-- Nothing is in flight, and the stream is open and has lost no frame. -/
structure Quiet (s : protocol_t) : Prop where
  calls : s.events.bus.calls = []
  requests : s.requests = []
  serving : s.serving = []
  responses : s.responses = []
  stream : ∃ st sub, s.events.Serves st sub ∧ st.hello = .seen ∧ st.inbox sub = []

/-- In every run in which the store handles lines and responses in order, and in which the
ring has room, the store has exactly the lines of the ring once nothing is in flight. -/
theorem replay_loses_nothing
    (hreach : Relation.ReflTransGen (Transition.Step InSequence protocol_t.step) {} s) (hquiet : Quiet s) :
    s.store.lines = s.ring.g_out := by
  have hkeeps : ∀ s op s', Sound s ∧ Covered s → InSequence s op → s.step op = some s' → Sound s' ∧ Covered s' :=
    fun _ _ _ h hok hstep => ⟨h.1.step hok hstep, h.2.step h.1 hok hstep⟩
  have hinit : Covered {} := fun _ _ hserves => by cases hserves.stream
  obtain ⟨hsound, hcovered⟩ : Sound s ∧ Covered s :=
    Transition.invariant (I := fun s => Sound s ∧ Covered s) ⟨Sound.init, hinit⟩ hkeeps hreach
  obtain ⟨st, sub, hserves, hhello, hinbox⟩ := hquiet.stream
  have hall : s.ring.g_out.length ≤ s.store.revision := by
    by_contra hless
    obtain ⟨line, hline⟩ : ∃ line, s.ring.g_out[s.store.revision]? = some line :=
      ⟨_, List.getElem?_eq_getElem (Nat.lt_of_not_le hless)⟩
    have hseq := hsound.ring.numbered _ line hline
    have hcomes := hcovered st sub hserves hhello line (List.mem_of_getElem? hline) (hseq ▸ Nat.lt_succ_self _)
    rw [protocol_t.Comes, protocol_t.Replays, bus_t.Reaches, hquiet.requests, hquiet.serving, hquiet.responses, hinbox,
      hquiet.calls] at hcomes
    simp at hcomes
  rw [hsound.lines, List.take_of_length_le hall]

/-- The replay of the first line is handled before the second line, which comes live. -/
theorem replay_before_live :
    ∃ s : protocol_t, Quiet s ∧ s.store.lines = [⟨1, 0, "a"⟩, ⟨2, 0, "b"⟩] ∧ s.store.lines = s.ring.g_out := by
  have hrun : ∃ s, Transition.run InSequence protocol_t.step {}
      [.output 0 "a", .server (.fan_out ⟨output_frame ⟨1, 0, "a"⟩, .recorded⟩), .connect, .accept, .onopen, .greet,
        .deliver, .output_since 0, .output_revision [⟨1, 0, "a"⟩], .output 0 "b",
        .server (.fan_out ⟨output_frame ⟨2, 0, "b"⟩, .recorded⟩),
        .server (.fan_out ⟨output_frame ⟨2, 0, "b"⟩, .listening⟩),
        .server (.fan_out ⟨output_frame ⟨2, 0, "b"⟩, .pushing [0]⟩),
        .server (.fan_out ⟨output_frame ⟨2, 0, "b"⟩, .pushing []⟩), .server (.wait 0),
        .replay ⟨1, [⟨1, 0, "a"⟩]⟩, .deliver] = some s ∧ Quiet s ∧ s.store.lines = [⟨1, 0, "a"⟩, ⟨2, 0, "b"⟩] :=
    ⟨_, rfl, ⟨rfl, rfl, rfl, rfl, _, _, ⟨rfl, List.mem_cons_self, rfl, rfl, rfl⟩, rfl, rfl⟩, rfl⟩
  obtain ⟨s, hrun, hquiet, hlines⟩ := hrun
  exact ⟨s, hquiet, hlines, replay_loses_nothing (Transition.run_reaches hrun) hquiet⟩

/-- The second line comes live before the replay of the first: the first is lost. -/
theorem overtaken_replay_loses_line :
    ∃ s : protocol_t, Transition.run (fun _ _ => True) protocol_t.step {}
        [.output 0 "a", .server (.fan_out ⟨output_frame ⟨1, 0, "a"⟩, .recorded⟩), .connect, .accept, .onopen, .greet,
          .deliver, .output_since 0, .output_revision [⟨1, 0, "a"⟩], .output 0 "b",
          .server (.fan_out ⟨output_frame ⟨2, 0, "b"⟩, .recorded⟩),
          .server (.fan_out ⟨output_frame ⟨2, 0, "b"⟩, .listening⟩),
          .server (.fan_out ⟨output_frame ⟨2, 0, "b"⟩, .pushing [0]⟩),
          .server (.fan_out ⟨output_frame ⟨2, 0, "b"⟩, .pushing []⟩), .server (.wait 0),
          .deliver, .replay ⟨1, [⟨1, 0, "a"⟩]⟩] = some s ∧
      Quiet s ∧ s.ring.g_out = [⟨1, 0, "a"⟩, ⟨2, 0, "b"⟩] ∧ s.store.lines = [⟨2, 0, "b"⟩] :=
  ⟨_, rfl, ⟨rfl, rfl, rfl, rfl, _, _, ⟨rfl, List.mem_cons_self, rfl, rfl, rfl⟩, rfl, rfl⟩, rfl, rfl⟩

end slop.app.output_store
