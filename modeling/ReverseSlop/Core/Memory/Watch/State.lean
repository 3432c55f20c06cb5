import ReverseSlop.Core.Memory.Memscan.Config
import ReverseSlop.Library.Transition

namespace slop.core.memory.watch

open infra

def kMaxLiveReads : Nat := 64

def kSampleIntervalMs : Int := 100

/-- Where some bits come from: nowhere, a sample at a width, or a poke. It is not in
the program. -/
inductive origin_t where
  | unset
  | sampled (width : value_width_t)
  | poked
  deriving DecidableEq

structure entry_t where
  id : Nat
  addr : UInt64
  width : value_width_t := .u32
  label : String
  freeze : Bool := false
  frozen_bits : UInt64 := 0
  origin : origin_t := .unset
  deriving DecidableEq

/-- A sample of an entry: `ok` when there are bits, `held` when a freeze holds them. -/
structure value_t where
  id : Nat
  addr : UInt64
  ok : Bool := false
  held : Bool := false
  bits : UInt64 := 0
  origin : origin_t := .unset
  deriving DecidableEq

structure state_t where
  entries : List entry_t := []
  last : List value_t := []
  next_id : Nat := 1
  last_pass_ms : Int := 0

def state_t.find (s : state_t) (id : Nat) : Option entry_t := s.entries.find? (·.id = id)

/-- Change the entry with an id. Ids are handed out once, so there is at most one. -/
def state_t.update (s : state_t) (id : Nat) (f : entry_t → entry_t) : state_t :=
  { s with entries := s.entries.map fun e => if e.id = id then f e else e }

def state_t.ids (s : state_t) : List Nat := s.entries.map entry_t.id

/-- Add an entry; 0 when the list is full. -/
def add (s : state_t) (addr : UInt64) (width : value_width_t) (label : String) : Nat × state_t :=
  if s.entries.length ≥ limits.max_watch_entries then (0, s)
  else (s.next_id, { s with next_id := s.next_id + 1, entries := s.entries ++ [{ id := s.next_id, addr, width, label }] })

def remove (s : state_t) (id : Nat) : Bool × state_t :=
  if s.entries.all (·.id ≠ id) then (false, s)
  else (true, { s with entries := s.entries.filter (·.id ≠ id), last := s.last.filter (·.id ≠ id) })

def clear (s : state_t) : state_t := { s with entries := [], last := [] }

/-- The entry with the bits that the last pass saw, if it saw any. -/
def latch (s : state_t) (e : entry_t) : entry_t :=
  match (s.last.find? (·.id = e.id)).filter (·.ok) with
  | some v => { e with frozen_bits := v.bits, origin := v.origin }
  | none => e

/-- The setters: false when there is no such entry. -/
def state_t.edit (s : state_t) (id : Nat) (f : entry_t → entry_t) : Bool × state_t :=
  if (s.find id).isSome then (true, s.update id f) else (false, s)

def set_freeze (s : state_t) (id : Nat) (on : Bool) : Bool × state_t :=
  s.edit id fun e => { (if on && !e.freeze then latch s e else e) with freeze := on }

/-- The first lock section of `poke`; the write to the target comes after it. -/
def poke (s : state_t) (id : Nat) (bits : UInt64) : Bool × state_t :=
  s.edit id fun e => { e with frozen_bits := bits, origin := .poked }

def set_width (s : state_t) (id : Nat) (width : value_width_t) : Bool × state_t := s.edit id fun e => { e with width }

def set_label (s : state_t) (id : Nat) (label : String) : Bool × state_t := s.edit id fun e => { e with label }

/-! The sections of `tick`. -/

/-- The first lock section: the entries to sample, unless there are none or the last
pass is too young. -/
def start_pass (s : state_t) (now : Int) : Option (List entry_t) × state_t :=
  if s.entries.isEmpty then (none, { s with last := [] })
  else if now - s.last_pass_ms < kSampleIntervalMs then (none, s)
  else (some s.entries, { s with last_pass_ms := now })

/-- The lock section without a target. -/
def detached (s : state_t) : state_t := { s with last := [] }

/-- The sample of one entry and the number of reads so far. `live` is what a read of
its address gives. -/
def sample (e : entry_t) (reads : Nat) (live : Option UInt64) : value_t × Nat :=
  let got := if reads < kMaxLiveReads then live else none
  let v : value_t :=
    { id := e.id, addr := e.addr, held := e.freeze, ok := got.isSome, bits := got.getD 0
      origin := if got.isSome then .sampled e.width else .unset }
  (if e.freeze then { v with ok := true, bits := e.frozen_bits, origin := e.origin } else v,
    if got.isSome then reads + 1 else reads)

/-- Track a live value in the entry while it is not frozen. -/
def track (s : state_t) (v : value_t) : state_t :=
  s.update v.id fun e => if !e.freeze && v.ok then { e with frozen_bits := v.bits, origin := v.origin } else e

/-- The last lock section. -/
def publish (s : state_t) (sampled : List value_t) : state_t := { sampled.foldl track s with last := sampled }

theorem update_entries {s : state_t} {id : Nat} {f : entry_t → entry_t} {e : entry_t}
    (he : e ∈ (s.update id f).entries) : e ∈ s.entries ∨ ∃ e' ∈ s.entries, e'.id = id ∧ e = f e' := by
  obtain ⟨e', he', rfl⟩ := List.mem_map.mp he
  by_cases hid : e'.id = id
  · rw [if_pos hid]
    exact Or.inr ⟨e', he', hid, rfl⟩
  · rw [if_neg hid]
    exact Or.inl he'

theorem update_ids (s : state_t) (id : Nat) {f : entry_t → entry_t} (hf : ∀ e, (f e).id = e.id) :
    (s.update id f).ids = s.ids := by
  rw [state_t.ids, state_t.update, List.map_map, state_t.ids]
  refine List.map_congr_left fun e _ => ?_
  rw [Function.comp_apply]
  split
  · exact hf e
  · rfl

theorem edit_cases (s : state_t) (id : Nat) (f : entry_t → entry_t) :
    s.edit id f = (true, s.update id f) ∨ s.edit id f = (false, s) := by
  rw [state_t.edit]
  split
  · exact Or.inl rfl
  · exact Or.inr rfl

theorem latch_id (s : state_t) (e : entry_t) : (latch s e).id = e.id := by
  rw [latch]
  split <;> rfl

theorem latch_width (s : state_t) (e : entry_t) : (latch s e).width = e.width := by
  rw [latch]
  split <;> rfl

theorem track_ids (s : state_t) (v : value_t) : (track s v).ids = s.ids := by
  apply update_ids
  intro e
  split <;> rfl

/-- Tracking samples changes neither the ids nor the other data. -/
theorem foldl_track_ids (s : state_t) (sampled : List value_t) :
    (sampled.foldl track s).ids = s.ids ∧ (sampled.foldl track s).next_id = s.next_id := by
  induction sampled generalizing s with
  | nil => exact ⟨rfl, rfl⟩
  | cons v rest ih =>
    obtain ⟨hids, hnext⟩ := ih (track s v)
    exact ⟨hids.trans (track_ids s v), hnext⟩

theorem publish_ids (s : state_t) (sampled : List value_t) : (publish s sampled).ids = s.ids := (foldl_track_ids s sampled).1

theorem publish_next_id (s : state_t) (sampled : List value_t) : (publish s sampled).next_id = s.next_id :=
  (foldl_track_ids s sampled).2

end slop.core.memory.watch

namespace slop.core.memory.watch

/-- A pass between its sections: with the entries it started from, or with those it
has yet to sample, the samples so far and the number of reads. -/
inductive tick_t where
  | started (snap : List entry_t)
  | sampling (rest : List entry_t) (sampled : List value_t) (reads : Nat)

/-- A freeze write of some bytes to the target. `width` is what the width of the entry
is then. -/
structure write_t where
  id : Nat
  addr : UInt64
  bits : UInt64
  size : Nat
  width : value_width_t
  deriving DecidableEq

/-- The bits that were sampled from entries, with their widths, and those poked. -/
structure history_t where
  samples : List (Nat × value_width_t × UInt64) := []
  pokes : List (Nat × UInt64) := []

/-- Note what a pass reads of an entry, if it may still read. -/
def history_t.sample (h : history_t) (e : entry_t) (reads : Nat) (live : Option UInt64) : history_t :=
  let got := if reads < kMaxLiveReads then live else none
  { h with samples := h.samples ++ (got.map fun bits => (e.id, e.width, bits)).toList }

def history_t.poke (h : history_t) (id : Nat) (bits : UInt64) : history_t := { h with pokes := h.pokes ++ [(id, bits)] }

/-- The service with the passes that run. Not in the program: the history, the freeze
writes and the ids removed so far. -/
structure service_t where
  st : state_t := {}
  ticks : List tick_t := []
  history : history_t := {}
  writes : List write_t := []
  removed : List Nat := []

/-- The write that holds a frozen entry of a pass. -/
def state_t.freeze_write (s : state_t) (e : entry_t) : write_t :=
  { id := e.id, addr := e.addr, bits := e.frozen_bits, size := value_size e.width
    width := ((s.find e.id).map entry_t.width).getD e.width }

inductive op_t where
  | add (addr : UInt64) (width : value_width_t) (label : String)
  | remove (id : Nat)
  | clear
  | set_freeze (id : Nat) (on : Bool)
  | poke (id : Nat) (bits : UInt64)
  | set_width (id : Nat) (width : value_width_t)
  | set_label (id : Nat) (label : String)
  | tick_start (now : Int)
  | tick_session (i : Nat) (valid : Bool)
  | tick_sample (i : Nat) (live : Option UInt64)
  | tick_publish (i : Nat)

/-- One lock section, or the accesses of a pass to the target for one entry. -/
def service_t.step (s : service_t) : op_t → Option service_t
  | .add addr width label => some { s with st := (add s.st addr width label).2 }
  | .remove id =>
    some { s with st := (remove s.st id).2, removed := if (remove s.st id).1 then s.removed ++ [id] else s.removed }
  | .clear => some { s with st := clear s.st, removed := s.removed ++ s.st.entries.map entry_t.id }
  | .set_freeze id on => some { s with st := (set_freeze s.st id on).2 }
  | .poke id bits =>
    some
      { s with
        st := (poke s.st id bits).2
        history := if (poke s.st id bits).1 then s.history.poke id bits else s.history }
  | .set_width id width => some { s with st := (set_width s.st id width).2 }
  | .set_label id label => some { s with st := (set_label s.st id label).2 }
  | .tick_start now =>
    some
      { s with
        st := (start_pass s.st now).2
        ticks := s.ticks ++ ((start_pass s.st now).1.map tick_t.started).toList }
  | .tick_session i valid =>
    match s.ticks[i]? with
    | some (.started snap) =>
      if valid then some { s with ticks := s.ticks.set i (.sampling snap [] 0) }
      else some { s with st := detached s.st, ticks := s.ticks.eraseIdx i }
    | _ => none
  | .tick_sample i live =>
    match s.ticks[i]? with
    | some (.sampling (e :: rest) sampled reads) =>
      some
        { s with
          ticks := s.ticks.set i (.sampling rest (sampled ++ [(sample e reads live).1]) (sample e reads live).2)
          history := s.history.sample e reads live
          writes := if e.freeze then s.writes ++ [s.st.freeze_write e] else s.writes }
    | _ => none
  | .tick_publish i =>
    match s.ticks[i]? with
    | some (.sampling [] sampled _) => some { s with st := publish s.st sampled, ticks := s.ticks.eraseIdx i }
    | _ => none

/-- The entries that a pass has yet to sample. -/
def tick_t.entries : tick_t → List entry_t
  | .started snap => snap
  | .sampling rest _ _ => rest

def tick_t.values : tick_t → List value_t
  | .started _ => []
  | .sampling _ sampled _ => sampled

def tick_t.ids (t : tick_t) : List Nat := t.values.map value_t.id ++ t.entries.map entry_t.id

end slop.core.memory.watch
