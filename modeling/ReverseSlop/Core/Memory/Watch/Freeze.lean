import ReverseSlop.Core.Memory.Watch.Widths

namespace slop.core.memory.watch

/-- All bits are known, and all freeze writes carried seen ones. -/
structure Seen (s : service_t) : Prop where
  entries : ∀ e ∈ s.st.entries, Held s.history e
  values : ∀ v ∈ s.st.last, Known s.history v.id v.origin v.bits
  tick_entries : ∀ t ∈ s.ticks, ∀ e ∈ t.entries, Held s.history e
  tick_values : ∀ t ∈ s.ticks, ∀ v ∈ t.values, Known s.history v.id v.origin v.bits
  writes : ∀ w ∈ s.writes, SeenWrite s.history w

variable {s : service_t}

theorem Seen.grow (h : Seen s) {history : history_t} (hgrows : Grows s.history history) :
    Seen { s with history } := by
  constructor
  · exact fun e he => (h.entries e he).grow hgrows
  · exact fun v hv => (h.values v hv).grow hgrows
  · exact fun t ht e he => (h.tick_entries t ht e he).grow hgrows
  · exact fun t ht v hv => (h.tick_values t ht v hv).grow hgrows
  · exact fun w hw => (h.writes w hw).imp (fun hs => hgrows.1 hs) fun hp => hgrows.2 hp

/-! The operations. -/

theorem Seen.edit (h : Seen s) {id : Nat} {f : entry_t → entry_t}
    (hf : ∀ e ∈ s.st.entries, e.id = id → Held s.history (f e)) : Seen { s with st := (s.st.edit id f).2 } := by
  obtain hedit | hedit := edit_cases s.st id f
  · rw [hedit]
    refine ⟨fun e he => ?_, h.values, h.tick_entries, h.tick_values, h.writes⟩
    obtain hold | ⟨e', he', hid, rfl⟩ := update_entries he
    · exact h.entries e hold
    · exact hf e' he' hid
  · rw [hedit]
    exact h

theorem Seen.add (h : Seen s) (addr : UInt64) (width : value_width_t) (label : String) :
    Seen { s with st := (watch.add s.st addr width label).2 } := by
  rw [watch.add]
  split
  · exact h
  · refine ⟨fun e he => ?_, h.values, h.tick_entries, h.tick_values, h.writes⟩
    obtain hold | hnew := List.mem_append.mp he
    · exact h.entries e hold
    · rw [List.mem_singleton.mp hnew]
      exact ⟨trivial, fun hfrozen => by cases hfrozen⟩

theorem Seen.remove {s s' : service_t} {id : Nat} (h : Seen s) (hstep : s.step (.remove id) = some s') : Seen s' := by
  cases hstep
  rw [watch.remove]
  split
  · exact ⟨h.entries, h.values, h.tick_entries, h.tick_values, h.writes⟩
  · refine ⟨fun e he => ?_, fun v hv => ?_, h.tick_entries, h.tick_values, h.writes⟩
    · exact h.entries e (List.mem_filter.mp he).1
    · exact h.values v (List.mem_filter.mp hv).1

/-- The bits that a freeze latches are known. -/
theorem latch_known (h : Seen s) {e : entry_t} (he : e ∈ s.st.entries) :
    Known s.history e.id (latch s.st e).origin (latch s.st e).frozen_bits := by
  rw [latch]
  split
  · rename_i v hv
    obtain ⟨hfind, -⟩ := Option.filter_eq_some_iff.mp hv
    have hid := List.find?_some hfind
    rw [← of_decide_eq_true hid]
    exact h.values v (List.mem_of_find?_eq_some hfind)
  · exact (h.entries e he).known

theorem Seen.set_freeze (h : Seen s) {id : Nat} {on : Bool} (hok : Latched s (.set_freeze id on)) :
    Seen { s with st := (watch.set_freeze s.st id on).2 } := by
  refine h.edit fun e he hid => ?_
  have hheld := h.entries e he
  cases on with
  | false => exact ⟨hheld.known, fun hfrozen => by cases hfrozen⟩
  | true =>
    cases hfreeze : e.freeze with
    | true => exact ⟨hheld.known, fun _ => hheld.frozen hfreeze⟩
    | false =>
      have hfits := hok rfl e he hid hfreeze
      have hknown := latch_known h he
      rw [← latch_id s.st e] at hknown
      rw [← latch_width s.st e] at hfits
      exact ⟨hknown, fun _ => hfits⟩

theorem Seen.set_width (h : Seen s) {id : Nat} {width : value_width_t}
    (hok : Latched s (.set_width id width)) : Seen { s with st := (watch.set_width s.st id width).2 } := by
  refine h.edit fun e he hid => ⟨(h.entries e he).known, fun hfrozen => ?_⟩
  obtain hpoked | hsame := hok.1 e he hid hfrozen
  · exact Or.inl hpoked
  · exact hsame ▸ (h.entries e he).frozen hfrozen

theorem Seen.poke {s s' : service_t} {id : Nat} {bits : UInt64} (h : Seen s) (hstep : s.step (.poke id bits) = some s') :
    Seen s' := by
  cases hstep
  have hgrows : Grows s.history (s.history.poke id bits) :=
    ⟨fun _ h => h, fun _ h => List.mem_append_left _ h⟩
  have hpoked : ∀ e ∈ s.st.entries, e.id = id →
      Held (s.history.poke id bits) { e with frozen_bits := bits, origin := .poked } := by
    intro e _ hid
    refine ⟨List.mem_append_right _ ?_, fun _ => Or.inl rfl⟩
    rw [List.mem_singleton, hid]
  have hedited := (h.grow hgrows).edit hpoked
  rw [watch.poke]
  obtain hedit | hedit := edit_cases s.st id fun e => { e with frozen_bits := bits, origin := .poked }
  · rw [hedit] at hedited ⊢
    exact hedited
  · rw [hedit]
    exact h

/-! A pass. -/

theorem Seen.start (h : Seen s) (now : Int) :
    Seen { s with st := (start_pass s.st now).2, ticks := s.ticks ++ ((start_pass s.st now).1.map tick_t.started).toList } := by
  rw [start_pass]
  split
  · refine ⟨h.entries, List.forall_mem_nil _, ?_, ?_, h.writes⟩
    · simpa using h.tick_entries
    · simpa using h.tick_values
  split
  · refine ⟨h.entries, h.values, ?_, ?_, h.writes⟩
    · simpa using h.tick_entries
    · simpa using h.tick_values
  · refine ⟨h.entries, h.values, fun t ht => ?_, fun t ht => ?_, h.writes⟩
    · obtain hold | hnew := List.mem_append.mp ht
      · exact h.tick_entries t hold
      · rw [List.mem_singleton.mp hnew]
        exact h.entries
    · obtain hold | hnew := List.mem_append.mp ht
      · exact h.tick_values t hold
      · rw [List.mem_singleton.mp hnew]
        exact List.forall_mem_nil _

theorem Seen.session {s s' : service_t} {i : Nat} {valid : Bool} (h : Seen s)
    (hstep : s.step (.tick_session i valid) = some s') : Seen s' := by
  rw [service_t.step] at hstep
  split at hstep
  · rename_i snap hget
    have hmem := List.mem_of_getElem? hget
    split at hstep <;> cases hstep
    · refine ⟨h.entries, h.values, fun t ht => ?_, fun t ht => ?_, h.writes⟩
      · obtain hold | rfl := List.mem_or_eq_of_mem_set ht
        · exact h.tick_entries t hold
        · exact h.tick_entries (.started snap) hmem
      · obtain hold | rfl := List.mem_or_eq_of_mem_set ht
        · exact h.tick_values t hold
        · exact List.forall_mem_nil _
    · refine ⟨h.entries, List.forall_mem_nil _, fun t ht => ?_, fun t ht => ?_, h.writes⟩
      · exact h.tick_entries t (List.mem_of_mem_eraseIdx ht)
      · exact h.tick_values t (List.mem_of_mem_eraseIdx ht)
  · cases hstep

theorem sample_grows (h : history_t) (e : entry_t) (reads : Nat) (live : Option UInt64) :
    Grows h (h.sample e reads live) := ⟨fun _ hs => List.mem_append_left _ hs, fun _ hp => hp⟩

/-- The bits of a sample are those read, or those held. -/
theorem sample_known {h : history_t} {e : entry_t} (hheld : Held h e) (reads : Nat) (live : Option UInt64) :
    Known (h.sample e reads live) (sample e reads live).1.id (sample e reads live).1.origin
      (sample e reads live).1.bits := by
  have hgrown := hheld.known.grow (sample_grows h e reads live)
  rw [watch.sample]
  simp only
  split
  · exact hgrown
  · rw [history_t.sample]
    by_cases hreads : reads < kMaxLiveReads
    · simp only [if_pos hreads]
      cases live with
      | none => exact trivial
      | some bits => exact List.mem_append_right _ List.mem_cons_self
    · simp only [if_neg hreads]
      exact trivial

theorem Seen.sample {s s' : service_t} {i : Nat} {live : Option UInt64} (h : Seen s) (hcurrent : Current s)
    (hstep : s.step (.tick_sample i live) = some s') : Seen s' := by
  rw [service_t.step] at hstep
  split at hstep
  · rename_i e rest sampled reads hget
    cases hstep
    have hgrows := sample_grows s.history e reads live
    have hgrown := h.grow hgrows
    have hmem := List.mem_of_getElem? hget
    obtain ⟨he, hrest⟩ := List.forall_mem_cons.mp (h.tick_entries _ hmem)
    refine ⟨hgrown.entries, hgrown.values, fun t ht => ?_, fun t ht => ?_, ?_⟩
    · obtain hold | rfl := List.mem_or_eq_of_mem_set ht
      · exact hgrown.tick_entries t hold
      · exact fun e' he' => (hrest e' he').grow hgrows
    · obtain hold | rfl := List.mem_or_eq_of_mem_set ht
      · exact hgrown.tick_values t hold
      · intro v hv
        obtain hold | hnew := List.mem_append.mp hv
        · exact hgrown.tick_values _ hmem v hold
        · rw [List.mem_singleton.mp hnew]
          exact sample_known he reads live
    · split
      · rename_i hfreeze
        refine List.forall_mem_append.mpr ⟨hgrown.writes, List.forall_mem_singleton.mpr ?_⟩
        exact hcurrent.freeze_write_seen (he.grow hgrows) hmem List.mem_cons_self hfreeze
      · exact hgrown.writes
  · cases hstep

theorem Held.track {h : history_t} {e : entry_t} {v : value_t} (hheld : Held h e) (hid : e.id = v.id)
    (hknown : Known h v.id v.origin v.bits) :
    Held h (if !e.freeze && v.ok then { e with frozen_bits := v.bits, origin := v.origin } else e) := by
  split
  · rename_i hlive
    have hfree : e.freeze = false := (Bool.not_eq_true' _).mp (Bool.and_eq_true_iff.mp hlive).1
    refine ⟨?_, fun hfrozen => ?_⟩
    · rw [← hid] at hknown
      exact hknown
    · rw [hfree] at hfrozen
      cases hfrozen
  · exact hheld

theorem foldl_track_held {h : history_t} {sampled : List value_t} (hsampled : ∀ v ∈ sampled, Known h v.id v.origin v.bits)
    {s : state_t} (hs : ∀ e ∈ s.entries, Held h e) : ∀ e ∈ (sampled.foldl track s).entries, Held h e := by
  induction sampled generalizing s with
  | nil => exact hs
  | cons v rest ih =>
    obtain ⟨hv, hrest⟩ := List.forall_mem_cons.mp hsampled
    apply ih hrest
    intro e he
    obtain hold | ⟨e', he', hid, rfl⟩ := update_entries he
    · exact hs e hold
    · exact (hs e' he').track hid hv

theorem Seen.publish {s s' : service_t} {i : Nat} (h : Seen s) (hstep : s.step (.tick_publish i) = some s') :
    Seen s' := by
  rw [service_t.step] at hstep
  split at hstep
  · rename_i sampled reads hget
    cases hstep
    have hsampled := h.tick_values _ (List.mem_of_getElem? hget)
    refine ⟨foldl_track_held hsampled h.entries, hsampled, fun t ht => ?_, fun t ht => ?_, h.writes⟩
    · exact h.tick_entries t (List.mem_of_mem_eraseIdx ht)
    · exact h.tick_values t (List.mem_of_mem_eraseIdx ht)
  · cases hstep

theorem Seen.step {s s' : service_t} {a : op_t} (h : Seen s) (hcurrent : Current s) (hok : Latched s a)
    (hstep : s.step a = some s') : Seen s' := by
  cases a with
  | add addr width label =>
    cases hstep
    exact h.add addr width label
  | remove id => exact h.remove hstep
  | clear =>
    cases hstep
    exact ⟨List.forall_mem_nil _, List.forall_mem_nil _, h.tick_entries, h.tick_values, h.writes⟩
  | set_freeze id on =>
    cases hstep
    exact h.set_freeze hok
  | poke id bits => exact h.poke hstep
  | set_width id width =>
    cases hstep
    exact h.set_width hok
  | set_label id label =>
    cases hstep
    exact h.edit fun e he _ => ⟨(h.entries e he).known, (h.entries e he).frozen⟩
  | tick_start now =>
    cases hstep
    exact h.start now
  | tick_session i valid => exact h.session hstep
  | tick_sample i live => exact h.sample hcurrent hstep
  | tick_publish i => exact h.publish hstep

theorem Seen.init : Seen {} :=
  ⟨List.forall_mem_nil _, List.forall_mem_nil _, List.forall_mem_nil _, List.forall_mem_nil _, List.forall_mem_nil _⟩

theorem Current.init : Current {} :=
  ⟨List.Pairwise.nil, List.forall_mem_nil _, List.forall_mem_nil _, List.forall_mem_nil _⟩

/-- As long as freezes latch bits of the right width and held bits keep theirs, every
freeze write carries bits that were sampled at the width of the entry or poked. -/
theorem freeze_writes_seen
    (hreach : Relation.ReflTransGen (Transition.Step Latched service_t.step) {} s) :
    ∀ w ∈ s.writes, SeenWrite s.history w := by
  have hkeeps : ∀ s a s', Current s ∧ Seen s → Latched s a → s.step a = some s' → Current s' ∧ Seen s' :=
    fun _ _ _ h hok hstep => ⟨h.1.step hok hstep, h.2.step h.1 hok hstep⟩
  have hseen : Current s ∧ Seen s :=
    Transition.invariant (I := fun s => Current s ∧ Seen s) ⟨Current.init, Seen.init⟩ hkeeps hreach
  exact hseen.2.writes

/-- An entry is frozen after a sample; the next pass writes the sampled value. -/
theorem sampled_value_is_held :
    ∃ s : service_t, s.writes = [⟨1, 0x1000, 7, 4, .u32⟩] ∧ ∀ w ∈ s.writes, SeenWrite s.history w := by
  have hrun : (Transition.run Latched service_t.step {}
      [.add 0x1000 .u32 "a", .tick_start 100, .tick_session 0 true, .tick_sample 0 (some 7), .tick_publish 0,
        .set_freeze 1 true, .tick_start 200, .tick_session 0 true, .tick_sample 0 (some 9)]).any
      (fun s => s.writes = [⟨1, 0x1000, 7, 4, .u32⟩]) = true := by
    decide
  obtain ⟨s, hreach, hwrites⟩ := Transition.run_any hrun
  exact ⟨s, of_decide_eq_true hwrites, freeze_writes_seen hreach⟩

/-- An entry that was never sampled is frozen, and the next pass writes 0. -/
theorem unsampled_freeze_writes_zero :
    ¬ ∀ s : service_t, Relation.ReflTransGen (Transition.Step (fun _ _ => True) service_t.step) {} s →
      ∀ w ∈ s.writes, SeenWrite s.history w := by
  have hrun : (Transition.run (fun (_ : service_t) _ => True) service_t.step {}
      [.add 0x1000 .u32 "a", .set_freeze 1 true, .tick_start 100, .tick_session 0 true, .tick_sample 0 (some 7)]).any
      (fun s => s.writes.any fun w => !decide (SeenWrite s.history w)) = true := by
    decide
  obtain ⟨s, hreach, hunseen⟩ := Transition.run_any hrun
  obtain ⟨w, hw, hnot⟩ := List.any_eq_true.mp hunseen
  intro hlaw
  rw [decide_eq_true (hlaw s hreach w hw)] at hnot
  cases hnot

end slop.core.memory.watch
