import ReverseSlop.Core.Memory.Watch.State

namespace slop.core.memory.watch

/-- Values and passes know only ids that are listed or were removed, and no id is
handed out twice. -/
structure Tracked (s : service_t) : Prop where
  values : ∀ v ∈ s.st.last, v.id ∈ s.st.ids
  ticks : ∀ t ∈ s.ticks, ∀ id ∈ t.ids, id ∈ s.st.ids ∨ id ∈ s.removed
  fresh : ∀ id ∈ s.st.ids, id < s.st.next_id
  gone : ∀ id ∈ s.removed, id < s.st.next_id ∧ id ∉ s.st.ids

/-- A pass publishes only if none of the entries it sampled was removed meanwhile. -/
def Undisturbed (s : service_t) (a : op_t) : Prop :=
  ∀ i sampled reads, a = .tick_publish i → s.ticks[i]? = some (.sampling [] sampled reads) →
    ∀ v ∈ sampled, v.id ∉ s.removed

variable {s s' : service_t}

theorem Tracked.of_ids (h : Tracked s) (hids : s'.st.ids = s.st.ids)
    (hnext : s'.st.next_id = s.st.next_id) (hremoved : s'.removed = s.removed)
    (hlast : ∀ v ∈ s'.st.last, v.id ∈ s.st.ids)
    (hticks : ∀ t ∈ s'.ticks, ∀ id ∈ t.ids, id ∈ s.st.ids ∨ id ∈ s.removed) : Tracked s' := by
  constructor
  · rw [hids]
    exact hlast
  · rw [hids, hremoved]
    exact hticks
  · rw [hids, hnext]
    exact h.fresh
  · rw [hids, hnext, hremoved]
    exact h.gone

theorem Tracked.edit (h : Tracked s) {id : Nat} {f : entry_t → entry_t}
    (hst : s'.st = (s.st.edit id f).2) (hticks : s'.ticks = s.ticks) (hremoved : s'.removed = s.removed)
    (hf : ∀ e, (f e).id = e.id) : Tracked s' := by
  have hsame : s'.st.ids = s.st.ids ∧ s'.st.next_id = s.st.next_id ∧ s'.st.last = s.st.last := by
    rw [hst]
    obtain hedit | hedit := edit_cases s.st id f
    · rw [hedit]
      exact ⟨update_ids s.st id hf, rfl, rfl⟩
    · rw [hedit]
      exact ⟨rfl, rfl, rfl⟩
  obtain ⟨hids, hnext, hlast⟩ := hsame
  apply h.of_ids hids hnext hremoved
  · rw [hlast]
    exact h.values
  · rw [hticks]
    exact h.ticks

theorem Tracked.add {s : service_t} (h : Tracked s) (addr : UInt64) (width : value_width_t) (label : String) :
    Tracked { s with st := (watch.add s.st addr width label).2 } := by
  rw [watch.add]
  split
  · exact h
  · have hids : ∀ {id}, id ∈ s.st.ids →
        id ∈ (s.st.entries ++ [({ id := s.st.next_id, addr, width, label } : entry_t)]).map entry_t.id := by
      intro id hid
      rw [List.map_append]
      exact List.mem_append_left _ hid
    constructor
    · exact fun v hv => hids (h.values v hv)
    · exact fun t ht id hid => (h.ticks t ht id hid).imp_left hids
    · intro id hid
      rw [state_t.ids, List.map_append, List.mem_append] at hid
      obtain hold | hnew := hid
      · exact Nat.lt_succ_of_lt (h.fresh id hold)
      · rw [List.map_singleton, List.mem_singleton] at hnew
        rw [hnew]
        exact Nat.lt_succ_self s.st.next_id
    · intro id hid
      obtain ⟨hlt, hnot⟩ := h.gone id hid
      refine ⟨Nat.lt_succ_of_lt hlt, fun hmem => ?_⟩
      rw [state_t.ids, List.map_append, List.mem_append] at hmem
      obtain hold | hnew := hmem
      · exact hnot hold
      · rw [List.map_singleton, List.mem_singleton] at hnew
        exact Nat.lt_irrefl _ (hnew ▸ hlt)

/-- Removing entries takes their values along. -/
theorem Tracked.filter {s : service_t} (h : Tracked s) (keep : Nat → Bool) {removed : List Nat}
    (hremoved : ∀ id, id ∈ removed ↔ id ∈ s.st.ids ∧ keep id = false) :
    Tracked
      { s with
        st := { s.st with entries := s.st.entries.filter (keep ·.id), last := s.st.last.filter (keep ·.id) }
        removed := s.removed ++ removed } := by
  have hids : ∀ id, id ∈ (s.st.entries.filter (keep ·.id)).map entry_t.id ↔ id ∈ s.st.ids ∧ keep id = true := by
    intro id
    constructor
    · intro hid
      obtain ⟨e, he, rfl⟩ := List.mem_map.mp hid
      obtain ⟨hmem, hkeep⟩ := List.mem_filter.mp he
      exact ⟨List.mem_map_of_mem hmem, hkeep⟩
    · rintro ⟨hid, hkeep⟩
      obtain ⟨e, he, rfl⟩ := List.mem_map.mp hid
      exact List.mem_map_of_mem (List.mem_filter.mpr ⟨he, hkeep⟩)
  constructor
  · intro v hv
    obtain ⟨hmem, hkeep⟩ := List.mem_filter.mp hv
    exact (hids v.id).mpr ⟨h.values v hmem, hkeep⟩
  · intro t ht id hid
    obtain hlisted | hgone := h.ticks t ht id hid
    · cases hkeep : keep id with
      | true => exact Or.inl ((hids id).mpr ⟨hlisted, hkeep⟩)
      | false => exact Or.inr (List.mem_append_right _ ((hremoved id).mpr ⟨hlisted, hkeep⟩))
    · exact Or.inr (List.mem_append_left _ hgone)
  · exact fun id hid => h.fresh id ((hids id).mp hid).1
  · intro id hid
    obtain hold | hnew := List.mem_append.mp hid
    · obtain ⟨hlt, hnot⟩ := h.gone id hold
      exact ⟨hlt, fun hmem => hnot ((hids id).mp hmem).1⟩
    · obtain ⟨hlisted, hkeep⟩ := (hremoved id).mp hnew
      refine ⟨h.fresh id hlisted, fun hmem => ?_⟩
      rw [((hids id).mp hmem).2] at hkeep
      cases hkeep

theorem Tracked.remove {id : Nat} (h : Tracked s) (hstep : s.step (.remove id) = some s') :
    Tracked s' := by
  cases hstep
  rw [watch.remove]
  split
  · exact h
  · rename_i hlisted
    have hmem : id ∈ s.st.ids := by
      rw [List.all_eq_true, not_forall] at hlisted
      obtain ⟨e, he⟩ := hlisted
      rw [Classical.not_imp, decide_eq_true_eq, not_not] at he
      exact List.mem_map.mpr ⟨e, he⟩
    refine h.filter (· ≠ id) fun id' => ?_
    rw [List.mem_singleton, decide_eq_false_iff_not, not_not]
    exact ⟨fun heq => ⟨heq ▸ hmem, heq⟩, fun hkeep => hkeep.2⟩

theorem Tracked.clear (h : Tracked s) (hstep : s.step .clear = some s') : Tracked s' := by
  cases hstep
  have hfiltered := @Tracked.filter s h (fun _ => false) s.st.ids fun id => ⟨fun hid => ⟨hid, rfl⟩, fun hid => hid.1⟩
  simp only [List.filter_false] at hfiltered
  exact hfiltered

/-- A pass starts with the ids that are listed. -/
theorem Tracked.start {s : service_t} (h : Tracked s) (now : Int) :
    Tracked { s with st := (start_pass s.st now).2, ticks := s.ticks ++ ((start_pass s.st now).1.map tick_t.started).toList } := by
  rw [start_pass]
  split
  · refine h.of_ids rfl rfl rfl (List.forall_mem_nil _) ?_
    intro t ht
    rw [Option.map_none, Option.toList_none, List.append_nil] at ht
    exact h.ticks t ht
  split
  · refine h.of_ids rfl rfl rfl h.values ?_
    intro t ht
    rw [Option.map_none, Option.toList_none, List.append_nil] at ht
    exact h.ticks t ht
  · refine h.of_ids rfl rfl rfl h.values ?_
    intro t ht
    rw [Option.map_some, Option.toList_some, List.mem_append, List.mem_singleton] at ht
    obtain hold | rfl := ht
    · exact h.ticks t hold
    · exact fun id hid => Or.inl hid

theorem Tracked.of_set {s : service_t} (h : Tracked s) {i : Nat} {t t' : tick_t} (hget : s.ticks[i]? = some t)
    (hids : ∀ id ∈ t'.ids, id ∈ t.ids) :
    ∀ x ∈ s.ticks.set i t', ∀ id ∈ x.ids, id ∈ s.st.ids ∨ id ∈ s.removed := by
  intro x hx id hid
  obtain hold | rfl := List.mem_or_eq_of_mem_set hx
  · exact h.ticks x hold id hid
  · exact h.ticks t (List.mem_of_getElem? hget) id (hids id hid)

theorem sample_id (e : entry_t) (reads : Nat) (live : Option UInt64) : (sample e reads live).1.id = e.id := by
  rw [sample]
  simp only
  split <;> rfl

theorem Tracked.step {a : op_t} (h : Tracked s) (hok : Undisturbed s a) (hstep : s.step a = some s') :
    Tracked s' := by
  cases a with
  | add addr width label =>
    cases hstep
    exact h.add addr width label
  | remove id => exact h.remove hstep
  | clear => exact h.clear hstep
  | set_freeze id on =>
    cases hstep
    refine h.edit rfl rfl rfl fun e => ?_
    split
    · exact latch_id s.st e
    · rfl
  | poke id bits =>
    cases hstep
    exact h.edit rfl rfl rfl fun _ => rfl
  | set_width id width =>
    cases hstep
    exact h.edit rfl rfl rfl fun _ => rfl
  | set_label id label =>
    cases hstep
    exact h.edit rfl rfl rfl fun _ => rfl
  | tick_start now =>
    cases hstep
    exact h.start now
  | tick_session i valid =>
    rw [service_t.step] at hstep
    split at hstep
    · rename_i snap hget
      split at hstep <;> cases hstep
      · refine h.of_ids rfl rfl rfl h.values ?_
        exact h.of_set hget fun id hid => hid
      · refine h.of_ids rfl rfl rfl (List.forall_mem_nil _) ?_
        exact fun t ht => h.ticks t (List.mem_of_mem_eraseIdx ht)
    · cases hstep
  | tick_sample i live =>
    rw [service_t.step] at hstep
    split at hstep
    · rename_i e rest sampled reads hget
      cases hstep
      refine h.of_ids rfl rfl rfl h.values ?_
      apply h.of_set hget
      intro id hid
      simpa [tick_t.ids, tick_t.values, tick_t.entries, sample_id] using hid
    · cases hstep
  | tick_publish i =>
    rw [service_t.step] at hstep
    split at hstep
    · rename_i sampled reads hget
      cases hstep
      refine h.of_ids (publish_ids s.st sampled) (publish_next_id s.st sampled) rfl ?_ ?_
      · intro v hv
        have hlisted := h.ticks _ (List.mem_of_getElem? hget) v.id (List.mem_append_left _ (List.mem_map_of_mem hv))
        exact hlisted.resolve_right (hok i sampled reads rfl hget v hv)
      · exact fun t ht => h.ticks t (List.mem_of_mem_eraseIdx ht)
    · cases hstep

theorem Tracked.init : Tracked {} := by
  constructor
  · exact List.forall_mem_nil _
  · exact List.forall_mem_nil _
  · exact List.forall_mem_nil _
  · exact List.forall_mem_nil _

/-- As long as no pass publishes a sample of an entry that was removed meanwhile,
every value is that of a listed entry and no removed entry has a value. -/
theorem values_listed {s : service_t}
    (hreach : Relation.ReflTransGen (Transition.Step Undisturbed service_t.step) {} s) :
    (∀ v ∈ s.st.last, ∃ e ∈ s.st.entries, e.id = v.id) ∧ ∀ id ∈ s.removed, ∀ v ∈ s.st.last, v.id ≠ id := by
  have htracked : Tracked s := Transition.invariant Tracked.init (fun _ _ _ h => h.step) hreach
  constructor
  · exact fun v hv => List.mem_map.mp (htracked.values v hv)
  · intro id hid v hv heq
    exact (htracked.gone id hid).2 (heq ▸ htracked.values v hv)

/-- Two entries are sampled and published, then one of them is removed. -/
theorem values_listed_after_removal :
    ∃ s : service_t, s.removed = [1] ∧ s.st.last.map value_t.id = [2] ∧
      (∀ v ∈ s.st.last, ∃ e ∈ s.st.entries, e.id = v.id) ∧ ∀ id ∈ s.removed, ∀ v ∈ s.st.last, v.id ≠ id := by
  have hrun : (Transition.run (fun (s : service_t) _ => s.removed = []) service_t.step {}
      [.add 0x1000 .u32 "a", .add 0x2000 .u32 "b", .tick_start 100, .tick_session 0 true, .tick_sample 0 (some 7),
        .tick_sample 0 none, .tick_publish 0, .remove 1]).any
      (fun s => s.removed = [1] && s.st.last.map value_t.id = [2]) = true := by
    decide
  obtain ⟨s, hreach, hends⟩ := Transition.run_any hrun
  obtain ⟨hremoved, hlast⟩ := Bool.and_eq_true_iff.mp hends
  refine ⟨s, of_decide_eq_true hremoved, of_decide_eq_true hlast, ?_⟩
  apply values_listed
  refine Transition.reaches_mono (fun s a hnone => ⟨a, ?_, rfl⟩) hreach
  intro i sampled reads _ _ v _ hv
  rw [hnone] at hv
  cases hv

/-- An entry is removed between the two lock sections of a pass, which then brings
its value back. -/
theorem removed_value_reappears :
    ¬ ∀ s : service_t, Relation.ReflTransGen (Transition.Step (fun _ _ => True) service_t.step) {} s →
      (∀ v ∈ s.st.last, ∃ e ∈ s.st.entries, e.id = v.id) ∧ ∀ id ∈ s.removed, ∀ v ∈ s.st.last, v.id ≠ id := by
  have hrun : (Transition.run (fun (_ : service_t) _ => True) service_t.step {}
      [.add 0x1000 .u32 "a", .tick_start 100, .tick_session 0 true, .tick_sample 0 (some 7), .remove 1,
        .tick_publish 0]).any
      (fun s => s.st.entries = [] && !s.st.last.isEmpty) = true := by
    decide
  obtain ⟨s, hreach, hends⟩ := Transition.run_any hrun
  obtain ⟨hentries, hlast⟩ := Bool.and_eq_true_iff.mp hends
  intro hlaw
  cases hvalues : s.st.last with
  | nil =>
    rw [hvalues] at hlast
    cases hlast
  | cons v rest =>
    have hv : v ∈ s.st.last := by
      rw [hvalues]
      exact List.mem_cons_self
    obtain ⟨e, he, -⟩ := (hlaw s hreach).1 v hv
    rw [of_decide_eq_true hentries] at he
    cases he

end slop.core.memory.watch
