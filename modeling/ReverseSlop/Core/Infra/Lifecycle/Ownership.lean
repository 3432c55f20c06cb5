import ReverseSlop.Core.Infra.Lifecycle.State

namespace slop.core.infra.lifecycle

open slop.core.runtime

/-- A mapper call found the driver absent, ran without an error, and found the driver loaded. -/
def engine_t.Mapped (s : engine_t) : Prop := ∃ r ∈ s.attempts, r.attempted = true ∧ r.ok = true

/-- The engine is shut down without the driver, or behind a mapper call that succeeded; no other
program loads the driver between the two probes of a mapper call or behind one that succeeded;
and a service that a probe unloads is that of the driver. -/
def OwnLoad (s : engine_t) : op_t → Prop
  | .shutdown .. => s.torn_down = false → s.cfg.load_driver = true → s.Mapped
  | .probe _ unloaded gone | .reprobe unloaded gone => unloaded = true → gone = true
  | .foreign_load => (∀ pc ∈ s.thread, pc.mapping = false) ∧ ¬ s.Mapped
  | _ => True

/-- Only if a mapper call of this run has brought the driver up is its unloading requested, and
what is unloaded was not found loaded. -/
def engine_t.UnloadsOwn (s : engine_t) : Prop :=
  (s.requested = true → s.brought_up = true) ∧ ∀ d ∈ s.unloaded, d.found = false

/-- Between the probes of a mapper call, and behind one that succeeded, the driver is none or
this run's own. -/
structure Owned (s : engine_t) : Prop where
  spawning : ∀ call, s.thread = some (.spawn call) → s.driver = none
  reprobing : ∀ call tail, s.thread = some (.reprobe call tail) → ∀ d ∈ s.driver, d.own = true ∧ s.brought_up = true
  mapped : s.Mapped → s.brought_up = true ∧ ∀ d ∈ s.driver, d.own = true
  found : ∀ d ∈ s.driver, d.own = true → d.found = false
  unloads : s.UnloadsOwn

theorem Owned.init (file : settings.file_t) (quiesced : Option Bool) : Owned (engine_t.initial file quiesced) := by
  refine ⟨fun _ hpc => (by cases hpc), fun _ _ hpc => (by cases hpc), ?_, ?_, ?_, List.forall_mem_nil _⟩
  · rintro ⟨r, hr, -⟩
    exact absurd hr List.not_mem_nil
  · intro d hd hown
    obtain ⟨quiesced, -, rfl⟩ := Option.map_eq_some_iff.mp hd
    cases hown
  · exact fun hrequested => (by cases hrequested)

section

variable {s s' : engine_t}

/-- Behind a call, the thread is not between two probes. -/
theorem owned_call_over {call : call_t} {r : driver_autoload.load_report_t}
    (hmapped : s.Mapped ∨ r.attempted = true ∧ r.ok = true → s.brought_up = true ∧ ∀ d ∈ s.driver, d.own = true)
    (hfound : ∀ d ∈ s.driver, d.own = true → d.found = false) (hunloads : s.UnloadsOwn) :
    Owned (s.call_over call r) := by
  obtain ⟨report, pc, hpc, hover⟩ := call_over_eq s call r
  rw [hover]
  refine ⟨fun call' hspawn => ?_, fun call' tail hreprobe => ?_, ?_, hfound, hunloads⟩
  · cases hspawn
    cases hpc
  · cases hreprobe
    cases hpc
  · rintro ⟨r', hr', hok⟩
    obtain hold | hnew := List.mem_append.mp hr'
    · exact hmapped (Or.inl ⟨r', hold, hok⟩)
    · cases List.mem_singleton.mp hnew
      exact hmapped (Or.inr hok)

/-- A call is over that does not find the driver at its end. -/
theorem Owned.call_over_gone {call : call_t} {artifacts_available present : Bool} {code : Int} {tail : String}
    (h : Owned s) :
    Owned (engine_t.call_over { s with driver := none } call
      (driver_autoload.ensure_loaded_with artifacts_available present code tail false)) := by
  apply owned_call_over
  · rintro (hmapped | ⟨hattempted, hok⟩)
    · exact ⟨(h.mapped hmapped).1, fun d hd => (by cases hd)⟩
    · obtain ⟨-, -, hreprobe⟩ := driver_autoload.ensure_loaded_with_ok hattempted hok
      cases hreprobe
  · exact fun d hd => (by cases hd)
  · exact h.unloads

theorem Owned.probe {artifacts_available unloaded gone : Bool} (h : Owned s) (hgone : unloaded = true → gone = true)
    (hstep : s.step (.probe artifacts_available unloaded gone) = some s') : Owned s' := by
  obtain ⟨call, present, driver, hthread, hprobe, hs'⟩ := probe_cases hstep
  obtain ⟨rfl, rfl⟩ | ⟨rfl, d, hd, rfl⟩ := driver_autoload.probe_eq hprobe hgone
  · obtain rfl | ⟨-, rfl⟩ := hs'
    · exact h.call_over_gone
    · refine ⟨fun _ _ => rfl, fun _ _ hpc => (by cases hpc), ?_, fun d hd => (by cases hd), h.unloads⟩
      exact fun hmapped => ⟨(h.mapped hmapped).1, fun d hd => (by cases hd)⟩
  · obtain rfl | ⟨hpresent, -⟩ := hs'
    · apply owned_call_over
      · rintro (hmapped | ⟨hattempted, hok⟩)
        · obtain ⟨hup, hown⟩ := h.mapped hmapped
          refine ⟨hup, fun d' hd' => ?_⟩
          cases hd'
          exact hown d hd
        · obtain ⟨hpresent, -⟩ := driver_autoload.ensure_loaded_with_ok hattempted hok
          cases hpresent
      · intro d' hd' hown
        cases hd'
        simp only at hown
        rw [hown]
        rfl
      · exact h.unloads
    · cases hpresent

theorem Owned.spawn {code : Int} {tail : String} {loads : Bool} (h : Owned s)
    (hstep : s.step (.spawn code tail loads) = some s') : Owned s' := by
  obtain ⟨call, driver, brought_up, hthread, hdriver, hup, hs'⟩ := spawn_cases hstep
  have hnone : s.driver = none := h.spawning call hthread
  rw [hnone] at hdriver hup
  have hown : ∀ d ∈ driver, d.own = true ∧ d.found = false ∧ brought_up = true := by
    cases loads with
    | false =>
      cases hdriver
      exact fun d hd => (by cases hd)
    | true =>
      cases hdriver
      intro d hd
      cases hd
      exact ⟨rfl, rfl, hup.trans (Bool.or_true _)⟩
  have hkept : s.brought_up = true → brought_up = true := by
    intro hbefore
    rw [hup, hbefore, Bool.true_or]
  have hunloads : (s.requested = true → brought_up = true) ∧ ∀ d ∈ s.unloaded, d.found = false :=
    ⟨fun hrequested => hkept (h.unloads.1 hrequested), h.unloads.2⟩
  obtain rfl | rfl := hs'
  · apply owned_call_over
    · rintro (hmapped | ⟨hattempted, hok⟩)
      · exact ⟨hkept (h.mapped hmapped).1, fun d hd => (hown d hd).1⟩
      · obtain ⟨-, -, hreprobe⟩ := driver_autoload.ensure_loaded_with_ok hattempted hok
        cases hreprobe
    · exact fun d hd _ => (hown d hd).2.1
    · exact hunloads
  · refine ⟨fun _ hpc => (by cases hpc), fun _ _ _ d hd => ?_, fun hmapped => ?_, fun d hd _ => (hown d hd).2.1, hunloads⟩
    · exact ⟨(hown d hd).1, (hown d hd).2.2⟩
    · exact ⟨hkept (h.mapped hmapped).1, fun d hd => (hown d hd).1⟩

theorem Owned.reprobe {unloaded gone : Bool} (h : Owned s) (hgone : unloaded = true → gone = true)
    (hstep : s.step (.reprobe unloaded gone) = some s') : Owned s' := by
  obtain ⟨call, tail, present, driver, hthread, hprobe, rfl⟩ := reprobe_cases hstep
  have hown := h.reprobing call tail hthread
  obtain ⟨rfl, rfl⟩ | ⟨rfl, d, hd, rfl⟩ := driver_autoload.probe_eq hprobe hgone
  · exact h.call_over_gone
  · obtain ⟨hd', hup⟩ := hown d hd
    apply owned_call_over
    · refine fun _ => ⟨hup, fun d' hmem => ?_⟩
      cases hmem
      exact hd'
    · intro d' hmem _
      cases hmem
      simp only [hd', Bool.not_true]
    · exact h.unloads

/-- The driver stays as it is, but for its readiness. -/
theorem Owned.set_driver {driver : Option driver_autoload.driver_t} (h : Owned s)
    (hsame : ∀ d ∈ driver, ∃ d' ∈ s.driver, d.own = d'.own ∧ d.found = d'.found) : Owned { s with driver } := by
  have hnone : s.driver = none → driver = none := by
    intro hnone
    cases hdriver : driver with
    | none => rfl
    | some d =>
      obtain ⟨d', hd', -⟩ := hsame d hdriver
      rw [hnone] at hd'
      cases hd'
  refine ⟨fun call hpc => hnone (h.spawning call hpc), fun call tail hpc d hd => ?_, fun hmapped => ?_, ?_, h.unloads⟩
  · obtain ⟨d', hd', hown, -⟩ := hsame d hd
    rw [hown]
    exact h.reprobing call tail hpc d' hd'
  · refine ⟨(h.mapped hmapped).1, fun d hd => ?_⟩
    obtain ⟨d', hd', hown, -⟩ := hsame d hd
    rw [hown]
    exact (h.mapped hmapped).2 d' hd'
  · intro d hd
    obtain ⟨d', hd', hown, hfound⟩ := hsame d hd
    rw [hown, hfound]
    exact h.found d' hd'

theorem Owned.shutdown {identity : Option String} {arm : Bool} {status : UInt32} (h : Owned s)
    (hok : OwnLoad s (.shutdown identity arm status)) (htorn : s.torn_down = false) :
    Owned (s.shutdown identity arm status) := by
  rw [engine_t.shutdown]
  simp only
  split
  · exact { h with }
  · rename_i hload
    have hmapped : s.Mapped := hok htorn (by simpa using hload)
    obtain ⟨hup, hown⟩ := h.mapped hmapped
    have hdriver : Owned { s with driver := driver_autoload.request_driver_unload s.driver identity arm status } :=
      h.set_driver fun d hd => driver_autoload.mem_request_driver_unload hd
    refine { hdriver with unloads := ⟨fun _ => hup, fun d hd => ?_⟩ }
    simp only at hd
    split at hd
    · obtain hold | hnew := List.mem_append.mp hd
      · exact h.unloads.2 d hold
      · have hd' : d ∈ s.driver := Option.mem_toList.mp hnew
        exact h.found d hd' (hown d hd')
    · exact h.unloads.2 d hd

theorem Owned.foreign_quiesce (h : Owned s) :
    Owned { s with driver := s.driver.map fun d => { d with quiesced := true } } := by
  apply h.set_driver
  intro d hd
  obtain ⟨d', hd', rfl⟩ := Option.map_eq_some_iff.mp hd
  exact ⟨d', hd', rfl, rfl⟩

theorem Owned.foreign_load (h : Owned s) (hok : OwnLoad s .foreign_load) :
    Owned { s with driver := some { own := false } } := by
  refine ⟨fun call hpc => ?_, fun call tail hpc => ?_, fun hmapped => absurd hmapped hok.2, fun d hd hown => ?_, h.unloads⟩
  · exact absurd (hok.1 _ hpc) nofun
  · exact absurd (hok.1 _ hpc) nofun
  · cases hd
    cases hown

/-- The kernel thread goes on, not between two probes. -/
theorem Owned.set_thread {pc : thread_pc_t} (h : Owned s) (hpc : pc.mapping = false) :
    Owned { s with thread := some pc } := by
  refine { h with spawning := fun call hspawn => ?_, reprobing := fun call tail hreprobe => ?_ }
  · cases hspawn
    cases hpc
  · cases hreprobe
    cases hpc

theorem Owned.begin (h : Owned s) (cfg : config_t) : Owned (s.begin cfg) := by
  have hprobe : Owned { s with thread := some (.probe .first) } := h.set_thread rfl
  rw [engine_t.begin]
  split
  · exact h
  split
  · exact { hprobe with }
  · exact { h with }

theorem Owned.step {op : op_t} (h : Owned s) (hok : OwnLoad s op) (hstep : s.step op = some s') : Owned s' := by
  cases op with
  | begin cfg =>
    cases hstep
    exact h.begin cfg
  | advance env =>
    cases hstep
    obtain ⟨stage, g_data, result, changed, hadvance⟩ := advance_eq s env
    rw [hadvance]
    exact { h with }
  | tick =>
    cases hstep
    exact h
  | shutdown identity arm status =>
    obtain rfl | ⟨htorn, rfl⟩ := shutdown_cases hstep
    · exact h
    · exact h.shutdown hok htorn
  | set call =>
    cases hstep
    exact { h with }
  | probe artifacts_available unloaded gone => exact h.probe hok hstep
  | spawn code tail loads => exact h.spawn hstep
  | reprobe unloaded gone => exact h.reprobe hok hstep
  | report =>
    obtain ⟨-, hs'⟩ := Option.ite_none_right_eq_some.mp hstep
    cases hs'
    have hregistry : Owned { s with thread := some .registry } := h.set_thread rfl
    exact { hregistry with }
  | registry =>
    obtain ⟨-, hs'⟩ := Option.ite_none_right_eq_some.mp hstep
    cases hs'
    have hexited : Owned { s with thread := some .exited } := h.set_thread rfl
    exact { hexited with }
  | foreign_load =>
    obtain ⟨-, hs'⟩ := Option.ite_none_right_eq_some.mp hstep
    cases hs'
    exact h.foreign_load hok
  | foreign_unload =>
    obtain ⟨-, hs'⟩ := Option.ite_none_left_eq_some.mp hstep
    cases hs'
    exact h.set_driver fun d hd => (by cases hd)
  | foreign_quiesce =>
    cases hstep
    exact h.foreign_quiesce

/-- As long as the engine is shut down behind a mapper call that succeeded, or without the
driver, it unloads only the driver that this run has brought up. -/
theorem unloads_own_driver {file : settings.file_t} {quiesced : Option Bool}
    (hreach : Relation.ReflTransGen (Transition.Step OwnLoad engine_t.step) (engine_t.initial file quiesced) s) :
    s.UnloadsOwn := by
  have howned : Owned s :=
    Transition.invariant (Owned.init file quiesced) (fun _ _ _ h hok hstep => h.step hok hstep) hreach
  exact howned.unloads

end

/-- The mapper brings the driver up, and the engine unloads it. -/
theorem own_driver_is_unloaded :
    ∃ s : engine_t, s.requested = true ∧ s.unloaded ≠ [] ∧ s.UnloadsOwn := by
  have hreach : Relation.ReflTransGen (Transition.Step OwnLoad engine_t.step) (engine_t.initial .missing none) _ :=
    .head ⟨.begin {}, trivial, rfl⟩ <| .head ⟨.probe true false false, nofun, rfl⟩ <|
      .head ⟨.spawn 0 "" true, trivial, rfl⟩ <| .head ⟨.reprobe false false, nofun, rfl⟩ <|
      .head ⟨.report, trivial, rfl⟩ <| .head ⟨.registry, trivial, rfl⟩ <|
      .head ⟨.shutdown (some "slopdrvr") true 0, fun _ _ => ⟨_, List.mem_singleton.mpr rfl, rfl, rfl⟩, rfl⟩ .refl
  exact ⟨_, rfl, List.cons_ne_nil _ _, unloads_own_driver hreach⟩

/-- The driver was loaded before the engine began. -/
theorem found_driver_is_unloaded :
    ¬ ∀ (file : settings.file_t) (quiesced : Option Bool) (s : engine_t),
      Relation.ReflTransGen (Transition.Step (fun _ _ => True) engine_t.step) (engine_t.initial file quiesced) s →
        s.UnloadsOwn := by
  have hreach : Relation.ReflTransGen (Transition.Step (fun (_ : engine_t) _ => True) engine_t.step)
      (engine_t.initial .missing (some false)) _ :=
    .head ⟨.begin {}, trivial, rfl⟩ <| .head ⟨.probe true false false, trivial, rfl⟩ <|
      .head ⟨.probe true false false, trivial, rfl⟩ <| .head ⟨.report, trivial, rfl⟩ <|
      .head ⟨.registry, trivial, rfl⟩ <| .head ⟨.shutdown (some "slopdrvr") true 0, trivial, rfl⟩ .refl
  intro hlaw
  have howns := (hlaw .missing (some false) _ hreach).1 rfl
  cases howns

end slop.core.infra.lifecycle
