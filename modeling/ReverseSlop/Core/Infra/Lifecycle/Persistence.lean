import ReverseSlop.Core.Infra.Lifecycle.State

namespace slop.core.infra.lifecycle

/-- The settings were loaded. -/
def stage_t.loaded : stage_t → Bool
  | .mcp_server | .frontend | .done => true
  | .runtime_pool | .process_services | .kernel_bridge | .settings => false

/-- The engine is shut down behind the stage that loads the settings, or the file has no
setting that no setter has changed. -/
def Loaded (s : engine_t) : op_t → Prop
  | .shutdown .. =>
    s.torn_down = false → s.started = true → s.stage.loaded = true ∨ ∀ key ∉ s.changed, s.file.setting key = none
  | _ => True

/-- What no setter has changed is in the file as it was; once loaded, also in memory, where it
is not set before. -/
structure Persistent (file : settings.file_t) (s : engine_t) : Prop where
  kept : ∀ key ∉ s.changed, s.file.setting key = file.setting key
  loaded : s.torn_down = false → s.stage.loaded = true → ∀ key ∉ s.changed, s.g_data key = s.file.setting key
  unset : s.stage.loaded = false → ∀ key ∉ s.changed, s.g_data key = none
  idle : s.started = false → s.stage = .runtime_pool

theorem Persistent.init (file : settings.file_t) (quiesced : Option Bool) :
    Persistent file (engine_t.initial file quiesced) :=
  ⟨fun _ _ => rfl, fun _ hloaded => (by cases hloaded), fun _ _ _ => rfl, fun _ => rfl⟩

section

variable {file : settings.file_t} {s s' : engine_t}

theorem Persistent.set (h : Persistent file s) (call : settings.setter_t) : Persistent file (s.set call) := by
  have hkeys : ∀ key, key ∉ (s.set call).changed → key ∉ s.changed ∧ key ∉ call.keys := by
    intro key hkey
    exact ⟨fun hold => hkey (List.mem_append_left _ hold), fun hnew => hkey (List.mem_append_right _ hnew)⟩
  constructor
  · intro key hkey
    exact h.kept key (hkeys key hkey).1
  · intro htorn hloaded key hkey
    exact (settings.set_of_not_mem (hkeys key hkey).2).trans (h.loaded htorn hloaded key (hkeys key hkey).1)
  · intro hstage key hkey
    exact (settings.set_of_not_mem (hkeys key hkey).2).trans (h.unset hstage key (hkeys key hkey).1)
  · exact h.idle

theorem Persistent.onboard (h : Persistent file s) (bound : UInt16) (ephemeral : Bool) :
    Persistent file (s.onboard bound ephemeral).1 := by
  have hserves : Persistent file { s with result := { s.result with mcp_ok := true, mcp_port := bound } } := { h with }
  rw [engine_t.onboard]
  simp only
  split
  · exact hserves
  split
  · exact hserves
  · exact hserves
  · exact hserves.set _

theorem Persistent.start_mcp (h : Persistent file s) (env : mcp_env_t) : Persistent file (s.start_mcp env).1 := by
  rw [engine_t.start_mcp]
  split
  · exact h
  · exact h
  split
  · split
    · exact h.onboard _ _
    split
    · exact h.onboard _ _
    · exact h
  · exact h

theorem start_mcp_stage (s : engine_t) (env : mcp_env_t) : (s.start_mcp env).1.stage = s.stage := by
  obtain ⟨g_data, result, changed, hstart⟩ := start_mcp_eq s env
  rw [hstart]

/-- A stage follows that is as much behind the loading of the settings. -/
theorem Persistent.set_stage {stage : stage_t} (h : Persistent file s) (hstarted : s.stage ≠ .runtime_pool)
    (hstage : stage.loaded = s.stage.loaded) : Persistent file { s with stage } := by
  constructor
  · exact h.kept
  · exact fun htorn hloaded => h.loaded htorn (hstage ▸ hloaded)
  · exact fun hloaded => h.unset (hstage ▸ hloaded)
  · exact fun hidle => absurd (h.idle hidle) hstarted

theorem Persistent.advance (h : Persistent file s) (env : mcp_env_t) : Persistent file (s.advance env) := by
  rw [engine_t.advance]
  split
  · rename_i hstage
    split
    · exact h.set_stage (by rw [hstage]; decide) (by rw [hstage]; rfl)
    · exact h
  · rename_i hstage
    refine ⟨h.kept, fun _ _ key _ => ?_, fun hloaded => (by cases hloaded), fun hidle => ?_⟩
    · rw [settings.load_eq_setting]
    · exact absurd (hstage.symm.trans (h.idle hidle)) (by decide)
  · rename_i hstage
    have hstart := h.start_mcp env
    have hsame := (start_mcp_stage s env).trans hstage
    split
    · exact hstart.set_stage (by rw [hsame]; decide) (by rw [hsame]; rfl)
    · exact hstart
  · rename_i hstage
    exact h.set_stage (by rw [hstage]; decide) (by rw [hstage]; rfl)
  · exact h
  · exact h
  · exact h

theorem Persistent.begin (h : Persistent file s) (cfg : config_t) : Persistent file (s.begin cfg) := by
  rw [engine_t.begin]
  split
  · exact h
  · rename_i hstarted
    have hstage : s.stage = .runtime_pool := h.idle (eq_false_of_ne_true hstarted)
    have hunset := h.unset (by rw [hstage]; rfl)
    split
    · exact ⟨h.kept, fun _ hloaded => (by cases hloaded), fun _ => hunset, fun hidle => (by cases hidle)⟩
    · exact ⟨h.kept, fun _ hloaded => (by cases hloaded), fun _ => hunset, fun hidle => (by cases hidle)⟩

/-- What is saved is what the file has, as far as no setter has changed it. -/
theorem Persistent.save {identity : Option String} {arm : Bool} {status : UInt32} {key : String} (h : Persistent file s)
    (hok : Loaded s (.shutdown identity arm status)) (htorn : s.torn_down = false) (hstarted : s.started = true)
    (hkey : key ∉ s.changed) : s.g_data key = s.file.setting key := by
  cases hloaded : s.stage.loaded with
  | true => exact h.loaded htorn hloaded key hkey
  | false =>
    obtain hbehind | hnone := hok htorn hstarted
    · exact absurd (hloaded.symm.trans hbehind) Bool.false_ne_true
    · rw [hnone key hkey]
      exact h.unset hloaded key hkey

theorem Persistent.shutdown {identity : Option String} {arm : Bool} {status : UInt32} (h : Persistent file s)
    (hok : Loaded s (.shutdown identity arm status)) (htorn : s.torn_down = false) :
    Persistent file (s.shutdown identity arm status) := by
  have hsaved : Persistent file
      { s with torn_down := true, file := if s.started then settings.save s.g_data else s.file } := by
    refine ⟨fun key hkey => ?_, fun hdown => (by cases hdown), h.unset, h.idle⟩
    simp only
    split
    · rename_i hstarted
      exact (h.save hok htorn hstarted hkey).trans (h.kept key hkey)
    · exact h.kept key hkey
  rw [engine_t.shutdown]
  simp only
  split
  · exact hsaved
  · exact { hsaved with }

theorem Persistent.step {op : op_t} (h : Persistent file s) (hok : Loaded s op) (hstep : s.step op = some s') :
    Persistent file s' := by
  cases op with
  | begin cfg =>
    cases hstep
    exact h.begin cfg
  | advance env =>
    cases hstep
    exact h.advance env
  | tick =>
    cases hstep
    exact h
  | shutdown identity arm status =>
    obtain rfl | ⟨htorn, rfl⟩ := shutdown_cases hstep
    · exact h
    · exact h.shutdown hok htorn
  | set call =>
    cases hstep
    exact h.set call
  | _ =>
    obtain ⟨driver, attempts, report, thread, brought_up, result, kernel_done, rfl⟩ := outside_eq rfl hstep
    exact { h with }

/-- As long as the engine is shut down behind the stage that loads the settings, the file keeps
every setting that no setter changes, over the whole run. -/
theorem settings_survive {quiesced : Option Bool}
    (hreach : Relation.ReflTransGen (Transition.Step Loaded engine_t.step) (engine_t.initial file quiesced) s) {key : String}
    (hkey : key ∉ s.changed) : s.file.setting key = file.setting key := by
  have hpersistent : Persistent file s :=
    Transition.invariant (Persistent.init file quiesced) (fun _ _ _ h hok hstep => h.step hok hstep) hreach
  exact hpersistent.kept key hkey

end

/-- A file with a token. -/
def token_file : settings.file_t := .object fun key => if key = "mcp_token" then some (.string "secret") else none

/-- The settings are loaded, one is changed, and the engine is shut down. -/
theorem token_survives :
    ∃ s : engine_t, s.torn_down = true ∧ s.file.setting "layout_version" = some (.number 2) ∧
      s.file.setting "mcp_token" = token_file.setting "mcp_token" := by
  have hreach : Relation.ReflTransGen (Transition.Step Loaded engine_t.step) (engine_t.initial token_file none) _ :=
    .head ⟨.begin { load_driver := false }, trivial, rfl⟩ <| .head ⟨.advance { start := some, restart := some }, trivial, rfl⟩ <|
      .head ⟨.advance { start := some, restart := some }, trivial, rfl⟩ <| .head ⟨.set (.set_layout_version 2), trivial, rfl⟩ <|
      .head ⟨.shutdown none false 0, fun _ _ => Or.inl rfl, rfl⟩ .refl
  exact ⟨_, rfl, rfl, settings_survive hreach (by decide)⟩

/-- The engine is shut down before the settings are loaded. -/
theorem token_is_erased :
    ¬ ∀ (file : settings.file_t) (quiesced : Option Bool) (s : engine_t),
      Relation.ReflTransGen (Transition.Step (fun _ _ => True) engine_t.step) (engine_t.initial file quiesced) s →
        s.torn_down = true → ∀ key ∉ s.changed, s.file.setting key = file.setting key := by
  have hreach : Relation.ReflTransGen (Transition.Step (fun (_ : engine_t) _ => True) engine_t.step)
      (engine_t.initial token_file none) _ :=
    .head ⟨.begin { load_driver := false }, trivial, rfl⟩ <| .head ⟨.shutdown none false 0, trivial, rfl⟩ .refl
  intro hlaw
  have hkept := hlaw token_file none _ hreach rfl "mcp_token" (by decide)
  cases hkept

end slop.core.infra.lifecycle
