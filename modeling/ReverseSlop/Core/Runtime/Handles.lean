import Mathlib.Data.List.Count
import ReverseSlop.Core.Runtime.Registry

namespace slop.core.runtime

/-- The preference leaves or makes the kernel backend the active one. -/
def runtime_t.KeepsKernel (s : runtime_t) (pref : backend_pref_t) (first second : Bool) : Prop :=
  pref ≠ .force_user ∧ (s.dev.connected = true ∨ first = true ∨ pref = .auto_detect ∧ second = true)

/-- While a session of the kernel backend is open, the kernel backend stays the active one; and
a session of the user-mode backend is not read or written while the kernel backend is active
and the driver does not work on its process. -/
def Steady (s : runtime_t) : op_t → Prop
  | .set_backend_preference pref first second =>
    ∀ ses ∈ s.g_session, ses.opener = .kernel → s.g_initialized = true → s.KeepsKernel pref first second
  | .registry_init first second => ∀ ses ∈ s.g_session, ses.opener = .kernel → s.KeepsKernel s.g_pref first second
  | .read | .write =>
    ∀ ses ∈ s.g_session, ses.opener = .user_mode →
      s.active = .user_mode ∨ s.dev.ready_for_pid ses.m_handle.pid = true
  | _ => True

/-- A handle is passed to the backend that has attached it; or the kernel backend closes it as
the user-mode backend does, or reads the same process. -/
def pass_t.Right (p : pass_t) : Prop :=
  p.backend = p.opener ∨ p.backend = .kernel ∧ (p.use = .detach ∨ p.ready = true)

/-- The handle of the system that the session holds. -/
def runtime_t.held (s : runtime_t) : List Nat :=
  match s.g_session with
  | some ses => if ses.opener = .user_mode then [ses.m_handle.native] else []
  | none => []

/-- Every handle is passed to a backend that it belongs to, the system never gets the kernel
backend's value, and every handle of the system is closed once its session is gone, and no more
often than it was opened. -/
structure runtime_t.HandlesKept (s : runtime_t) : Prop where
  passed : ∀ p ∈ s.passed, p.Right
  system : ∀ c ∈ s.log, c.native ≠ kernel_sentinel
  once : ∀ v, s.log.count (.close v) ≤ s.log.count (.opened v)
  closed : s.g_session = none → ∀ v, s.log.count (.close v) = s.log.count (.opened v)

/-- A session's handle is its backend's, a session of the kernel backend finds this active, and
the handles that are opened and not closed are those of the session. -/
structure Paired (s : runtime_t) : Prop where
  attached : ∀ ses ∈ s.g_session,
    ses.m_handle.valid = true ∧ (ses.opener = .kernel ↔ ses.m_handle.native = kernel_sentinel)
  active : ∀ ses ∈ s.g_session, ses.opener = .kernel → s.active = .kernel
  passed : ∀ p ∈ s.passed, p.Right
  system : ∀ c ∈ s.log, c.native ≠ kernel_sentinel
  balance : ∀ v, s.log.count (.opened v) = s.log.count (.close v) + s.held.count v

theorem Paired.init : Paired {} :=
  ⟨fun _ hses => (by cases hses), fun _ hses => (by cases hses), List.forall_mem_nil _, List.forall_mem_nil _, fun _ => rfl⟩

theorem valid_iff {h : target_handle_t} : h.valid = true ↔ h.native ≠ 0 ∧ h.pid ≠ 0 := by
  simp [target_handle_t.valid]

/-- What the user-mode backend attaches is a handle of the system or none. -/
theorem user_attach_native (pid : UInt32) (all few : Option process_handle_t) :
    (user_attach pid all few).native ≠ kernel_sentinel ∧
      ((user_attach pid all few).native ≠ 0 → (user_attach pid all few).valid = true) := by
  rw [valid_iff, user_attach]
  by_cases hpid : pid = 0
  · simp [OpenProcess, hpid, kernel_sentinel]
  · simp only [OpenProcess, if_neg hpid]
    cases hopened : all.or few with
    | none => exact ⟨by decide, fun hnative => absurd rfl hnative⟩
    | some h =>
      refine ⟨fun hnative => ?_, fun hnative => ⟨hnative, hpid⟩⟩
      have haligned := h.aligned
      have hone : h.value = 1 := hnative
      omega

variable {ses : session_t}

section

variable {s s' : runtime_t}

theorem Paired.handles_kept (h : Paired s) : s.HandlesKept := by
  refine ⟨h.passed, h.system, fun v => ?_, fun hnone v => ?_⟩
  · have hbalance := h.balance v
    omega
  · have hheld : s.held = [] := by rw [runtime_t.held, hnone]
    have hbalance := h.balance v
    rw [hheld, List.count_nil] at hbalance
    exact hbalance.symm

theorem apply_preference_active {first second : Bool} (hkeeps : s.KeepsKernel s.g_pref first second) :
    (s.apply_preference first second).active = .kernel := by
  obtain ⟨hpref, hanswer⟩ := hkeeps
  rw [runtime_t.apply_preference]
  cases hs : s.g_pref with
  | force_user => exact absurd hs hpref
  | force_kernel =>
    have hconnected : (s.dev.connect first).connected = true := by
      simpa [device_t.connect, hs] using hanswer
    simp [runtime_t.active, hconnected]
  | auto_detect =>
    simp only
    generalize hdev : device_t.connect _ second = dev
    have hconnected : dev.connected = true := by
      rw [← hdev, device_t.connect]
      split
      · rename_i hfirst
        rw [hfirst, Bool.true_or]
      · rename_i hfirst
        obtain ⟨hdev, hno⟩ := Bool.or_eq_false_iff.mp (eq_false_of_ne_true hfirst)
        have hsecond : second = true := by simpa [hdev, hno, hs] using hanswer
        rw [hsecond, Bool.or_true]
    rw [if_pos hconnected]
    rfl

theorem apply_preference_eq (s : runtime_t) (first second : Bool) :
    ∃ dev kind, s.apply_preference first second = { s with dev, g_active := some kind } := by
  rw [runtime_t.apply_preference]
  cases s.g_pref with
  | force_user => exact ⟨_, _, rfl⟩
  | force_kernel => exact ⟨_, _, rfl⟩
  | auto_detect => exact ⟨_, _, rfl⟩

/-- The registry switches; a session of the kernel backend stays with it. -/
theorem Paired.apply_preference {first second : Bool} (h : Paired s)
    (hkeeps : ∀ ses ∈ s.g_session, ses.opener = .kernel → s.KeepsKernel s.g_pref first second) :
    Paired (s.apply_preference first second) := by
  have hactive : ∀ ses ∈ s.g_session, ses.opener = .kernel → (s.apply_preference first second).active = .kernel :=
    fun ses hses hopener => apply_preference_active (hkeeps ses hses hopener)
  obtain ⟨dev, kind, happly⟩ := apply_preference_eq s first second
  rw [happly] at hactive ⊢
  exact { h with active := hactive }

theorem Paired.set_backend_preference {pref : backend_pref_t} {first second : Bool} (h : Paired s)
    (hok : Steady s (.set_backend_preference pref first second)) :
    Paired (s.set_backend_preference pref first second) := by
  have hpref : Paired { s with g_pref := pref } := { h with }
  rw [runtime_t.set_backend_preference]
  simp only
  split
  · rename_i hinitialized
    exact hpref.apply_preference fun ses hses hopener => hok ses hses hopener hinitialized
  · exact hpref

theorem Paired.registry_init {first second : Bool} (h : Paired s) (hok : Steady s (.registry_init first second)) :
    Paired (s.registry_init first second) := by
  have happly := h.apply_preference hok
  exact { happly with }

/-- A handle is passed as it should be. -/
theorem Paired.pass {use : use_t} (h : Paired s)
    (hright : pass_t.Right ⟨s.active, ses.opener, use, s.dev.ready_for_pid ses.m_handle.pid⟩) :
    Paired (s.pass ses use) := by
  refine { h with passed := fun p hp => ?_ }
  obtain hold | hnew := List.mem_append.mp hp
  · exact h.passed p hold
  · cases List.mem_singleton.mp hnew
    exact hright

/-- The session is gone, and its handle is closed. -/
theorem Paired.end_session {calls : List os_call_t} {dev : device_t} (h : Paired s)
    (hcalls : calls = s.held.map os_call_t.close) (hsystem : kernel_sentinel ∉ s.held) :
    Paired { s with dev, g_session := none, log := s.log ++ calls } := by
  refine ⟨fun _ hses => (by cases hses), fun _ hses => (by cases hses), h.passed, fun c hc => ?_, fun v => ?_⟩
  · obtain hold | hnew := List.mem_append.mp hc
    · exact h.system c hold
    · rw [hcalls] at hnew
      obtain ⟨v, hv, rfl⟩ := List.mem_map.mp hnew
      exact fun hsame => hsystem (hsame ▸ hv)
  · have hbalance := h.balance v
    have hopened : calls.count (.opened v) = 0 := by
      rw [hcalls, List.count_eq_zero]
      intro hmem
      obtain ⟨v', -, hv'⟩ := List.mem_map.mp hmem
      cases hv'
    have hclosed : calls.count (.close v) = s.held.count v := by
      rw [hcalls]
      exact List.count_map_of_injective _ _ (fun _ _ hsame => os_call_t.close.inj hsame) v
    simp only [List.count_append, hopened, hclosed, runtime_t.held, List.count_nil]
    exact hbalance

/-- What the user-mode backend attaches, it holds until it is closed. -/
theorem held_user (hses : s.g_session = some ses) (hopener : ses.opener = .user_mode) :
    s.held = [ses.m_handle.native] := by
  rw [runtime_t.held, hses]
  exact if_pos hopener

theorem held_kernel (hses : s.g_session = some ses) (hopener : ses.opener = .kernel) : s.held = [] := by
  rw [runtime_t.held, hses]
  simp only [hopener]
  rfl

/-- A session of the kernel backend keeps it the active one. -/
theorem Paired.opener_of_active (h : Paired s) (hses : s.g_session = some ses)
    (hactive : s.active = .user_mode) : ses.opener = .user_mode := by
  cases hopener : ses.opener with
  | user_mode => rfl
  | kernel => exact absurd (hactive.symm.trans (h.active ses hses hopener)) nofun

theorem Paired.native_ne_sentinel (h : Paired s) (hses : s.g_session = some ses)
    (hopener : ses.opener = .user_mode) : ses.m_handle.native ≠ kernel_sentinel := by
  intro hsame
  have hkernel : ses.opener = .kernel := (h.attached ses hses).2.mpr hsame
  exact absurd (hopener.symm.trans hkernel) nofun

theorem Paired.sentinel_not_held (h : Paired s) : kernel_sentinel ∉ s.held := by
  intro hheld
  rw [runtime_t.held] at hheld
  split at hheld
  · rename_i ses hses
    split at hheld
    · rename_i hopener
      exact h.native_ne_sentinel hses hopener (List.mem_singleton.mp hheld).symm
    · exact absurd hheld List.not_mem_nil
  · exact absurd hheld List.not_mem_nil

/-- Both backends close the session's handle if it is one of the system. -/
theorem Paired.close_calls (h : Paired s) (hses : s.g_session = some ses) :
    (s.active = .user_mode → user_detach ses.m_handle = s.held.map os_call_t.close) ∧
      (kernel_detach s.dev ses.m_handle).2 = s.held.map os_call_t.close := by
  obtain ⟨hvalid, hkernel⟩ := h.attached ses hses
  obtain ⟨hnative, -⟩ := valid_iff.mp hvalid
  have huser : user_detach ses.m_handle = [.close ses.m_handle.native] := if_neg hnative
  cases hopener : ses.opener with
  | user_mode =>
    have hother := h.native_ne_sentinel hses hopener
    rw [held_user hses hopener]
    refine ⟨fun _ => huser, ?_⟩
    rw [kernel_detach]
    exact (if_pos ⟨hnative, hother⟩).trans huser
  | kernel =>
    rw [held_kernel hses hopener]
    constructor
    · intro hactive
      exact absurd ((h.opener_of_active hses hactive).symm.trans hopener) nofun
    · rw [kernel_detach]
      exact if_neg fun hboth => hboth.2 (hkernel.mp hopener)

theorem detach_cases (s : runtime_t) (h : target_handle_t) :
    (s.active = .user_mode ∧ s.detach h = { s with log := s.log ++ user_detach h }) ∨
      s.active = .kernel ∧
        s.detach h = { s with dev := (kernel_detach s.dev h).1, log := s.log ++ (kernel_detach s.dev h).2 } := by
  rw [runtime_t.detach]
  cases s.active with
  | user_mode => exact Or.inl ⟨rfl, rfl⟩
  | kernel => exact Or.inr ⟨rfl, rfl⟩

theorem Paired.close (h : Paired s) : Paired s.close := by
  rw [runtime_t.close]
  split
  · exact h
  · rename_i ses hses
    obtain ⟨hvalid, -⟩ := h.attached ses hses
    obtain ⟨huser, hkernel⟩ := h.close_calls hses
    have hheld : kernel_sentinel ∉ (s.pass ses .detach).held := h.sentinel_not_held
    rw [if_pos hvalid]
    obtain ⟨hactive, hdetach⟩ | ⟨hactive, hdetach⟩ := detach_cases (s.pass ses .detach) ses.m_handle
    · have hopener : ses.opener = .user_mode := h.opener_of_active hses hactive
      have hpass : Paired (s.pass ses .detach) := h.pass (Or.inl (hactive.trans hopener.symm))
      rw [hdetach]
      exact hpass.end_session (huser hactive) hheld
    · have hpass : Paired (s.pass ses .detach) := h.pass (Or.inr ⟨hactive, Or.inl rfl⟩)
      rw [hdetach]
      exact hpass.end_session hkernel hheld

/-- A handle of the system is opened, and the session holds it. -/
theorem Paired.hold {h' : target_handle_t} (h : Paired s) (hnone : s.g_session = none) (hvalid : h'.valid = true)
    (hother : h'.native ≠ kernel_sentinel) :
    Paired { s with log := s.log ++ [.opened h'.native], g_session := some ⟨h', .user_mode⟩ } := by
  have hheld : s.held = [] := by rw [runtime_t.held, hnone]
  refine ⟨fun ses hses => ?_, fun ses hses hopener => ?_, h.passed, fun c hc => ?_, fun v => ?_⟩
  · cases hses
    exact ⟨hvalid, fun hopener => (by cases hopener), fun hsame => absurd hsame hother⟩
  · cases hses
    cases hopener
  · obtain hold | hnew := List.mem_append.mp hc
    · exact h.system c hold
    · cases List.mem_singleton.mp hnew
      exact hother
  · have hbalance := h.balance v
    rw [hheld, List.count_nil] at hbalance
    have hclosed : [os_call_t.opened h'.native].count (.close v) = 0 := rfl
    have hopened : [os_call_t.opened h'.native].count (.opened v) = [h'.native].count v := by
      rw [List.count_singleton, List.count_singleton]
      simp
    simp only [List.count_append, hclosed, hopened, runtime_t.held, if_pos]
    omega

/-- A session of the kernel backend begins, or none. -/
theorem Paired.begin_session {dev : device_t} {session : Option session_t} (h : Paired s) (hnone : s.g_session = none)
    (hsession : ∀ ses ∈ session, ses.m_handle.valid = true ∧ ses.m_handle.native = kernel_sentinel ∧
      ses.opener = .kernel ∧ s.active = .kernel) :
    Paired { s with dev, g_session := session } := by
  have hheld : s.held = [] := by rw [runtime_t.held, hnone]
  have hnew : runtime_t.held { s with dev, g_session := session } = [] := by
    rw [runtime_t.held]
    split
    · rename_i ses hses
      rw [if_neg]
      rw [(hsession ses hses).2.2.1]
      nofun
    · rfl
  refine ⟨fun ses hses => ?_, fun ses hses _ => (hsession ses hses).2.2.2, h.passed, h.system, fun v => ?_⟩
  · obtain ⟨hvalid, hnative, hopener, -⟩ := hsession ses hses
    exact ⟨hvalid, fun _ => hnative, fun _ => hopener⟩
  · rw [hnew, ← hheld]
    exact h.balance v

theorem kernel_attach_native {d : device_t} {pid : UInt32} {connects : Bool} {dtb : UInt64}
    (hvalid : (kernel_attach d pid connects dtb).2.valid = true) :
    (kernel_attach d pid connects dtb).2.native = kernel_sentinel := by
  rw [kernel_attach] at hvalid ⊢
  split
  · rename_i hconnected
    rw [if_pos hconnected] at hvalid
    cases hvalid
  rename_i hconnected
  split
  · rename_i hnone
    rw [if_neg hconnected, if_pos hnone] at hvalid
    cases hvalid
  · rfl

/-- A session begins that the active backend has attached. -/
theorem Paired.open (h : Paired s) (hnone : s.g_session = none) (pid : UInt32) (env : attach_env_t) :
    Paired (s.open pid env) := by
  rw [runtime_t.open]
  split
  · obtain ⟨hother, hvalid⟩ := user_attach_native pid env.all env.few
    simp only
    by_cases hnative : (user_attach pid env.all env.few).native = 0
    · have hinvalid : (user_attach pid env.all env.few).valid = false := by
        rw [target_handle_t.valid, hnative]
        rfl
      rw [if_pos hnative, hinvalid, if_neg Bool.false_ne_true]
      exact h.begin_session hnone fun _ hses => (by cases hses)
    · rw [if_neg hnative, if_pos (hvalid hnative)]
      exact h.hold hnone (hvalid hnative) hother
  · rename_i hactive
    have hnative := @kernel_attach_native s.dev pid env.connects env.dtb
    simp only
    generalize kernel_attach s.dev pid env.connects env.dtb = r at hnative ⊢
    apply h.begin_session hnone
    intro ses hses
    split at hses
    · rename_i hvalid
      cases hses
      exact ⟨hvalid, hnative hvalid, rfl, hactive⟩
    · cases hses

/-- A process is accessed by a handle of the system. -/
theorem Paired.access {native : Nat} (h : Paired s) (hother : native ≠ kernel_sentinel) :
    Paired { s with log := s.log ++ [.access native] } := by
  refine { h with system := fun c hc => ?_, balance := fun v => ?_ }
  · obtain hold | hnew := List.mem_append.mp hc
    · exact h.system c hold
    · cases List.mem_singleton.mp hnew
      exact hother
  · have hopened : [os_call_t.access native].count (.opened v) = 0 := rfl
    have hclosed : [os_call_t.access native].count (.close v) = 0 := rfl
    rw [List.count_append, List.count_append, hopened, hclosed]
    exact h.balance v

theorem Paired.memory {use : use_t} (h : Paired s) (hses : s.g_session = some ses)
    (hok : ses.opener = .user_mode → s.active = .user_mode ∨ s.dev.ready_for_pid ses.m_handle.pid = true) :
    Paired (s.memory ses use).1 := by
  have hpass : Paired (s.pass ses use) := by
    apply h.pass
    cases hopener : ses.opener with
    | user_mode =>
      obtain hactive | hready := hok hopener
      · exact Or.inl hactive
      · cases hactive : s.active with
        | user_mode => exact Or.inl rfl
        | kernel => exact Or.inr ⟨rfl, Or.inr hready⟩
    | kernel => exact Or.inl (h.active ses hses hopener)
  obtain ⟨hvalid, -⟩ := h.attached ses hses
  rw [runtime_t.memory]
  split
  · rename_i hactive
    have hother := h.native_ne_sentinel hses (h.opener_of_active hses hactive)
    rw [user_memory, hvalid]
    exact hpass.access hother
  · exact hpass

theorem Paired.target_tick (h : Paired s) (procs : Option (List UInt32)) : Paired (s.target_tick procs) := by
  unfold runtime_t.target_tick
  split
  · split
    · exact h
    · exact h.close
  · exact h

theorem Paired.step {op : op_t} (h : Paired s) (hok : Steady s op) (hstep : s.step op = some s') : Paired s' := by
  cases op with
  | target_attach_close =>
    cases hstep
    exact h.close
  | target_attach_open pid env =>
    obtain ⟨hnone, hs'⟩ := Option.ite_none_right_eq_some.mp hstep
    cases hs'
    exact h.open (Option.isNone_iff_eq_none.mp hnone) pid env
  | target_detach =>
    cases hstep
    exact h.close
  | target_tick procs =>
    cases hstep
    exact h.target_tick procs
  | read =>
    obtain ⟨ses, hses, rfl⟩ := Option.map_eq_some_iff.mp hstep
    exact h.memory hses (hok ses hses)
  | write =>
    obtain ⟨ses, hses, rfl⟩ := Option.map_eq_some_iff.mp hstep
    exact h.memory hses (hok ses hses)
  | set_backend_preference pref first second =>
    cases hstep
    exact h.set_backend_preference hok
  | registry_init first second =>
    cases hstep
    exact h.registry_init hok

/-- As long as the registry does not leave the kernel backend under an open session of it, and
the kernel backend is not made to read by a handle of the other, handles stay where they belong,
and every handle of the system is closed exactly once. -/
theorem handles_stay_with_backend
    (hreach : Relation.ReflTransGen (Transition.Step Steady runtime_t.step) {} s) : s.HandlesKept := by
  have hpaired : Paired s := Transition.invariant Paired.init (fun _ _ _ h hok hstep => h.step hok hstep) hreach
  exact hpaired.handles_kept

end

/-- A session of the user-mode backend is read and closed, and then one of the kernel backend. -/
theorem sessions_follow_backend :
    ∃ s : runtime_t, s.log = [.opened 4, .access 4, .close 4] ∧ s.passed.length = 4 ∧ s.HandlesKept := by
  have hreach : Relation.ReflTransGen (Transition.Step Steady runtime_t.step) {} _ :=
    .head ⟨.registry_init false false, fun _ hses => (by cases hses), rfl⟩ <|
      .head ⟨.target_attach_open 8 { all := some ⟨4, by decide, rfl⟩ }, trivial, rfl⟩ <|
      .head ⟨.read, fun _ _ _ => Or.inl rfl, rfl⟩ <| .head ⟨.target_detach, trivial, rfl⟩ <|
      .head ⟨.set_backend_preference .auto_detect true true, fun _ hses => (by cases hses), rfl⟩ <|
      .head ⟨.target_attach_open 8 { connects := true, dtb := 0x1000 }, trivial, rfl⟩ <|
      .head ⟨.read, fun _ hses hopener => (by cases hses; cases hopener), rfl⟩ <| .head ⟨.target_detach, trivial, rfl⟩ .refl
  exact ⟨_, rfl, rfl, handles_stay_with_backend hreach⟩

/-- The user-mode backend becomes the active one under a session of the kernel backend, and
closes the value that stands in its handle. -/
theorem sentinel_is_closed :
    ¬ ∀ s : runtime_t, Relation.ReflTransGen (Transition.Step (fun _ _ => True) runtime_t.step) {} s → s.HandlesKept := by
  have hreach : Relation.ReflTransGen (Transition.Step (fun (_ : runtime_t) _ => True) runtime_t.step) {} _ :=
    .head ⟨.registry_init true true, trivial, rfl⟩ <|
      .head ⟨.target_attach_open 8 { connects := true, dtb := 0x1000 }, trivial, rfl⟩ <|
      .head ⟨.set_backend_preference .force_user false false, trivial, rfl⟩ <|
      .head ⟨.target_detach, trivial, rfl⟩ .refl
  intro hlaw
  exact (hlaw _ hreach).system (.close kernel_sentinel) List.mem_cons_self rfl

end slop.core.runtime
