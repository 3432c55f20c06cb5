import ReverseSlop.Core.Debugger.Moves

namespace slop.core.debugger

open runtime Buffer

/-- Every thread stands at the same instruction. -/
def SameRip (t t' : target_t) : Prop := ∀ tid, (t'.threads tid).rip = (t.threads tid).rip

/-- Nobody writes a register and no event comes in. -/
def LeavesRegisters : action_t → Prop
  | .command (.set_register _ _) | .event _ => False
  | _ => True

theorem SameRip.refl (t : target_t) : SameRip t t := fun _ => rfl

theorem SameRip.trans {t t' t'' : target_t} (h : SameRip t t') (h' : SameRip t' t'') : SameRip t t'' :=
  fun tid => (h' tid).trans (h tid)

theorem SameRip.of_threads {t t' : target_t} (h : t'.threads = t.threads) : SameRip t t' := fun tid => by rw [h]

theorem protect_memory_threads {io : backend_t} {t t' : target_t} {addr len : UInt64} {prot prev : UInt32}
    (hprotect : io.protect_memory t addr len prot = some (t', prev)) : t'.threads = t.threads := by
  unfold backend_t.protect_memory at hprotect
  split at hprotect <;> cases hprotect
  rfl

theorem write_memory_threads {io : backend_t} {t t' : target_t} {addr : UInt64} {val : UInt8}
    (hwrite : io.write_memory t addr val = some t') : t'.threads = t.threads := by
  unfold backend_t.write_memory at hwrite
  split at hwrite <;> cases hwrite
  rfl

theorem write_byte_stealth_threads (io : backend_t) (t : target_t) (va : UInt64) (val : UInt8) :
    (write_byte_stealth io t va val).1.threads = t.threads := by
  unfold write_byte_stealth
  cases hprotect : io.protect_memory t (va &&& ~~~0xFFF) 0x1000 0x04 with
  | none => simp only [hprotect]
  | some r =>
    obtain ⟨t₁, prev⟩ := r
    have hfirst := protect_memory_threads hprotect
    simp only [hprotect]
    cases hwrite : io.write_memory t₁ va val with
    | none =>
      simp only
      split
      · exact hfirst
      · rename_i hback
        exact (protect_memory_threads hback).trans hfirst
    | some t₂ =>
      have hsecond := (write_memory_threads hwrite).trans hfirst
      simp only
      split
      · exact hsecond
      · rename_i hback
        exact (protect_memory_threads hback).trans hsecond

theorem arm_bp_threads (io : backend_t) (t : target_t) (bp : breakpoint_t) : (arm_bp io t bp).1.threads = t.threads := by
  have hwrite := write_byte_stealth_threads io t bp.addr 0xCC
  unfold arm_bp
  split
  · rfl
  · split
    · rfl
    · split <;> rename_i heq <;> rw [heq] at hwrite <;> exact hwrite

theorem disarm_bp_threads (io : backend_t) (t : target_t) (bp : breakpoint_t) :
    (disarm_bp io t bp).1.threads = t.threads := by
  have hwrite := write_byte_stealth_threads io t bp.addr bp.orig_byte
  unfold disarm_bp
  split
  · rfl
  · split <;> rename_i heq <;> rw [heq] at hwrite <;> exact hwrite

theorem on_entry_threads {op : target_t → breakpoint_t → target_t × breakpoint_t}
    (hop : ∀ t bp, (op t bp).1.threads = t.threads) (s : debugger_t) (i : Nat) :
    (s.on_entry op i).target.threads = s.target.threads := by
  unfold debugger_t.on_entry
  split
  · rfl
  · exact hop _ _

theorem set_thread_rip {t : target_t} {tid : UInt32} {ctx : thread_context_t} (hrip : ctx.rip = (t.threads tid).rip) :
    SameRip t (t.set_thread tid ctx) := by
  intro other
  by_cases h : other = tid
  · rw [h, target_t.set_thread_self, hrip]
  · rw [target_t.set_thread]
    exact congrArg thread_context_t.rip (if_neg h)

/-- The trap flag does not move a thread. -/
theorem set_tf_rip (io : backend_t) (t : target_t) (tid : UInt32) (on : Bool) : SameRip t (set_tf io t tid on) := by
  unfold set_tf backend_t.get_thread_context backend_t.set_thread_context
  cases io.get_context_ok tid with
  | false => exact SameRip.refl t
  | true =>
    cases io.set_context_ok tid with
    | false => exact SameRip.refl t
    | true => exact set_thread_rip rfl

section

variable {host : host_t} {io : backend_t} {s : debugger_t}

theorem rearm_hit_threads {t : debugger_t} (hrearm : s.rearm_hit io = some t) : t.target.threads = s.target.threads := by
  unfold debugger_t.rearm_hit at hrearm
  split at hrearm
  · cases hrearm
    rfl
  · split at hrearm
    · cases hrearm
    · split at hrearm
      · cases hrearm
        rfl
      · cases hrearm
        exact on_entry_threads (arm_bp_threads io) s _

theorem plant_temp_threads (grow : Growth) (io : backend_t) (s : debugger_t) (temp_addr : UInt64) :
    (s.plant_temp grow io temp_addr).target.threads = s.target.threads := by
  unfold debugger_t.plant_temp
  split
  · rfl
  · split
    · rfl
    · rename_i hwrite
      exact write_memory_threads hwrite

theorem detach_disarm_threads (io : backend_t) (s : debugger_t) : (s.detach_disarm io).target.threads = s.target.threads := by
  have hrestore : ∀ (l : List watchpoint_t) (t : target_t), (l.foldl (restore_watch io) t).threads = t.threads := by
    intro l
    induction l with
    | nil => exact fun _ => rfl
    | cons w l ih =>
      intro t
      rw [List.foldl_cons, ih, restore_watch]
      cases hprotect : io.protect_memory t w.addr w.len w.orig_prot with
      | none => rfl
      | some r => exact protect_memory_threads hprotect
  have hdisarm : ∀ (l : List Nat) (s : debugger_t),
      (l.foldl (fun s i => s.disarm_at io i) s).target.threads = s.target.threads := by
    intro l
    induction l with
    | nil => exact fun _ => rfl
    | cons i l ih =>
      intro s
      rw [List.foldl_cons, ih, on_entry_threads (disarm_bp_threads io)]
  rw [debugger_t.detach_disarm, hrestore, hdisarm]

theorem command_rip (host : host_t) (io : backend_t) (s : debugger_t) {c : command_t}
    (hc : LeavesRegisters (.command c)) : SameRip s.target (s.command host io c).target := by
  refine SameRip.of_threads ?_
  cases c with
  | set_sw_breakpoint va =>
    have hwrite := write_byte_stealth_threads io s.target va 0xCC
    rw [debugger_t.command, debugger_t.set_sw_breakpoint]
    split
    · rfl
    · split
      · rfl
      · split <;> rename_i heq <;> rw [heq] at hwrite <;> exact hwrite
  | set_hw_breakpoint va len type =>
    rw [debugger_t.command, debugger_t.set_hw_breakpoint]
    split
    · rfl
    · dsimp only
      split
      · rfl
      · split <;> rfl
  | clear_breakpoint va =>
    rw [debugger_t.command, debugger_t.clear_breakpoint]
    split
    · rfl
    · exact on_entry_threads (disarm_bp_threads io) s _
  | configure_breakpoint va condition log_text auto_continue one_shot =>
    rw [debugger_t.command, debugger_t.configure_breakpoint]
    split <;> rfl
  | set_register name value => exact hc.elim
  | go | step_into | step_out => rfl
  | step_over =>
    rw [debugger_t.command, debugger_t.step_over]
    split <;> rfl

theorem wake_rip {s' : debugger_t} {tid : UInt32} (hwake : s.loop_wake host.grow io tid = some s') :
    SameRip s.target s'.target := by
  unfold debugger_t.loop_wake at hwake
  split at hwake
  · cases hwake
    exact SameRip.refl _
  · obtain ⟨t, hplan, rfl⟩ := Option.map_eq_some_iff.mp hwake
    unfold debugger_t.apply_plan at hplan
    cases hkind : s.pending_plan.kind with
    | trap_flag =>
      simp only [hkind, Option.some.injEq] at hplan
      subst hplan
      exact set_tf_rip io s.target tid true
    | temp_breakpoint =>
      simp only [hkind, Option.map_eq_some_iff] at hplan
      obtain ⟨u, hrearm, rfl⟩ := hplan
      have hsame := (rearm_hit_threads hrearm).trans (plant_temp_threads _ _ _ _)
      exact SameRip.of_threads hsame
    | none =>
      simp only [hkind, Option.map_eq_some_iff] at hplan
      obtain ⟨u, hrearm, rfl⟩ := hplan
      have hsame := rearm_hit_threads hrearm
      exact SameRip.of_threads hsame

/-- Nothing but an event or a written register moves a thread. -/
theorem step_rip {s' : debugger_t} {a : action_t} (ha : LeavesRegisters a) (hstep : s.step host io a = some s') :
    SameRip s.target s'.target := by
  cases a with
  | command c =>
    cases hstep
    exact command_rip host io s ha
  | event ev => exact ha.elim
  | wake =>
    cases hloop : s.loop with
    | paused tid status =>
      simp only [debugger_t.step, hloop] at hstep
      exact wake_rip hstep
    | top | waiting | exited =>
      simp only [debugger_t.step, hloop, Option.some.injEq] at hstep
      rw [hstep]
      exact SameRip.refl _
  | detach_disarm =>
    cases hstep
    exact SameRip.of_threads (detach_disarm_threads io s)
  | poll | timeout | detach_quit | detach_finish =>
    cases hstep
    exact SameRip.refl _

theorem bp_hit_rip (io : backend_t) (s : debugger_t) (e : exception_t) (i : Nat) (bp : breakpoint_t) :
    SameRip s.target (s.bp_hit io e i bp).1.target := by
  have hdisarm := SameRip.of_threads (on_entry_threads (disarm_bp_threads io) s i)
  unfold debugger_t.bp_hit
  dsimp only
  split
  · exact hdisarm.trans (set_tf_rip io _ e.tid true)
  · split
    · exact hdisarm.trans (set_tf_rip io _ e.tid true)
    · exact hdisarm

theorem handle_breakpoint_rip (io : backend_t) (s : debugger_t) (e : exception_t) :
    SameRip s.target (s.handle_breakpoint io e).1.target := by
  have hdisarm := fun i => SameRip.of_threads (on_entry_threads (disarm_bp_threads io) s i)
  unfold debugger_t.handle_breakpoint
  cases hfind : bp_store_t.find s.bps (e.address - 1) with
  | none =>
    simp only [hfind, Option.bind_none]
    split <;> rw [debugger_t.target_push_event] <;> exact SameRip.refl _
  | some i =>
    obtain ⟨bp, hget, -⟩ := bp_store_t.find_some hfind
    simp only [hfind, Option.bind_some, hget, Option.map_some]
    split
    · exact bp_hit_rip io s e i bp
    · split
      · rw [debugger_t.target_push_event]
        exact hdisarm i
      · rw [debugger_t.target_push_event]
        exact SameRip.refl _

theorem settle_target (io : backend_t) (ev : win_event_t) (r : debugger_t × outcome_t) :
    (settle io ev r).target = r.1.target := by
  obtain ⟨t, outcome⟩ := r
  cases outcome <;> rfl

/-- After a breakpoint exception the thread stands where it was reported. -/
theorem breakpoint_event_rip {e : exception_t} {s₁ : debugger_t} (hcode : e.code = kStatusBreakpoint)
    (hevent : s.loop_event io (.exception e) = some s₁) : (s₁.target.threads e.tid).rip = e.ctx.rip := by
  rw [loop_event_settle, Option.map_eq_some_iff] at hevent
  obtain ⟨r, hr, rfl⟩ := hevent
  rw [debugger_t.handle_event, debugger_t.handle_exception, if_pos hcode, Option.some.injEq] at hr
  rw [settle_target, ← hr, handle_breakpoint_rip io _ e e.tid]
  exact congrArg thread_context_t.rip (target_t.set_thread_self s.target e.tid e.ctx)

end

/-- Where the exception reports RIP one past the int3 of an entry, the thread stands one
past its address for as long as no event comes in and no register is written,
however it is left: it never goes on at the original instruction. -/
theorem hit_thread_skips_first_byte (host : host_t) {io : backend_t} {s s₁ s' : debugger_t} {e : exception_t} {i : Nat}
    {bp : breakpoint_t} (hcode : e.code = kStatusBreakpoint) (hrip : e.ctx.rip = e.address)
    (hfind : bp_store_t.find s.bps (e.address - 1) = some i) (hget : s.bps.elems[i]? = some bp)
    (hevent : s.loop_event io (.exception e) = some s₁)
    (hleave : Relation.ReflTransGen (Step host fun _ _ a => LeavesRegisters a) s₁ s') :
    (s'.target.threads e.tid).rip = bp.addr + 1 ∧ (s'.target.threads e.tid).rip ≠ bp.addr := by
  have hsame : SameRip s₁.target s'.target := by
    refine Transition.invariant (I := fun s' => SameRip s₁.target s'.target) (SameRip.refl _) ?_ hleave
    rintro t ⟨io, a⟩ t' ht ⟨-, ha⟩ hstep
    exact ht.trans (step_rip ha hstep)
  obtain ⟨b, hb, haddr⟩ := bp_store_t.find_some hfind
  obtain rfl : bp = b := Option.some.inj (hget.symm.trans hb)
  have hstands : (s'.target.threads e.tid).rip = bp.addr + 1 := by
    rw [hsame e.tid, breakpoint_event_rip hcode hevent, hrip, haddr, UInt64.sub_add_cancel]
  refine ⟨hstands, ?_⟩
  rw [hstands]
  intro h
  simp at h

/-- A session that waits for events with one tracepoint set. -/
def traced_session : debugger_t :=
  { ((debugger_t.attached (filled_target 0x90)).command plain_host user_backend (.set_sw_breakpoint 0x401000)).command
      plain_host user_backend (.configure_breakpoint 0x401000 "" "here" false false) with loop := .waiting }

/-- The int3 of the tracepoint is executed. -/
def tracepoint_exception : exception_t where
  tid := 1
  code := kStatusBreakpoint
  address := 0x401001
  ctx := { rip := 0x401001 }

theorem traced_session_reached :
    Relation.ReflTransGen (Step plain_host fun io _ _ => io.MemoryWorks) (debugger_t.attached (filled_target 0x90))
      traced_session := by
  refine Relation.ReflTransGen.head ⟨(user_backend, .command (.set_sw_breakpoint 0x401000)), ⟨?_, user_backend_works⟩,
    rfl⟩ ?_
  · decide
  refine Relation.ReflTransGen.head ⟨(user_backend, .command (.configure_breakpoint 0x401000 "" "here" false false)),
    ⟨?_, user_backend_works⟩, rfl⟩ ?_
  · decide
  refine Relation.ReflTransGen.single ⟨(user_backend, .poll), ⟨?_, user_backend_works⟩, ?_⟩
  · decide
  · rfl

theorem tracepoint_found : ∃ bp s₁, bp_store_t.find traced_session.bps 0x401000 = some 0 ∧
    traced_session.bps.elems[0]? = some bp ∧ bp.armed = true ∧ bp.addr = 0x401000 ∧
    traced_session.loop_event user_backend (.exception tracepoint_exception) = some s₁ ∧ s₁.loop = .top := by
  have hfind : bp_store_t.find traced_session.bps 0x401000 = some 0 := by decide
  have harmed : (traced_session.bps.elems[0]?).any (fun bp => bp.armed && bp.addr = 0x401000) = true := by
    decide
  have htop : (traced_session.loop_event user_backend (.exception tracepoint_exception)).any
      (fun s => s.loop = .top) = true := by
    decide
  obtain ⟨bp, hget, hbp⟩ := (Option.any_eq_true _ _).mp harmed
  obtain ⟨s₁, hevent, hloop⟩ := (Option.any_eq_true _ _).mp htop
  obtain ⟨hset, haddr⟩ := Bool.and_eq_true_iff.mp hbp
  exact ⟨bp, s₁, hfind, hget, hset, of_decide_eq_true haddr, hevent, of_decide_eq_true hloop⟩

/-- The thread that hits the tracepoint goes on one byte behind it. -/
theorem tracepoint_skips_first_byte : ∃ bp s₁, traced_session.bps.elems[0]? = some bp ∧
    traced_session.loop_event user_backend (.exception tracepoint_exception) = some s₁ ∧
    ((s₁.target.threads 1).rip = bp.addr + 1 ∧ (s₁.target.threads 1).rip ≠ bp.addr) := by
  obtain ⟨bp, s₁, hfind, hget, -, -, hevent, -⟩ := tracepoint_found
  exact ⟨bp, s₁, hget, hevent,
    hit_thread_skips_first_byte plain_host rfl rfl hfind hget hevent Relation.ReflTransGen.refl⟩

/-- A tracepoint is not transparent: its thread does not go on at the original
instruction. -/
theorem tracepoint_not_transparent :
    ¬ ∀ (host : host_t) (io : backend_t) (target : target_t) (s s₁ s' : debugger_t) (e : exception_t) (i : Nat)
      (bp : breakpoint_t),
      Relation.ReflTransGen (Step host fun io _ _ => io.MemoryWorks) (debugger_t.attached target) s →
      e.code = kStatusBreakpoint → e.ctx.rip = e.address → bp_store_t.find s.bps (e.address - 1) = some i →
      s.bps.elems[i]? = some bp → bp.armed = true → s.Enabled (.event (.exception e)) →
      s.loop_event io (.exception e) = some s₁ → Relation.ReflTransGen (Step host fun _ _ a => LeavesRegisters a) s₁ s' →
      s'.loop = .top → (s'.target.threads e.tid).rip = bp.addr := by
  intro hlaw
  obtain ⟨bp, s₁, hfind, hget, harmed, haddr, hevent, hloop⟩ := tracepoint_found
  have hthere := hlaw plain_host user_backend _ _ s₁ s₁ tracepoint_exception 0 bp traced_session_reached rfl rfl hfind
    hget harmed rfl hevent Relation.ReflTransGen.refl hloop
  rw [breakpoint_event_rip rfl hevent, haddr] at hthere
  exact absurd hthere (by decide)

end slop.core.debugger
