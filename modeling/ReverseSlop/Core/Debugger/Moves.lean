import ReverseSlop.Core.Debugger.Loop
import Mathlib.Logic.Function.Basic

namespace slop.core.debugger

open runtime Buffer

/-- What the laws about breakpoints see of a session. -/
structure bp_view_t where
  mem : UInt64 → UInt8
  bps : bp_store_t
  hit_bp : Option Ptr
  hit_site : UInt64
  set_sites : List UInt64
  landed : Option UInt64
  plan : step_action_t
  resume_mode : resume_mode_t
  state : dbg_state_t
  quit : Bool
  paused : Bool
  detaching : detach_pc_t

def debugger_t.view (s : debugger_t) : bp_view_t where
  mem := s.target.mem
  bps := s.bps
  hit_bp := s.hit_bp
  hit_site := s.hit_site
  set_sites := s.set_sites
  landed := s.landed
  plan := s.pending_plan
  resume_mode := s.resume_mode
  state := s.state
  quit := s.quit
  paused := s.loop.is_paused
  detaching := s.detaching

@[simp] theorem debugger_t.view_bps (s : debugger_t) : s.view.bps = s.bps := rfl

@[simp] theorem debugger_t.view_mem (s : debugger_t) : s.view.mem = s.target.mem := rfl

@[simp] theorem debugger_t.view_hit_bp (s : debugger_t) : s.view.hit_bp = s.hit_bp := rfl

@[simp] theorem debugger_t.view_plan (s : debugger_t) : s.view.plan = s.pending_plan := rfl

@[simp] theorem debugger_t.view_resume_mode (s : debugger_t) : s.view.resume_mode = s.resume_mode := rfl

@[simp] theorem debugger_t.view_quit (s : debugger_t) : s.view.quit = s.quit := rfl

@[simp] theorem debugger_t.view_detaching (s : debugger_t) : s.view.detaching = s.detaching := rfl

@[simp] theorem debugger_t.view_paused (s : debugger_t) : s.view.paused = s.loop.is_paused := rfl

/-- `write_byte_stealth` writes. -/
def stealth_ok (io : backend_t) (va : UInt64) : Bool := io.protect_ok (va &&& ~~~0xFFF) 0x1000 0x04 && io.write_ok va

/-- An int3 can be put at an address. -/
def can_arm (io : backend_t) (va : UInt64) : Bool := io.read_ok va 1 && stealth_ok io va

def arm (io : backend_t) (mem : UInt64 → UInt8) (bp : breakpoint_t) : (UInt64 → UInt8) × breakpoint_t :=
  if bp.armed || bp.hardware || !can_arm io bp.addr then (mem, bp)
  else (Function.update mem bp.addr 0xCC, { bp with orig_byte := mem bp.addr, armed := true })

def disarm (io : backend_t) (mem : UInt64 → UInt8) (bp : breakpoint_t) : (UInt64 → UInt8) × breakpoint_t :=
  if !bp.armed || bp.hardware || !stealth_ok io bp.addr then (mem, bp)
  else (Function.update mem bp.addr bp.orig_byte, { bp with armed := false })

/-- An int3 stays when another is written. -/
theorem update_int3 {mem : UInt64 → UInt8} {t : UInt64} (hmem : mem t = 0xCC) (a : UInt64) :
    Function.update mem a 0xCC t = 0xCC := by
  rw [Function.update_apply, hmem, ite_self]

theorem disarm_unarmed {io : backend_t} {mem : UInt64 → UInt8} {bp : breakpoint_t} (hunarmed : bp.armed = false) :
    disarm io mem bp = (mem, bp) := by
  rw [disarm, hunarmed]
  rfl

theorem target_t.mem_poke_update (t : target_t) (va : UInt64) (val : UInt8) :
    (t.poke va val).mem = Function.update t.mem va val := by
  funext a
  rw [target_t.mem_poke, Function.update_apply]

theorem protect_memory_mem {io : backend_t} {t t' : target_t} {addr len : UInt64} {prot prev : UInt32}
    (hprotect : io.protect_memory t addr len prot = some (t', prev)) : t'.mem = t.mem := by
  rw [backend_t.protect_memory] at hprotect
  split at hprotect <;> cases hprotect
  rfl

theorem protect_memory_isSome (io : backend_t) (t : target_t) (addr len : UInt64) (prot : UInt32) :
    (io.protect_memory t addr len prot).isSome = io.protect_ok addr len prot := by
  rw [backend_t.protect_memory]
  cases io.protect_ok addr len prot <;> rfl

/-- The byte is written exactly when the page takes the protection and the write. -/
theorem write_byte_stealth_spec (io : backend_t) (t : target_t) (va : UInt64) (val : UInt8) :
    (write_byte_stealth io t va val).2 = stealth_ok io va ∧ (write_byte_stealth io t va val).1.mem =
      if stealth_ok io va then Function.update t.mem va val else t.mem := by
  have hworks := protect_memory_isSome io t (va &&& ~~~0xFFF) 0x1000 0x04
  rw [write_byte_stealth, stealth_ok]
  cases hprotect : io.protect_memory t (va &&& ~~~0xFFF) 0x1000 0x04 with
  | none =>
    rw [hprotect] at hworks
    simp only [← hworks, Option.isSome_none, Bool.false_and, Bool.false_eq_true, if_false, and_self]
  | some r =>
    obtain ⟨t₁, prev⟩ := r
    have hsame := protect_memory_mem hprotect
    rw [hprotect] at hworks
    simp only [← hworks, Option.isSome_some, Bool.true_and]
    cases hwrite : io.write_ok va with
    | false =>
      simp only [backend_t.write_memory, hwrite, Bool.false_eq_true, if_false]
      split
      · exact ⟨rfl, hsame⟩
      · rename_i hback
        exact ⟨rfl, (protect_memory_mem hback).trans hsame⟩
    | true =>
      simp only [backend_t.write_memory, hwrite, if_true]
      have hpoke := target_t.mem_poke_update t₁ va val
      rw [hsame] at hpoke
      split
      · exact ⟨rfl, hpoke⟩
      · rename_i hback
        exact ⟨rfl, (protect_memory_mem hback).trans hpoke⟩

/-- `arm_bp`, without the protections. -/
theorem arm_bp_arm (io : backend_t) (t : target_t) (bp : breakpoint_t) :
    ((arm_bp io t bp).1.mem, (arm_bp io t bp).2) = arm io t.mem bp := by
  obtain ⟨hok, hmem⟩ := write_byte_stealth_spec io t bp.addr 0xCC
  rw [arm_bp, arm, can_arm, backend_t.read_byte]
  cases hset : bp.armed || bp.hardware with
  | true => rfl
  | false =>
    cases hread : io.read_ok bp.addr 1 with
    | false => rfl
    | true =>
      cases hwritten : write_byte_stealth io t bp.addr 0xCC with
      | mk t₁ ok =>
        rw [hwritten] at hok hmem
        simp only at hok hmem
        rw [← hok] at hmem
        cases ok <;> simp [← hok, hmem]

/-- `disarm_bp`, without the protections. -/
theorem disarm_bp_disarm (io : backend_t) (t : target_t) (bp : breakpoint_t) :
    ((disarm_bp io t bp).1.mem, (disarm_bp io t bp).2) = disarm io t.mem bp := by
  obtain ⟨hok, hmem⟩ := write_byte_stealth_spec io t bp.addr bp.orig_byte
  rw [disarm_bp, disarm]
  cases hset : !bp.armed || bp.hardware with
  | true => rfl
  | false =>
    cases hwritten : write_byte_stealth io t bp.addr bp.orig_byte with
    | mk t₁ ok =>
      rw [hwritten] at hok hmem
      simp only at hok hmem
      rw [← hok] at hmem
      cases ok <;> simp [← hok, hmem]

namespace bp_view_t

def on_entry (op : (UInt64 → UInt8) → breakpoint_t → (UInt64 → UInt8) × breakpoint_t) (v : bp_view_t) (i : Nat) :
    bp_view_t :=
  match v.bps.elems[i]? with
  | none => v
  | some bp => { v with mem := (op v.mem bp).1, bps := v.bps.modify i fun _ => (op v.mem bp).2 }

def disarm_all (io : backend_t) (v : bp_view_t) : bp_view_t :=
  (List.range v.bps.elems.length).foldl (fun v i => v.on_entry (disarm io) i) v

def rearm_hit (io : backend_t) (v : bp_view_t) : Option bp_view_t :=
  match v.hit_bp with
  | none => some v
  | some p =>
    match v.bps.deref p with
    | none => none
    | some bp =>
      if bp.one_shot then
        some { v with
          bps := bp_store_t.remove v.bps bp.addr
          hit_bp := none
          set_sites := v.set_sites.filter (· ≠ bp.addr) }
      else some { v.on_entry (arm io) p.index with hit_bp := none }

def plant_temp (grow : Growth) (io : backend_t) (v : bp_view_t) : bp_view_t :=
  if io.read_ok v.plan.temp_addr 1 && io.write_ok v.plan.temp_addr then
    { v with
      mem := Function.update v.mem v.plan.temp_addr 0xCC
      bps := bp_store_t.add grow v.bps v.plan.temp_addr (v.mem v.plan.temp_addr) false }
  else v

/-- The entry at a position is hit. -/
def hit (io : backend_t) (v : bp_view_t) (i : Nat) (bp : breakpoint_t) : bp_view_t :=
  let w := v.on_entry (disarm io) i
  { w with
    bps := w.bps.modify i fun b => { b with hits := b.hits + 1 }
    hit_bp := some (w.bps.ptr i)
    hit_site := bp.addr }

def pause (v : bp_view_t) : bp_view_t := { v with state := .paused, resume_mode := .none, paused := true }

/-- The thread is released after the user's plan has been carried out. -/
def release (v : bp_view_t) (resume_mode : resume_mode_t) : bp_view_t :=
  { v with resume_mode, state := .running, landed := none, paused := false }

/-- A temporary breakpoint at this address is what the queued plan waits for. -/
def Planned (v : bp_view_t) (site : UInt64) : Prop :=
  v.resume_mode = .apply_plan ∧ v.plan.kind = .temp_breakpoint ∧ site = v.plan.temp_addr

instance (v : bp_view_t) (site : UInt64) : Decidable (v.Planned site) := inferInstanceAs (Decidable (_ ∧ _ ∧ _))

end bp_view_t

/-- The breakpoint exceptions that are not hits. -/
def bp_view_t.NotArmed (v : bp_view_t) (site : UInt64) : Prop :=
  ∀ i bp, bp_store_t.find v.bps site = some i → v.bps.elems[i]? = some bp → bp.armed = false

/-- What a step can do to the breakpoints. -/
inductive Moves (host : host_t) (io : backend_t) (v : bp_view_t) : action_t → bp_view_t → Prop
  | idle (a : action_t) : Moves host io v a v
  | request (c : command_t) (plan : step_action_t) (hc : c = .go ∨ c = .step_into ∨ c = .step_over ∨ c = .step_out) :
    Moves host io v (.command c) { v with plan, resume_mode := .apply_plan }
  | set_sw (va : UInt64) (hfind : bp_store_t.find v.bps va = none) (harm : can_arm io va = true) :
    Moves host io v (.command (.set_sw_breakpoint va)) { v with
      mem := Function.update v.mem va 0xCC
      bps := v.bps.push_back host.grow { addr := va, orig_byte := v.mem va, armed := true }
      set_sites := va :: v.set_sites }
  | set_hw (va : UInt64) (len type : UInt32) (bp : breakpoint_t) (hfind : bp_store_t.find v.bps va = none)
    (hslot : (bp_store_t.free_slot v.bps).isSome = true) (hok : io.set_hw_ok = true) (haddr : bp.addr = va)
    (hkind : bp.armed = false ∧ bp.temporary = false) :
    Moves host io v (.command (.set_hw_breakpoint va len type)) { v with bps := v.bps.push_back host.grow bp }
  | clear (va : UInt64) (i : Nat) (hfind : bp_store_t.find v.bps va = some i) :
    Moves host io v (.command (.clear_breakpoint va)) { v.on_entry (disarm io) i with
      bps := bp_store_t.remove (v.on_entry (disarm io) i).bps va
      set_sites := v.set_sites.filter (· ≠ va) }
  | configure (va : UInt64) (condition log_text : String) (auto_continue one_shot : Bool) (i : Nat)
    (hfind : bp_store_t.find v.bps va = some i) :
    Moves host io v (.command (.configure_breakpoint va condition log_text auto_continue one_shot)) { v with
      bps := v.bps.modify i fun bp => bp.configure condition log_text auto_continue one_shot }
  | stop (ev : win_event_t) (hpaused : v.paused = false) : Moves host io v (.event ev) { v with state := .idle, quit := true }
  | pause (ev : win_event_t) (h : ∀ e, ev = .exception e → e.code ≠ kStatusBreakpoint) :
    Moves host io v (.event ev) v.pause
  | foreign (e : exception_t) (landed : Option UInt64) (hnot : v.NotArmed (e.address - 1))
    (hlanded : landed.isSome → ∃ b ∈ v.bps.elems, b.temporary = true) :
    Moves host io v (.event (.exception e)) { v.pause with landed }
  | hit (e : exception_t) (i : Nat) (bp : breakpoint_t) (stops : Bool) (hcode : e.code = kStatusBreakpoint)
    (hfind : bp_store_t.find v.bps (e.address - 1) = some i) (hget : v.bps.elems[i]? = some bp)
    (harmed : bp.armed = true) :
    Moves host io v (.event (.exception e))
      (if stops then (v.hit io i bp).pause else { v.hit io i bp with resume_mode := .step_rearm })
  | land (e : exception_t) (i : Nat) (landed : Option UInt64) (hcode : e.code = kStatusBreakpoint)
    (hplanned : v.Planned (e.address - 1)) (hfind : bp_store_t.find v.bps (e.address - 1) = some i)
    (hnot : v.NotArmed (e.address - 1)) (hlanded : landed.isSome → ∃ b ∈ v.bps.elems, b.temporary = true) :
    Moves host io v (.event (.exception e)) { (v.on_entry (disarm io) i).pause with
      bps := bp_store_t.remove (v.on_entry (disarm io) i).bps (e.address - 1)
      landed }
  | rearm (e : exception_t) (w : bp_view_t) (stops : Bool) (hmode : v.resume_mode = .step_rearm)
    (hcode : e.code = kStatusSingleStep) (hrearm : v.rearm_hit io = some w) :
    Moves host io v (.event (.exception e)) (if stops then w.pause else { w with resume_mode := .none })
  | quit (hquit : v.quit = true) (hpaused : v.paused = true) :
    Moves host io v .wake { v with resume_mode := .none, landed := none, paused := false }
  | step (hquit : v.quit = false) (hkind : v.plan.kind = .trap_flag) :
    Moves host io v .wake (v.release (if v.hit_bp.isSome then .step_rearm else .none))
  | plant (w : bp_view_t) (hquit : v.quit = false) (hkind : v.plan.kind = .temp_breakpoint)
    (hrearm : (v.plant_temp host.grow io).rearm_hit io = some w) : Moves host io v .wake (w.release .none)
  | go (w : bp_view_t) (hquit : v.quit = false) (hkind : v.plan.kind = .none) (hrearm : v.rearm_hit io = some w) :
    Moves host io v .wake (w.release .none)
  | detach_disarm : Moves host io v .detach_disarm { v.disarm_all io with detaching := .disarmed }
  | detach_quit (hfrom : v.detaching ≠ .none) : Moves host io v .detach_quit { v with quit := true, detaching := .joining }
  | detach_finish (hfrom : v.detaching ≠ .none) : Moves host io v .detach_finish { v with
      bps := v.bps.clear
      hit_bp := none
      set_sites := []
      state := .idle
      detaching := .done }

section

variable {host : host_t} {io : backend_t} {s : debugger_t}

theorem on_entry_view {op : target_t → breakpoint_t → target_t × breakpoint_t}
    {op' : (UInt64 → UInt8) → breakpoint_t → (UInt64 → UInt8) × breakpoint_t}
    (hop : ∀ t bp, ((op t bp).1.mem, (op t bp).2) = op' t.mem bp) (s : debugger_t) (i : Nat) :
    (s.on_entry op i).view = s.view.on_entry op' i := by
  rw [debugger_t.on_entry, bp_view_t.on_entry]
  cases hget : s.bps.elems[i]? with
  | none => rw [debugger_t.view_bps, hget]
  | some bp =>
    have h := hop s.target bp
    rw [Prod.ext_iff] at h
    rw [debugger_t.view_bps, hget, debugger_t.view_mem]
    simp only [← h.1, ← h.2]
    rfl

theorem on_entry_frame (op : target_t → breakpoint_t → target_t × breakpoint_t) (s : debugger_t) (i : Nat) :
    s.on_entry op i = { s with target := (s.on_entry op i).target, bps := (s.on_entry op i).bps } := by
  rw [debugger_t.on_entry]
  split <;> rfl

theorem arm_at_view (io : backend_t) (s : debugger_t) (i : Nat) : (s.arm_at io i).view = s.view.on_entry (arm io) i :=
  on_entry_view (arm_bp_arm io) s i

theorem disarm_at_view (io : backend_t) (s : debugger_t) (i : Nat) :
    (s.disarm_at io i).view = s.view.on_entry (disarm io) i :=
  on_entry_view (disarm_bp_disarm io) s i

theorem rearm_hit_view (io : backend_t) (s : debugger_t) :
    (s.rearm_hit io).map debugger_t.view = s.view.rearm_hit io := by
  rw [debugger_t.rearm_hit, bp_view_t.rearm_hit]
  rw [debugger_t.view_hit_bp, debugger_t.view_bps]
  cases s.hit_bp with
  | none => rfl
  | some p =>
    simp only
    cases s.bps.deref p with
    | none => rfl
    | some bp =>
      simp only
      cases bp.one_shot with
      | true => rfl
      | false =>
        simp only [Bool.false_eq_true, if_false, Option.map_some, ← arm_at_view]
        rfl

theorem rearm_hit_some {t : debugger_t} (hrearm : s.rearm_hit io = some t) : s.view.rearm_hit io = some t.view := by
  rw [← rearm_hit_view, hrearm]
  rfl

theorem rearm_hit_loop {t : debugger_t} (hrearm : s.rearm_hit io = some t) : t.loop = s.loop := by
  rw [debugger_t.rearm_hit] at hrearm
  split at hrearm
  · cases hrearm
    rfl
  · split at hrearm
    · cases hrearm
    · split at hrearm
      · cases hrearm
        rfl
      · cases hrearm
        rw [debugger_t.arm_at, on_entry_frame]

theorem plant_temp_view (grow : Growth) (io : backend_t) (s : debugger_t) :
    (s.plant_temp grow io s.pending_plan.temp_addr).view = s.view.plant_temp grow io := by
  rw [debugger_t.plant_temp, bp_view_t.plant_temp, backend_t.read_byte, backend_t.write_memory]
  rw [debugger_t.view_plan]
  cases io.read_ok s.pending_plan.temp_addr 1 with
  | false => rfl
  | true =>
    cases io.write_ok s.pending_plan.temp_addr with
    | false => rfl
    | true =>
      simp only [if_true, Bool.and_self, debugger_t.view, target_t.mem_poke_update]

theorem view_push_event (s : debugger_t) (e : debug_event_t) : (s.push_event e).view = s.view := by
  rw [debugger_t.view, debugger_t.push_event]
  rfl

theorem set_sw_moves (grow : Growth) (engine : disasm.engine_t) (io : backend_t) (s : debugger_t) (va : UInt64) :
    Moves ⟨grow, engine⟩ io s.view (.command (.set_sw_breakpoint va)) (s.set_sw_breakpoint grow io va).2.view := by
  obtain ⟨hok, hmem⟩ := write_byte_stealth_spec io s.target va 0xCC
  rw [debugger_t.set_sw_breakpoint, backend_t.read_byte]
  cases hfind : bp_store_t.find s.bps va with
  | some i => exact Moves.idle _
  | none =>
    cases hread : io.read_ok va 1 with
    | false => exact Moves.idle _
    | true =>
      cases hwritten : write_byte_stealth io s.target va 0xCC with
      | mk t ok =>
        rw [hwritten] at hok hmem
        simp only at hok hmem
        rw [← hok] at hmem
        cases ok with
        | false =>
          have hsame : ({ s with target := t } : debugger_t).view = s.view := by
            unfold debugger_t.view
            simp only [hmem, Bool.false_eq_true, if_false]
          simp only [Option.isSome_none, Bool.false_eq_true, if_false, if_true, hsame]
          exact Moves.idle _
        | true =>
          have harm : can_arm io va = true := by rw [can_arm, hread, ← hok]; rfl
          simp only [Option.isSome_none, Bool.false_eq_true, if_false, if_true, debugger_t.view] at hmem ⊢
          rw [hmem]
          exact Moves.set_sw (v := s.view) va hfind harm

theorem set_hw_moves (host : host_t) (io : backend_t) (s : debugger_t) (va : UInt64) (len type : UInt32) :
    Moves host io s.view (.command (.set_hw_breakpoint va len type))
      (s.set_hw_breakpoint host.grow io va len type).2.view := by
  rw [debugger_t.set_hw_breakpoint]
  cases hfind : bp_store_t.find s.bps va with
  | some i => exact Moves.idle _
  | none =>
    cases hslot : bp_store_t.free_slot s.bps with
    | none => exact Moves.idle _
    | some slot =>
      cases hok : io.set_hw_ok with
      | false => exact Moves.idle _
      | true =>
        exact Moves.set_hw (v := s.view) va len type _ hfind (Option.isSome_iff_exists.mpr ⟨slot, hslot⟩) hok rfl
          ⟨rfl, rfl⟩

theorem clear_moves (host : host_t) (io : backend_t) (s : debugger_t) (va : UInt64) :
    Moves host io s.view (.command (.clear_breakpoint va)) (s.clear_breakpoint io va).2.view := by
  rw [debugger_t.clear_breakpoint]
  cases hfind : bp_store_t.find s.bps va with
  | none => exact Moves.idle _
  | some i =>
    have hmove : Moves host io s.view (.command (.clear_breakpoint va)) _ := Moves.clear va i hfind
    rw [← disarm_at_view] at hmove
    have hsites : (s.disarm_at io i).set_sites = s.set_sites := by rw [debugger_t.disarm_at, on_entry_frame]
    simp only [debugger_t.view, hsites] at hmove ⊢
    exact hmove

theorem command_moves (host : host_t) (io : backend_t) (s : debugger_t) (c : command_t) :
    Moves host io s.view (.command c) (s.command host io c).view := by
  cases c with
  | set_sw_breakpoint va => exact set_sw_moves host.grow host.engine io s va
  | set_hw_breakpoint va len type => exact set_hw_moves host io s va len type
  | clear_breakpoint va => exact clear_moves host io s va
  | configure_breakpoint va condition log_text auto_continue one_shot =>
    rw [debugger_t.command, debugger_t.configure_breakpoint]
    cases hfind : bp_store_t.find s.bps va with
    | none => exact Moves.idle _
    | some i => exact Moves.configure (v := s.view) va condition log_text auto_continue one_shot i hfind
  | set_register name value =>
    have hsame : (s.set_register io name value).2.view = s.view := by
      unfold debugger_t.set_register backend_t.set_thread_context
      split
      · rfl
      · split
        · rfl
        · simp only
          cases io.set_context_ok s.paused_tid <;> rfl
    rw [debugger_t.command, hsame]
    exact Moves.idle _
  | go => exact Moves.request (v := s.view) _ { kind := .none } (Or.inl rfl)
  | step_into => exact Moves.request (v := s.view) _ { kind := .trap_flag } (Or.inr (Or.inl rfl))
  | step_over =>
    rw [debugger_t.command, debugger_t.step_over]
    cases decode_at host.engine io s.target s.paused_ctx.rip with
    | some insn => exact Moves.request (v := s.view) _ (plan_step_over insn) (Or.inr (Or.inr (Or.inl rfl)))
    | none => exact Moves.request (v := s.view) _ { kind := .trap_flag } (Or.inr (Or.inr (Or.inl rfl)))
  | step_out => exact Moves.request (v := s.view) _ (plan_step_out _) (Or.inr (Or.inr (Or.inr rfl)))

/-- The state after an event has been handled. -/
def settle (io : backend_t) (ev : win_event_t) : debugger_t × outcome_t → debugger_t
  | (s, .continue_with _) => { s with loop := .top }
  | (s, .pause_with status) => s.enter_pause io ev.tid status
  | (s, .stop_all) => { s with state := .idle, quit := true, loop := .exited }

theorem loop_event_settle (io : backend_t) (s : debugger_t) (ev : win_event_t) :
    s.loop_event io ev = (s.handle_event io ev).map (settle io ev) := by
  rw [debugger_t.loop_event]
  cases s.handle_event io ev with
  | none => rfl
  | some r =>
    obtain ⟨t, outcome⟩ := r
    cases outcome <;> rfl

theorem view_enter_pause (io : backend_t) (s : debugger_t) (tid : UInt32) (status : continue_status_t) :
    (s.enter_pause io tid status).view = s.view.pause := rfl

theorem view_stop (io : backend_t) (s : debugger_t) (ev : win_event_t) :
    (settle io ev (s, .stop_all)).view = { s.view with state := .idle, quit := true, paused := false } := rfl

theorem temporary_at_isSome (s : debugger_t) (site : UInt64) (h : (s.temporary_at site).isSome) :
    ∃ b ∈ s.bps.elems, b.temporary = true := by
  rw [debugger_t.temporary_at] at h
  split at h
  · cases h
  · rename_i i _
    cases hget : s.bps.elems[i]? with
    | none => simp [hget] at h
    | some b =>
      refine ⟨b, List.mem_of_getElem? hget, ?_⟩
      by_contra hb
      simp [hget, hb] at h

theorem set_tf_mem (io : backend_t) (t : target_t) (tid : UInt32) (on : Bool) : (set_tf io t tid on).mem = t.mem := by
  unfold set_tf backend_t.set_thread_context
  split
  · rfl
  · cases io.set_context_ok tid <;> rfl

/-- A hit either goes on stepping or stops the loop. -/
theorem bp_hit_cases (io : backend_t) (s : debugger_t) (e : exception_t) (i : Nat) (bp : breakpoint_t) :
    (∃ t status, s.bp_hit io e i bp = (t, .continue_with status) ∧ t.loop = s.loop ∧
      t.view = { s.view.hit io i bp with resume_mode := .step_rearm }) ∨
    (∃ t status, s.bp_hit io e i bp = (t, .pause_with status) ∧ t.view = s.view.hit io i bp) := by
  have hloop : (s.disarm_at io i).loop = s.loop := by rw [debugger_t.disarm_at, on_entry_frame]
  rw [bp_view_t.hit]
  rw [← disarm_at_view]
  by_cases hfalse : bp.condition_false ((io.get_thread_context (s.disarm_at io i).target e.tid).getD {}) = true
  · refine Or.inl ⟨_, _, if_pos hfalse, hloop, ?_⟩
    simp only [debugger_t.push_event, debugger_t.view, set_tf_mem]
    rfl
  · by_cases hauto : bp.auto_continue = true
    · refine Or.inl ⟨_, _, (if_neg hfalse).trans (if_pos hauto), hloop, ?_⟩
      simp only [debugger_t.push_event, debugger_t.view, set_tf_mem]
      rfl
    · exact Or.inr ⟨_, _, (if_neg hfalse).trans (if_neg hauto), rfl⟩

theorem view_continue {s : debugger_t} (hloop : s.loop.is_paused = false) :
    ({ s with loop := .top } : debugger_t).view = s.view := by
  unfold debugger_t.view
  rw [hloop]
  rfl

theorem bp_hit_moves (host : host_t) (io : backend_t) (s : debugger_t) (e : exception_t) (i : Nat)
    (bp : breakpoint_t) (hcode : e.code = kStatusBreakpoint)
    (hfind : bp_store_t.find s.bps (e.address - 1) = some i) (hget : s.bps.elems[i]? = some bp)
    (harmed : bp.armed = true) (hloop : s.loop.is_paused = false) :
    Moves host io s.view (.event (.exception e)) (settle io (.exception e) (s.bp_hit io e i bp)).view := by
  have hmove : ∀ stops, Moves host io s.view (.event (.exception e)) _ :=
    fun stops => Moves.hit e i bp stops hcode hfind hget harmed
  obtain ⟨t, status, hhit, hsame, hview⟩ | ⟨t, status, hhit, hview⟩ := bp_hit_cases io s e i bp
  · rw [hhit, settle, view_continue (hsame ▸ hloop), hview]
    exact hmove false
  · rw [hhit, settle, view_enter_pause, hview]
    exact hmove true

/-- A breakpoint exception hits an armed entry, lands on the planned address or is
foreign. -/
theorem handle_breakpoint_moves (host : host_t) (io : backend_t) (s : debugger_t) (e : exception_t)
    (hcode : e.code = kStatusBreakpoint) (hloop : s.loop.is_paused = false) :
    Moves host io s.view (.event (.exception e)) (settle io (.exception e) (s.handle_breakpoint io e)).view := by
  have hlanded := temporary_at_isSome s (e.address - 1)
  have hforeign : ∀ _ : s.view.NotArmed (e.address - 1), Moves host io s.view (.event (.exception e)) _ :=
    fun hnot => Moves.foreign e (s.temporary_at (e.address - 1)) hnot hlanded
  rw [debugger_t.handle_breakpoint]
  cases hfind : bp_store_t.find s.bps (e.address - 1) with
  | none =>
    have hnot : s.view.NotArmed (e.address - 1) := by
      intro i bp hfound
      rw [debugger_t.view_bps, hfind] at hfound
      cases hfound
    simp only [Option.bind_none]
    split <;> exact hforeign hnot
  | some i =>
    obtain ⟨bp, hget, -⟩ := Vec.find_eq_some hfind
    simp only [Option.bind_some, hget, Option.map_some]
    cases harmed : bp.armed with
    | true => exact bp_hit_moves host io s e i bp hcode hfind hget harmed hloop
    | false =>
      have hnot : s.view.NotArmed (e.address - 1) := by
        intro j b hfound hb
        obtain rfl : i = j := Option.some.inj (hfind.symm.trans hfound)
        obtain rfl : bp = b := Option.some.inj (hget.symm.trans hb)
        exact harmed
      simp only [Bool.false_eq_true, if_false]
      split
      · rename_i hplanned
        have hland : Moves host io s.view (.event (.exception e)) _ :=
          Moves.land e i (s.temporary_at (e.address - 1)) hcode hplanned hfind hnot hlanded
        rw [← disarm_at_view] at hland
        exact hland
      · exact hforeign hnot

theorem pause_moves (host : host_t) {io : backend_t} {s t : debugger_t} {ev : win_event_t}
    {status : continue_status_t} (hview : t.view = s.view) (hev : ∀ e, ev = .exception e → e.code ≠ kStatusBreakpoint) :
    Moves host io s.view (.event ev) (settle io ev (t, .pause_with status)).view := by
  rw [settle, view_enter_pause, hview]
  exact Moves.pause ev hev

theorem continue_moves (host : host_t) {io : backend_t} {s t : debugger_t} {ev : win_event_t}
    {status : continue_status_t} (hview : t.view = s.view) (hloop : s.loop.is_paused = false) :
    Moves host io s.view (.event ev) (settle io ev (t, .continue_with status)).view := by
  have hsame : t.loop.is_paused = s.loop.is_paused := congrArg bp_view_t.paused hview
  rw [settle, view_continue (hsame.trans hloop), hview]
  exact Moves.idle _

theorem handle_single_step_moves (host : host_t) (io : backend_t) (s : debugger_t) (e : exception_t)
    {r : debugger_t × outcome_t} (hcode : e.code = kStatusSingleStep) (hloop : s.loop.is_paused = false)
    (hr : s.handle_single_step io e = some r) :
    Moves host io s.view (.event (.exception e)) (settle io (.exception e) r).view := by
  rw [debugger_t.handle_single_step] at hr
  by_cases hmode : s.resume_mode = .step_rearm
  · rw [if_pos hmode, Option.map_eq_some_iff] at hr
    obtain ⟨t, hrearm, rfl⟩ := hr
    have hmove : ∀ stops, Moves host io s.view (.event (.exception e)) _ :=
      fun stops => Moves.rearm e t.view stops hmode hcode (rearm_hit_some hrearm)
    cases s.rearm_pause with
    | true => exact hmove true
    | false =>
      have hsame := view_continue (s := { t with rearm_pause := false, resume_mode := .none })
        (rearm_hit_loop hrearm ▸ hloop)
      simp only [Bool.false_eq_true, if_false, settle, hsame]
      exact hmove false
  · rw [if_neg hmode] at hr
    cases hr
    refine pause_moves host (view_push_event s _) ?_
    rintro e' ⟨⟩ hbreak
    rw [hcode] at hbreak
    simp [kStatusSingleStep, kStatusBreakpoint] at hbreak

theorem handle_guard_page_moves (host : host_t) (io : backend_t) (s : debugger_t) (e : exception_t)
    (hcode : e.code ≠ kStatusBreakpoint) (hloop : s.loop.is_paused = false) :
    Moves host io s.view (.event (.exception e)) (settle io (.exception e) (s.handle_guard_page io e)).view := by
  rw [debugger_t.handle_guard_page]
  cases hfind : s.watches.findIdx? (watch_hit (e.info.getD 1 e.address)) with
  | none =>
    simp only
    refine pause_moves host (view_push_event s _) ?_
    rintro e' ⟨⟩
    exact hcode
  | some i =>
    simp only
    split
    · exact continue_moves host (Eq.refl s.view) hloop
    · rename_i w _
      refine continue_moves host ?_ hloop
      unfold debugger_t.view debugger_t.push_event
      cases hprotect : io.protect_memory s.target w.addr w.len (w.orig_prot ||| kPageGuardFlag) with
      | none => rfl
      | some r =>
        have hmem : r.1.mem = s.target.mem := protect_memory_mem hprotect
        simp only [Option.map_some, Option.getD_some, hmem]

theorem handle_exception_moves (host : host_t) (io : backend_t) (s : debugger_t) (e : exception_t)
    {r : debugger_t × outcome_t} (hloop : s.loop.is_paused = false) (hr : s.handle_exception io e = some r) :
    Moves host io s.view (.event (.exception e)) (settle io (.exception e) r).view := by
  have hstopped : ({ s with target := s.target.set_thread e.tid e.ctx } : debugger_t).loop.is_paused = false := hloop
  have hview : ({ s with target := s.target.set_thread e.tid e.ctx } : debugger_t).view = s.view := rfl
  rw [debugger_t.handle_exception] at hr
  rw [← hview]
  generalize ({ s with target := s.target.set_thread e.tid e.ctx } : debugger_t) = t at *
  by_cases hbreak : e.code = kStatusBreakpoint
  · rw [if_pos hbreak] at hr
    cases hr
    exact handle_breakpoint_moves host io t e hbreak hstopped
  · rw [if_neg hbreak] at hr
    by_cases hguard : e.code = kStatusGuardPage
    · rw [if_pos hguard] at hr
      cases hr
      exact handle_guard_page_moves host io t e hbreak hstopped
    · rw [if_neg hguard] at hr
      by_cases hstep : e.code = kStatusSingleStep
      · rw [if_pos hstep] at hr
        exact handle_single_step_moves host io t e hstep hstopped hr
      · rw [if_neg hstep] at hr
        cases hr
        refine pause_moves host (view_push_event t _) ?_
        rintro e' ⟨⟩
        exact hbreak

theorem event_moves (host : host_t) (io : backend_t) (s s' : debugger_t) (ev : win_event_t)
    (hloop : s.loop.is_paused = false) (hs' : s.loop_event io ev = some s') :
    Moves host io s.view (.event ev) s'.view := by
  rw [loop_event_settle, Option.map_eq_some_iff] at hs'
  obtain ⟨r, hr, rfl⟩ := hs'
  cases ev with
  | exception e => exact handle_exception_moves host io s e hloop hr
  | exit_process tid =>
    cases hr
    have hstop : Moves host io s.view (.event (.exit_process tid)) _ := Moves.stop _ hloop
    rw [debugger_t.view_paused, hloop] at hstop
    rw [view_stop, view_push_event]
    exact hstop
  | create_thread tid start | exit_thread tid | load_dll tid base | unload_dll tid base =>
    cases hr
    exact continue_moves host (view_push_event s _) hloop
  | other tid =>
    cases hr
    exact continue_moves host (Eq.refl s.view) hloop

theorem wake_moves (host : host_t) (io : backend_t) (s s' : debugger_t) (tid : UInt32)
    (hloop : s.loop.is_paused = true) (hs' : s.loop_wake host.grow io tid = some s') : Moves host io s.view .wake s'.view := by
  rw [debugger_t.loop_wake] at hs'
  by_cases hquit : s.quit = true
  · rw [if_pos hquit] at hs'
    cases hs'
    exact Moves.quit (v := s.view) hquit hloop
  · rw [if_neg hquit, Option.map_eq_some_iff] at hs'
    obtain ⟨t, hplan, rfl⟩ := hs'
    have hgoes : s.view.quit = false := Bool.eq_false_iff.mpr hquit
    rw [debugger_t.apply_plan] at hplan
    cases hkind : s.pending_plan.kind with
    | trap_flag =>
      simp only [hkind, Option.some.injEq] at hplan
      subst hplan
      have hstep : Moves host io s.view .wake _ := Moves.step hgoes hkind
      simp only [debugger_t.view, set_tf_mem] at hstep ⊢
      exact hstep
    | temp_breakpoint =>
      simp only [hkind, Option.map_eq_some_iff] at hplan
      obtain ⟨u, hrearm, rfl⟩ := hplan
      have hview := rearm_hit_some hrearm
      rw [plant_temp_view] at hview
      exact Moves.plant u.view hgoes hkind hview
    | none =>
      simp only [hkind, Option.map_eq_some_iff] at hplan
      obtain ⟨u, hrearm, rfl⟩ := hplan
      exact Moves.go u.view hgoes hkind (rearm_hit_some hrearm)

theorem disarm_all_view (io : backend_t) (s : debugger_t) (l : List Nat) :
    (l.foldl (fun s i => s.disarm_at io i) s).view =
      l.foldl (fun v i => bp_view_t.on_entry (disarm io) v i) s.view := by
  induction l generalizing s with
  | nil => rfl
  | cons i l ih =>
    rw [List.foldl_cons, List.foldl_cons, ih, disarm_at_view]

theorem restore_watches_mem (io : backend_t) (t : target_t) (l : List watchpoint_t) :
    (l.foldl (restore_watch io) t).mem = t.mem := by
  induction l generalizing t with
  | nil => rfl
  | cons w l ih =>
    rw [List.foldl_cons, ih, restore_watch]
    cases hprotect : io.protect_memory t w.addr w.len w.orig_prot with
    | none => rfl
    | some r => exact protect_memory_mem hprotect

/-- Every step of a session moves the breakpoints in one of these ways. -/
theorem step_moves {host : host_t} {io : backend_t} {s s' : debugger_t} {a : action_t} (henabled : s.Enabled a)
    (hstep : s.step host io a = some s') : Moves host io s.view a s'.view := by
  cases a with
  | command c =>
    cases hstep
    exact command_moves host io s c
  | poll =>
    cases hstep
    have hloop : s.loop = .top := henabled
    have hidle : ({ s with loop := if s.quit then .exited else .waiting } : debugger_t).view = s.view := by
      unfold debugger_t.view
      cases s.quit <;> rw [hloop] <;> rfl
    rw [hidle]
    exact Moves.idle _
  | timeout =>
    cases hstep
    have hloop : s.loop = .waiting := henabled
    rw [view_continue (by rw [hloop]; rfl)]
    exact Moves.idle _
  | event ev =>
    refine event_moves host io s s' ev ?_ hstep
    rw [show s.loop = .waiting from henabled]
    rfl
  | wake =>
    obtain ⟨hpaused, -⟩ := henabled
    cases hloop : s.loop with
    | paused tid status =>
      simp only [debugger_t.step, hloop] at hstep
      exact wake_moves host io s s' tid hpaused hstep
    | top | waiting | exited =>
      rw [hloop] at hpaused
      cases hpaused
  | detach_disarm =>
    cases hstep
    have hdisarm : Moves host io s.view .detach_disarm _ := Moves.detach_disarm
    rw [bp_view_t.disarm_all, ← disarm_all_view] at hdisarm
    rw [debugger_t.detach_disarm]
    simp only [debugger_t.view, restore_watches_mem] at hdisarm ⊢
    exact hdisarm
  | detach_quit =>
    cases hstep
    have hfrom : s.detaching = .disarmed := henabled
    refine Moves.detach_quit (v := s.view) ?_
    rw [debugger_t.view_detaching, hfrom]
    exact detach_pc_t.noConfusion
  | detach_finish =>
    cases hstep
    have hfrom : s.detaching = .joining := henabled.1
    rw [debugger_t.detach_finish, view_push_event]
    refine Moves.detach_finish (v := s.view) ?_
    rw [debugger_t.view_detaching, hfrom]
    exact detach_pc_t.noConfusion

end

end slop.core.debugger
