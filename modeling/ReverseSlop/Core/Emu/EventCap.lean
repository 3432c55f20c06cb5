import ReverseSlop.Core.Emu.TaintLog

namespace slop.core.emu

open taint_tracker_t

namespace run_ctx_t

def with_log (c : run_ctx_t) (events : List taint_event_t) : run_ctx_t := { c with taint := c.taint.with_log events }

def settled (c : run_ctx_t) : run_ctx_t := { c with taint := c.taint.settled }

/-- A run up to the `boundary` behind an instruction. -/
def execute (cap : Option Nat) (c : run_ctx_t) (op : emu_op_t) : run_ctx_t :=
  op.accesses.foldl (access cap) (c.analyze op)

section

variable {cap : Option Nat} {c : run_ctx_t} {op : emu_op_t} {most : Nat}

private theorem analyze_with_log (events : List taint_event_t) :
    (c.with_log events).analyze op = (c.analyze op).with_log events := by
  cases op <;> rfl

private theorem display_name_ne (canonical : canonical_t) : display_name canonical ≠ "" := by
  cases canonical with
  | general n => revert n; decide
  | rflags => decide

private theorem analyze_named (hnamed : c.taint.Named) : (c.analyze op).taint.Named := by
  cases op with
  | insn ip text insn accesses =>
    intro d hd
    obtain ⟨canonical, -, rfl⟩ := List.mem_map.mp hd
    exact display_name_ne canonical
  | undecoded ip text accesses => exact hnamed
  | stop => exact hnamed
  | «import» ip name rsp => exact List.forall_mem_nil _

/-- What is marked by an access, and what the next one reads of it. -/
theorem access_read (addr : UInt64) (len : Nat) : c.access cap (.read addr len) =
    { c with taint := { c.taint with read_flag_ := c.taint.read_flag_ || c.taint.memory_any addr len } } := by
  simp only [access, hook_mem_read, note_mem_read]
  cases hany : c.taint.memory_any addr len <;> simp

/-- What a store adds to the log. -/
def stored_events (cap : Option Nat) (c : run_ctx_t) (addr : UInt64) : List taint_event_t :=
  if c.taint.note_mem_write ∧ c.cur_ip ≠ c.last_event_ip ∧ full cap c.taint.events_ = false then
    [⟨c.cur_ip, c.cur_text, "mem", mem_text addr⟩]
  else []

theorem access_write (addr : UInt64) (len : Nat) : c.access cap (.write addr len) =
    { c with
      taint := (if c.taint.note_mem_write then c.taint.mark_memory addr len else c.taint).with_log
        (c.taint.events_ ++ c.stored_events cap addr)
      last_event_ip := if c.taint.note_mem_write then c.cur_ip else c.last_event_ip } := by
  cases htainted : c.taint.note_mem_write with
  | false => simp [access, hook_mem_write, stored_events, htainted, taint_tracker_t.with_log]
  | true =>
    by_cases hip : c.cur_ip = c.last_event_ip
    · simp [access, hook_mem_write, stored_events, htainted, hip, taint_tracker_t.with_log, mark_memory]
    · cases hfull : full cap c.taint.events_ <;>
        simp [access, hook_mem_write, stored_events, htainted, hip, hfull, taint_tracker_t.with_log, mark_memory,
          record_event]

private theorem length_stored_events (hlength : c.taint.events_.length ≤ most) (addr : UInt64) :
    (c.taint.events_ ++ c.stored_events (some most) addr).length ≤ most := by
  rw [stored_events]
  split
  · rename_i hroom
    have hlt : c.taint.events_.length < most := by simpa [full] using hroom.2.2
    simpa using hlt
  · simpa using hlength

private theorem access_cur (a : access_t) : (c.access cap a).taint.cur_ = c.taint.cur_ := by
  cases a with
  | read addr len => rw [access_read]
  | write addr len =>
    rw [access_write]
    cases c.taint.note_mem_write <;> rfl

/-- An access spreads the same taint with another log and another cap. -/
theorem access_with_log (events : List taint_event_t) (a : access_t) :
    ∃ events', (c.with_log events).access none a = (c.access cap a).with_log events' := by
  cases a with
  | read addr len =>
    refine ⟨events, ?_⟩
    rw [access_read, access_read]
    rfl
  | write addr len =>
    refine ⟨events ++ (c.with_log events).stored_events none addr, ?_⟩
    rw [access_write, access_write]
    have hsame : (c.with_log events).taint.note_mem_write = c.taint.note_mem_write := rfl
    rw [hsame]
    cases c.taint.note_mem_write <;> rfl

private theorem access_length (hlength : c.taint.events_.length ≤ most) (a : access_t) :
    (c.access (some most) a).taint.events_.length ≤ most := by
  cases a with
  | read addr len => rwa [access_read]
  | write addr len =>
    rw [access_write]
    exact length_stored_events hlength addr

theorem execute_named (hnamed : c.taint.Named) : (c.execute cap op).taint.Named := by
  have hcur : ∀ c' : run_ctx_t, (op.accesses.foldl (access cap) c').taint.cur_ = c'.taint.cur_ := by
    induction op.accesses with
    | nil => exact fun _ => rfl
    | cons a accesses ih => exact fun c' => (ih _).trans (access_cur a)
  rw [Named, execute, hcur]
  exact analyze_named hnamed

private theorem execute_with_log (events : List taint_event_t) :
    ∃ events', (c.with_log events).execute none op = (c.execute cap op).with_log events' := by
  have hall : ∀ (accesses : List access_t) (c' : run_ctx_t) (events : List taint_event_t), ∃ events',
      accesses.foldl (access none) (c'.with_log events) = (accesses.foldl (access cap) c').with_log events' := by
    intro accesses
    induction accesses with
    | nil => exact fun _ events => ⟨events, rfl⟩
    | cons a accesses ih =>
      intro c' events
      obtain ⟨events', hstep⟩ : ∃ events', (c'.with_log events).access none a = (c'.access cap a).with_log events' :=
        access_with_log events a
      rw [List.foldl_cons, List.foldl_cons, hstep]
      exact ih _ events'
  rw [execute, analyze_with_log]
  exact hall op.accesses (c.analyze op) events

private theorem execute_length (hlength : c.taint.events_.length ≤ most) :
    (c.execute (some most) op).taint.events_.length ≤ most := by
  have hall : ∀ c' : run_ctx_t, c'.taint.events_.length ≤ most →
      (op.accesses.foldl (access (some most)) c').taint.events_.length ≤ most := by
    induction op.accesses with
    | nil => exact fun _ h => h
    | cons a accesses ih => exact fun c' h => ih _ (access_length h a)
  refine hall _ ?_
  cases op <;> exact hlength

/-- With room in the log a step only adds to it. -/
theorem step_room (hnamed : c.taint.Named) (hroom : ∀ most ∈ cap, (c.execute cap op).taint.Room most) :
    c.step cap op = (c.execute cap op).settled.with_log ((c.execute cap op).taint.events_ ++
      logged (c.execute cap op).taint.dest_taint (c.execute cap op).taint (c.execute cap op).taint.cur_.dests) := by
  show (c.execute cap op).boundary cap = _
  rw [boundary, taint_tracker_t.boundary_room (execute_named hnamed) hroom]
  rfl

end

end run_ctx_t

/-- A run, and the same run without a limit on its log. -/
structure compared_t where
  capped : run_ctx_t
  uncapped : run_ctx_t

def compared_t.step (s : compared_t) (op : emu_op_t) : Option compared_t :=
  some ⟨s.capped.step event_cap op, s.uncapped.step none op⟩

def compared_t.start (taint_sources : List (UInt64 × Nat)) : compared_t :=
  ⟨.start taint_sources, .start taint_sources⟩

/-- The log decides nothing, and stays within its limit. -/
structure compared_t.Same (s : compared_t) : Prop where
  reg_taint_ : s.capped.taint.reg_taint_ = s.uncapped.taint.reg_taint_
  pages_ : s.capped.taint.pages_ = s.uncapped.taint.pages_
  length_le : s.capped.taint.events_.length ≤ 512

/-- The log has room for the destinations of the instruction. -/
def HasRoom (s : compared_t) (op : emu_op_t) : Prop := (s.capped.execute event_cap op).taint.Room 512

/-- The two runs have two logs and agree on all else. -/
structure compared_t.Parallel (s : compared_t) : Prop where
  named : s.capped.taint.Named
  length_le : s.capped.taint.events_.length ≤ 512
  uncapped : s.uncapped = s.capped.with_log s.uncapped.taint.events_

section

variable {s s' : compared_t} {op : emu_op_t}

private theorem compared_t.Parallel.step (h : s.Parallel) (hroom : HasRoom s op) (hstep : s.step op = some s') : s'.Parallel := by
  cases hstep
  obtain ⟨hnamed, hlength, huncapped⟩ := h
  have hnamed' : (s.capped.execute event_cap op).taint.Named := run_ctx_t.execute_named hnamed
  have hlength' : (s.capped.execute event_cap op).taint.events_.length ≤ 512 := run_ctx_t.execute_length hlength
  have hcapped : s.capped.step event_cap op = _ := run_ctx_t.step_room hnamed fun most hmost => Option.some.inj hmost ▸ hroom
  obtain ⟨events', hexecute⟩ : ∃ events', s.uncapped.execute none op = (s.capped.execute event_cap op).with_log events' := by
    rw [huncapped]
    exact run_ctx_t.execute_with_log _
  have hboundary : s.uncapped.step none op = _ :=
    run_ctx_t.step_room (show s.uncapped.taint.Named by rw [huncapped]; exact hnamed) fun most hmost => by cases hmost
  have hsettled : (s.uncapped.execute none op).settled = (s.capped.execute event_cap op).settled.with_log events' := by
    rw [hexecute, run_ctx_t.settled, run_ctx_t.with_log, settled_with_log]
    rfl
  rw [hsettled] at hboundary
  refine ⟨?_, ?_, ?_⟩
  · rw [hcapped]
    exact fun d hd => hnamed' d (by rwa [← settled_cur])
  · rw [hcapped]
    exact length_boundary hroom hlength'
  · rw [hcapped, hboundary]
    rfl

theorem compared_t.Parallel.start (taint_sources : List (UInt64 × Nat)) : (start taint_sources).Parallel := by
  have hmarked : ∀ t : taint_tracker_t, (taint_sources.foldl (fun t s => t.mark_memory s.1 s.2) t).cur_ = t.cur_ ∧
      (taint_sources.foldl (fun t s => t.mark_memory s.1 s.2) t).events_ = t.events_ := by
    induction taint_sources with
    | nil => exact fun t => ⟨rfl, rfl⟩
    | cons s taint_sources ih => exact fun t => ih (t.mark_memory s.1 s.2)
  obtain ⟨hcur, hevents⟩ := hmarked {}
  refine ⟨?_, ?_, rfl⟩
  · simp [compared_t.start, run_ctx_t.start, Named, hcur]
  · simp [compared_t.start, run_ctx_t.start, hevents]

private theorem compared_t.Parallel.same (h : s.Parallel) : s.Same := by
  obtain ⟨-, hlength, huncapped⟩ := h
  refine ⟨?_, ?_, hlength⟩
  · rw [huncapped]
    rfl
  · rw [huncapped]
    rfl

/-- As long as the log has room, the taint is that of a run whose log has no limit. -/
theorem taint_ignores_log {taint_sources : List (UInt64 × Nat)}
    (hreach : Relation.ReflTransGen (Transition.Step HasRoom compared_t.step) (.start taint_sources) s) : s.Same :=
  (Transition.invariant (compared_t.Parallel.start taint_sources) (fun _ _ _ h hroom hstep => h.step hroom hstep)
    hreach).same

end

/-- `mov rax, [1000h]`, the first byte of which is tainted. -/
def load : emu_op_t :=
  .insn 0 "mov rax, [0x1000]" { visible := 2, ops := [.reg (.general rax .full) false true, .mem false .other .other true false] }
    [.read 0x1000 8]

/-- `mov rax, 0`. -/
def clear : emu_op_t := .insn 7 "mov rax, 0" { visible := 2, ops := [.reg (.general rax .full) false true, .imm] } []

def rdx : Fin 16 := ⟨2, by decide⟩

/-- `mov rdx, rax`. -/
def move : emu_op_t :=
  .insn 14 "mov rdx, rax"
    { visible := 2, ops := [.reg (.general rdx .full) false true, .reg (.general rax .full) true false] } []

/-- `mul qword ptr [1000h]`. -/
def widen : emu_op_t :=
  .insn 14 "mul qword ptr [0x1000]"
    { visible := 1
      ops := [.mem false .other .other true false, .reg (.general rax .full) true true, .reg (.general rdx .full) false true,
        .reg .flags false true] }
    [.read 0x1000 8]

/-- Nothing but the memory is tainted, and the log has `n` events. -/
structure run_ctx_t.Idle (c : run_ctx_t) (n : Nat) : Prop where
  memory_any : c.taint.memory_any 0x1000 8 = true
  reg_taint_ : c.taint.reg_taint_ = fun _ => false
  read_flag_ : c.taint.read_flag_ = false
  events_ : c.taint.events_.length = n

section

variable {cap : Option Nat} {c : run_ctx_t} {n : Nat}

private theorem step_load (h : c.Idle n) (hroom : ∀ most ∈ cap, n + 1 < most) : (c.step cap load).taint = { c.taint with
    cur_ := ⟨false, true, [⟨.general rax, false, "rax"⟩]⟩
    cur_ip_ := 0
    cur_text_ := "mov rax, [0x1000]"
    read_flag_ := false
    src_regs_tainted_ := false
    reg_taint_ := Function.update c.taint.reg_taint_ (.general rax) true
    events_ := c.taint.events_ ++ [⟨0, "mov rax, [0x1000]", "reg", "rax"⟩] } := by
  obtain ⟨hany, hregs, -, hevents⟩ := h
  have hfull : ∀ e, full cap (c.taint.events_ ++ [e]) = false := fun e => full_eq_false (by simpa [hevents] using hroom)
  have hread : c.execute cap load = { c.analyze load with
      taint := { c.taint.analyze 0 "mov rax, [0x1000]" ⟨false, true, [⟨.general rax, false, "rax"⟩]⟩ with
        read_flag_ := c.taint.read_flag_ || c.taint.memory_any 0x1000 8 } } := @run_ctx_t.access_read cap _ _ _
  show ((c.execute cap load).boundary cap).taint = _
  rw [hread, hany]
  simp [run_ctx_t.boundary, boundary, analyze, dest_taint, resolve, hfull, hregs, reg, set_reg]

private theorem step_clear (hflag : c.taint.read_flag_ = false) : (c.step cap clear).taint = { c.taint with
    cur_ := ⟨false, false, [⟨.general rax, false, "rax"⟩]⟩
    cur_ip_ := 7
    cur_text_ := "mov rax, 0"
    read_flag_ := false
    src_regs_tainted_ := false
    reg_taint_ := Function.update c.taint.reg_taint_ (.general rax) false } := by
  have hquiet : c.execute cap clear = { c.analyze clear with
      taint := c.taint.analyze 7 "mov rax, 0" ⟨false, false, [⟨.general rax, false, "rax"⟩]⟩ } := rfl
  show ((c.execute cap clear).boundary cap).taint = _
  rw [hquiet]
  simp [run_ctx_t.boundary, boundary, analyze, dest_taint, resolve, hflag, reg, set_reg]

/-- Each such pair is an event more, and nothing else. -/
theorem run_ctx_t.Idle.load_clear (h : c.Idle n) (hroom : ∀ most ∈ cap, n + 1 < most) :
    ((c.step cap load).step cap clear).Idle (n + 1) := by
  have hload := step_load h hroom
  have hclear : ((c.step cap load).step cap clear).taint = _ := step_clear (by rw [hload])
  rw [hload] at hclear
  constructor
  · rw [hclear]
    exact h.memory_any
  · rw [hclear, h.reg_taint_]
    funext canonical
    by_cases hrax : canonical = .general rax <;> simp [hrax]
  · rw [hclear]
  · rw [hclear]
    simp [h.events_]

/-- What `widen` finds, and the tracker that its destinations are given their taint in. -/
def widened (t : taint_tracker_t) : taint_tracker_t :=
  { t.analyze 14 "mul qword ptr [0x1000]"
      ⟨false, true, [⟨.general rax, false, "rax"⟩, ⟨.general rdx, false, "rdx"⟩, ⟨.rflags, false, "rflags"⟩]⟩ with
    read_flag_ := true }

private theorem step_widen (h : c.Idle n) : (c.step cap widen).taint = (widened c.taint).boundary cap := by
  obtain ⟨hany, hregs, -, -⟩ := h
  have hread : c.execute cap widen = { c.analyze widen with
      taint := { (c.analyze widen).taint with
        read_flag_ := c.taint.read_flag_ || c.taint.memory_any 0x1000 8 } } := @run_ctx_t.access_read cap _ _ _
  have hsources : (c.analyze widen).taint = c.taint.analyze 14 "mul qword ptr [0x1000]" ⟨c.taint.reg (.general rax), true,
      [⟨.general rax, false, "rax"⟩, ⟨.general rdx, false, "rdx"⟩, ⟨.rflags, false, "rflags"⟩]⟩ := by
    rw [← Bool.or_false (c.taint.reg _)]
    rfl
  show ((c.execute cap widen).boundary cap).taint = _
  rw [hread, hany, hsources, reg, hregs, Bool.or_true]
  rfl

private theorem widen_capped (h : c.Idle 511) : (c.step event_cap widen).taint.reg (.general rdx) = false := by
  have hfull : ∀ e, full event_cap (c.taint.events_ ++ [e]) = true := by simp [event_cap, full, h.events_]
  rw [step_widen h]
  simp [widened, boundary, analyze, dest_taint, resolve, hfull, h.reg_taint_, reg, set_reg, rax, rdx]

private theorem widen_uncapped (h : c.Idle n) : (c.step none widen).taint.reg (.general rdx) = true := by
  rw [step_widen h]
  simp [widened, boundary, analyze, dest_taint, resolve, full, h.reg_taint_, reg, set_reg, rax, rdx]

end

private theorem start_idle : (run_ctx_t.start [(0x1000, 1)]).Idle 0 := by
  refine ⟨?_, rfl, rfl, rfl⟩
  decide

section

variable {c : run_ctx_t} {n : Nat}

private theorem length_fresh_le {dest_taint : Bool} {t : taint_tracker_t} {dests : List deferred_dest_t} :
    (fresh dest_taint t dests).length ≤ dests.length := by
  induction dests generalizing t with
  | nil => exact Nat.le_refl 0
  | cons d dests ih =>
    rw [fresh]
    split
    · exact Nat.succ_le_succ ih
    · exact ih.trans (Nat.le_succ _)

private theorem room_load (h : c.Idle n) (hn : n + 1 < 512) : (c.execute event_cap load).taint.Room 512 := by
  have hread : c.execute event_cap load = _ := @run_ctx_t.access_read event_cap (c.analyze load) 0x1000 8
  have hspread : (c.execute event_cap load).taint.spread.length ≤ 1 := by
    refine length_fresh_le.trans ?_
    rw [hread]
    exact Nat.le_refl 1
  refine Or.inr (Or.inl ?_)
  have hevents : (c.execute event_cap load).taint.events_.length = n := by
    rw [hread]
    exact h.events_
  omega

private theorem room_clear : (c.execute event_cap clear).taint.Room 512 := by
  refine Or.inl ?_
  by_contra hsome
  cases taint_of_fresh hsome

/-- The event that fills the log, with nothing left to do behind it. -/
private theorem step_move (hrax : c.taint.reg (.general rax) = true) (hrdx : c.taint.reg (.general rdx) = false)
    (hnamed : c.taint.Named) (hflag : c.taint.read_flag_ = false) (hevents : c.taint.events_.length = 511) :
    (c.execute event_cap move).taint.Room 512 ∧ (c.step event_cap move).taint.events_.length = 512 ∧
      (c.step event_cap move).taint.read_flag_ = false := by
  have hmove : (c.execute event_cap move).taint =
      c.taint.analyze 14 "mov rdx, rax" ⟨true, false, [⟨.general rdx, false, "rdx"⟩]⟩ := by
    rw [← hrax, ← Bool.false_or (c.taint.reg _), ← Bool.or_false (c.taint.reg _), ← Bool.or_assoc]
    rfl
  have hfresh : is_fresh true (c.taint.analyze 14 "mov rdx, rax" ⟨true, false, [⟨.general rdx, false, "rdx"⟩]⟩)
      ⟨.general rdx, false, "rdx"⟩ = true := by
    simpa [is_fresh, analyze, reg] using hrdx
  have hspread : (c.execute event_cap move).taint.spread = [⟨.general rdx, false, "rdx"⟩] := by
    rw [hmove]
    exact if_pos hfresh
  have hroom : (c.execute event_cap move).taint.Room 512 := by
    refine Or.inr (Or.inr ⟨?_, ?_, ?_⟩)
    · rw [hspread, hmove]
      exact congrArg (· + 1) hevents
    · rw [hmove]
      exact hflag
    · rw [hspread, hmove]
      show ∀ d ∈ behind true _ 1 [_], _
      simp [behind, hfresh]
  have hstep : c.step event_cap move = _ := run_ctx_t.step_room hnamed fun most hmost => Option.some.inj hmost ▸ hroom
  refine ⟨hroom, ?_, ?_⟩
  · have hlogged : ((c.execute event_cap move).taint.events_ ++ logged (c.execute event_cap move).taint.dest_taint
        (c.execute event_cap move).taint (c.execute event_cap move).taint.cur_.dests).length = 512 := by
      rw [List.length_append, logged, List.length_map]
      change (c.execute event_cap move).taint.events_.length + (c.execute event_cap move).taint.spread.length = 512
      rw [hspread, hmove]
      exact congrArg (· + 1) hevents
    rw [hstep]
    exact hlogged
  · rw [hstep]
    rfl

end

/-- The log can be filled up to its last event. -/
theorem filled {n : Nat} (hn : n ≤ 511) : ∃ s : compared_t,
    Relation.ReflTransGen (Transition.Step HasRoom compared_t.step) (.start [(0x1000, 1)]) s ∧
      s.capped.Idle n ∧ s.uncapped.Idle n := by
  induction n with
  | zero => exact ⟨_, .refl, start_idle, start_idle⟩
  | succ n ih =>
    obtain ⟨s, hreach, hcapped, huncapped⟩ := ih (by omega)
    have hroom : ∀ most ∈ event_cap, n + 1 < most := by
      intro most hmost
      cases hmost
      omega
    exact ⟨_, (hreach.tail ⟨load, room_load hcapped (by omega), rfl⟩).tail ⟨clear, room_clear, rfl⟩,
      hcapped.load_clear hroom, huncapped.load_clear (by simp)⟩

/-- The run fills the log and goes on. -/
theorem full_log_keeps_taint : ∃ s : compared_t, s.capped.taint.events_.length = 512 ∧ s.Same := by
  obtain ⟨s, hreach, hidle, -⟩ := filled (show 510 ≤ 511 by decide)
  have hload : (s.capped.step event_cap load).taint = _ := step_load hidle fun most hmost => by cases hmost; decide
  obtain ⟨hroom, hlength, hflag⟩ : (((s.capped.step event_cap load).execute event_cap move).taint.Room 512 ∧
      ((s.capped.step event_cap load).step event_cap move).taint.events_.length = 512 ∧
      ((s.capped.step event_cap load).step event_cap move).taint.read_flag_ = false) := by
    refine step_move ?_ ?_ ?_ ?_ ?_ <;> rw [hload]
    · simp [reg]
    · simp [reg, hidle.reg_taint_, rax, rdx]
    · simp [Named]
    · simp [hidle.events_]
  have hreach' : Relation.ReflTransGen (Transition.Step HasRoom compared_t.step) (.start [(0x1000, 1)]) _ :=
    ((hreach.tail ⟨load, room_load hidle (by decide), rfl⟩).tail ⟨move, hroom, rfl⟩).tail ⟨clear, room_clear, rfl⟩
  refine ⟨_, ?_, taint_ignores_log hreach'⟩
  have hclear : (((s.capped.step event_cap load).step event_cap move).step event_cap clear).taint = _ := step_clear hflag
  show (((s.capped.step event_cap load).step event_cap move).step event_cap clear).taint.events_.length = 512
  rw [hclear]
  exact hlength

/-- The destinations behind the one that fills the log stay clean. -/
theorem full_log_hides_taint :
    ¬ ∀ (taint_sources : List (UInt64 × Nat)) (s : compared_t),
      Relation.ReflTransGen (Transition.Step (fun _ _ => True) compared_t.step) (.start taint_sources) s → s.Same := by
  intro hlaw
  obtain ⟨s, hreach, hcapped, huncapped⟩ := filled (Nat.le_refl 511)
  have hany := Transition.reaches_mono (fun _ op _ => ⟨op, trivial, rfl⟩) hreach
  have hsame := (hlaw _ _ (hany.tail ⟨widen, trivial, rfl⟩)).reg_taint_
  have hrdx : (s.capped.step event_cap widen).taint.reg (.general rdx) =
      (s.uncapped.step none widen).taint.reg (.general rdx) := congrFun hsame _
  rw [widen_capped hcapped, widen_uncapped huncapped] at hrdx
  cases hrdx

end slop.core.emu
