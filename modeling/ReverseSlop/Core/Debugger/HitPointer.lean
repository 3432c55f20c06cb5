import ReverseSlop.Core.Debugger.Moves
import ReverseSlop.Library.Keyed

namespace slop.core.debugger

open runtime Buffer

/-- A pointer into the store designates the entry at an address. -/
def Designates (bps : bp_store_t) (p : Ptr) (addr : UInt64) : Prop := ∃ bp, bps.deref p = some bp ∧ bp.addr = addr

/-- `hit_bp_` is null or designates the entry of the site that was hit. -/
def bp_view_t.HitValid (v : bp_view_t) : Prop := ∀ p, v.hit_bp = some p → Designates v.bps p v.hit_site

/-- The step appends an entry to the store. -/
def Appends (io : backend_t) (v : bp_view_t) : action_t → Prop
  | .command (.set_sw_breakpoint va) => bp_store_t.find v.bps va = none ∧ can_arm io va = true
  | .command (.set_hw_breakpoint va _ _) =>
    bp_store_t.find v.bps va = none ∧ (bp_store_t.free_slot v.bps).isSome = true ∧ io.set_hw_ok = true
  | .wake =>
    v.quit = false ∧ v.plan.kind = .temp_breakpoint ∧ bp_store_t.find v.bps v.plan.temp_addr = none ∧
      io.read_ok v.plan.temp_addr 1 = true ∧ io.write_ok v.plan.temp_addr = true
  | _ => False

/-- The step erases the entry at an address. -/
def Erases (v : bp_view_t) : action_t → UInt64 → Prop
  | .command (.clear_breakpoint va), addr => addr = va
  | .event (.exception e), addr =>
    e.code = kStatusBreakpoint ∧ addr = e.address - 1 ∧ v.Planned addr ∧ v.NotArmed addr
  | _, _ => False

/-- While an entry is hit, nothing is appended to a full store and nothing at or before
the entry is erased. -/
def KeepsHit (io : backend_t) (v : bp_view_t) (a : action_t) : Prop :=
  ∀ p, v.hit_bp = some p → (Appends io v a → v.bps.HasRoom) ∧
    ∀ addr i, Erases v a addr → bp_store_t.find v.bps addr = some i → p.index < i

section

variable {bps : bp_store_t} {p : Ptr} {addr : UInt64}

theorem Designates.modify (hp : Designates bps p addr) (i : Nat) {f : breakpoint_t → breakpoint_t}
    (hf : ∀ bp, bps.elems[i]? = some bp → (f bp).addr = bp.addr) : Designates (bps.modify i f) p addr := by
  obtain ⟨bp, hderef, haddr⟩ := hp
  refine ⟨_, Vec.deref_modify hderef i f, ?_⟩
  by_cases h : i = p.index
  · rw [if_pos h, hf bp (h ▸ (Vec.deref_eq_some.mp hderef).2), haddr]
  · rw [if_neg h, haddr]

theorem Designates.push_back (hp : Designates bps p addr) (hroom : bps.HasRoom) (grow : Growth) (b : breakpoint_t) :
    Designates (bps.push_back grow b) p addr := by
  obtain ⟨bp, hderef, haddr⟩ := hp
  exact ⟨bp, Vec.deref_push_back hroom grow b hderef, haddr⟩

theorem Designates.remove {site : UInt64} {i : Nat} (hp : Designates bps p addr)
    (hfind : bp_store_t.find bps site = some i) (hbehind : p.index < i) :
    Designates (bp_store_t.remove bps site) p addr := by
  obtain ⟨bp, hderef, haddr⟩ := hp
  refine ⟨bp, Vec.deref_erase_if hderef ?_, haddr⟩
  intro j hj b hget
  exact decide_eq_false (bp_store_t.find_before hfind (Nat.lt_of_le_of_lt hj hbehind) hget)

end

@[simp] theorem arm_addr (io : backend_t) (mem : UInt64 → UInt8) (bp : breakpoint_t) :
    (arm io mem bp).2.addr = bp.addr := by
  rw [arm]
  split <;> rfl

@[simp] theorem disarm_addr (io : backend_t) (mem : UInt64 → UInt8) (bp : breakpoint_t) :
    (disarm io mem bp).2.addr = bp.addr := by
  rw [disarm]
  split <;> rfl

namespace bp_view_t

variable {v : bp_view_t} {op : (UInt64 → UInt8) → breakpoint_t → (UInt64 → UInt8) × breakpoint_t}

theorem on_entry_none {i : Nat} (hget : v.bps.elems[i]? = none) : v.on_entry op i = v := by
  rw [on_entry]
  rw [hget]

theorem on_entry_some {i : Nat} {bp : breakpoint_t} (hget : v.bps.elems[i]? = some bp) :
    v.on_entry op i = { v with mem := (op v.mem bp).1, bps := v.bps.modify i fun _ => (op v.mem bp).2 } := by
  rw [on_entry]
  rw [hget]

theorem on_entry_frame (op : (UInt64 → UInt8) → breakpoint_t → (UInt64 → UInt8) × breakpoint_t) (v : bp_view_t)
    (i : Nat) : v.on_entry op i = { v with mem := (v.on_entry op i).mem, bps := (v.on_entry op i).bps } := by
  rw [on_entry]
  split <;> rfl

theorem addrs_on_entry (hop : ∀ mem bp, (op mem bp).2.addr = bp.addr) (i : Nat) :
    (v.on_entry op i).bps.elems.map breakpoint_t.addr = v.bps.elems.map breakpoint_t.addr := by
  cases hget : v.bps.elems[i]? with
  | none => rw [on_entry_none hget]
  | some bp =>
    rw [on_entry_some hget]
    refine Keyed.map_modify ?_
    intro b hb
    rw [hget] at hb
    cases hb
    exact hop v.mem bp

theorem find_on_entry (hop : ∀ mem bp, (op mem bp).2.addr = bp.addr) (i : Nat) {addr : UInt64} :
    bp_store_t.find (v.on_entry op i).bps addr = bp_store_t.find v.bps addr :=
  bp_store_t.find_congr (addrs_on_entry hop i) addr

/-- Arming and disarming leave every pointer on its entry. -/
theorem designates_on_entry {p : Ptr} {addr : UInt64} (hop : ∀ mem bp, (op mem bp).2.addr = bp.addr) (i : Nat)
    (hp : Designates v.bps p addr) : Designates (v.on_entry op i).bps p addr := by
  cases hget : v.bps.elems[i]? with
  | none => rwa [on_entry_none hget]
  | some bp =>
    rw [on_entry_some hget]
    refine hp.modify i ?_
    intro b hb
    rw [hget] at hb
    cases hb
    exact hop v.mem bp

theorem HitValid.on_entry (hop : ∀ mem bp, (op mem bp).2.addr = bp.addr) (hv : v.HitValid) (i : Nat) :
    (v.on_entry op i).HitValid := by
  intro p hp
  rw [on_entry_frame] at hp ⊢
  exact designates_on_entry hop i (hv p hp)

theorem HitValid.disarm_all (hv : v.HitValid) (io : backend_t) : (v.disarm_all io).HitValid := by
  rw [bp_view_t.disarm_all]
  generalize List.range v.bps.elems.length = l
  induction l generalizing v with
  | nil => exact hv
  | cons i l ih => exact ih (hv.on_entry (disarm_addr io) i)

theorem rearm_hit_cases {io : backend_t} {w : bp_view_t} (hrearm : v.rearm_hit io = some w) :
    (v.hit_bp = none ∧ w = v) ∨ ∃ p bp, v.hit_bp = some p ∧ v.bps.deref p = some bp ∧
      ((bp.one_shot = true ∧ w = { v with
          bps := bp_store_t.remove v.bps bp.addr
          hit_bp := none
          set_sites := v.set_sites.filter (· ≠ bp.addr) }) ∨
        (bp.one_shot = false ∧ w = { v.on_entry (arm io) p.index with hit_bp := none })) := by
  rw [rearm_hit] at hrearm
  cases hhit : v.hit_bp with
  | none =>
    simp only [hhit, Option.some.injEq] at hrearm
    exact Or.inl ⟨rfl, hrearm.symm⟩
  | some p =>
    cases hderef : v.bps.deref p with
    | none => simp [hhit, hderef] at hrearm
    | some bp =>
      refine Or.inr ⟨p, bp, rfl, hderef, ?_⟩
      simp only [hhit, hderef] at hrearm
      cases hshot : bp.one_shot with
      | true =>
        rw [hshot, if_pos rfl, Option.some.injEq] at hrearm
        exact Or.inl ⟨rfl, hrearm.symm⟩
      | false =>
        rw [hshot, if_neg Bool.false_ne_true, Option.some.injEq] at hrearm
        exact Or.inr ⟨rfl, hrearm.symm⟩

theorem hit_bp_rearm_hit {io : backend_t} {w : bp_view_t} (hrearm : v.rearm_hit io = some w) : w.hit_bp = none := by
  obtain ⟨hnone, rfl⟩ | ⟨p, bp, -, -, ⟨-, rfl⟩ | ⟨-, rfl⟩⟩ := rearm_hit_cases hrearm
  · exact hnone
  · rfl
  · rfl

/-- Putting the hit entry back leaves the control state alone. -/
theorem rearm_hit_frame {io : backend_t} {w : bp_view_t} (hrearm : v.rearm_hit io = some w) :
    w = { v with mem := w.mem, bps := w.bps, hit_bp := none, set_sites := w.set_sites } := by
  obtain ⟨hnone, rfl⟩ | ⟨p, bp, -, -, ⟨-, rfl⟩ | ⟨-, rfl⟩⟩ := rearm_hit_cases hrearm
  · rw [← hnone]
  · rfl
  · rw [on_entry_frame]

theorem HitValid.of_none (hnone : v.hit_bp = none) : v.HitValid := by
  intro p hp
  rw [hnone] at hp
  cases hp

/-- The entry that is hit becomes the one `hit_bp_` designates. -/
theorem hit_valid_hit {io : backend_t} {i : Nat} {bp : breakpoint_t} (hget : v.bps.elems[i]? = some bp) :
    (v.hit io i bp).HitValid := by
  rintro p ⟨⟩
  rw [hit]
  rw [on_entry_some hget]
  refine Designates.modify ⟨(disarm io v.mem bp).2, ?_, disarm_addr io v.mem bp⟩ i fun _ _ => rfl
  rw [Vec.deref_ptr, Vec.elems_modify, List.getElem?_modify_eq, hget]
  rfl

/-- A step that keeps to the condition keeps the law. -/
theorem HitValid.moves {host : host_t} {io : backend_t} {w : bp_view_t} {a : action_t} (hv : v.HitValid)
    (hkeeps : KeepsHit io v a) (hmove : Moves host io v a w) : w.HitValid := by
  cases hmove with
  | idle | request | stop | pause | foreign | quit | step | detach_quit => exact hv
  | set_sw va hfind harm =>
    intro p hp
    exact (hv p hp).push_back ((hkeeps p hp).1 ⟨hfind, harm⟩) host.grow _
  | set_hw va len type bp hfind hslot hok haddr hkind =>
    intro p hp
    exact (hv p hp).push_back ((hkeeps p hp).1 ⟨hfind, hslot, hok⟩) host.grow bp
  | clear va i hfind =>
    intro p hp
    rw [on_entry_frame] at hp
    have hbehind := (hkeeps p hp).2 va i rfl hfind
    rw [← find_on_entry (disarm_addr io) i] at hfind
    rw [on_entry_frame]
    exact (designates_on_entry (disarm_addr io) i (hv p hp)).remove hfind hbehind
  | configure va condition log_text auto_continue one_shot i hfind =>
    intro p hp
    exact (hv p hp).modify i fun _ _ => rfl
  | hit e i bp stops hcode hfind hget harmed =>
    have hhit : (v.hit io i bp).HitValid := hit_valid_hit hget
    cases stops <;> exact hhit
  | land e i landed hcode hplanned hfind hnot hlanded =>
    intro p hp
    simp only [pause] at hp ⊢
    rw [on_entry_frame] at hp
    have hbehind := (hkeeps p hp).2 _ i ⟨hcode, rfl, hplanned, hnot⟩ hfind
    rw [← find_on_entry (disarm_addr io) i] at hfind
    rw [on_entry_frame]
    exact (designates_on_entry (disarm_addr io) i (hv p hp)).remove hfind hbehind
  | rearm e w stops hmode hcode hrearm =>
    refine HitValid.of_none ?_
    have hnone := hit_bp_rearm_hit hrearm
    cases stops <;> exact hnone
  | plant w hquit hkind hrearm =>
    have hnone := hit_bp_rearm_hit hrearm
    exact HitValid.of_none hnone
  | go w hquit hkind hrearm =>
    have hnone := hit_bp_rearm_hit hrearm
    exact HitValid.of_none hnone
  | detach_disarm => exact hv.disarm_all io
  | detach_finish => exact HitValid.of_none rfl

end bp_view_t

section

variable {host : host_t} {io : backend_t} {s : debugger_t}

theorem rearm_hit_isSome (hv : s.view.HitValid) (io : backend_t) : (s.rearm_hit io).isSome = true := by
  rw [debugger_t.rearm_hit]
  cases hhit : s.hit_bp with
  | none => rfl
  | some p =>
    obtain ⟨bp, hderef, -⟩ := hv p hhit
    have hget : s.bps.deref p = some bp := hderef
    simp only [hget]
    split <;> rfl

/-- A pointer that is followed after a plant points to the same entry as before. -/
theorem plant_temp_deref {v : bp_view_t} {p : Ptr} {bp : breakpoint_t} (hv : v.HitValid) (hhit : v.hit_bp = some p)
    (grow : Growth) (hroom : bp_store_t.find v.bps v.plan.temp_addr = none ∧
      io.read_ok v.plan.temp_addr 1 = true ∧ io.write_ok v.plan.temp_addr = true → v.bps.HasRoom)
    (hderef : (v.plant_temp grow io).bps.deref p = some bp) : v.bps.deref p = some bp := by
  obtain ⟨b, hb, -⟩ := hv p hhit
  rw [bp_view_t.plant_temp] at hderef
  split at hderef
  · rename_i hok
    obtain ⟨hread, hwrite⟩ := Bool.and_eq_true_iff.mp hok
    simp only [bp_store_t.add] at hderef
    split at hderef
    · exact hderef
    · rename_i hfind
      rw [Vec.deref_push_back (hroom ⟨by simpa using hfind, hread, hwrite⟩) grow _ hb] at hderef
      exact hb.trans hderef
  · exact hderef

theorem plant_temp_hit_valid {v : bp_view_t} (hv : v.HitValid) (grow : Growth)
    (hroom : ∀ p, v.hit_bp = some p → bp_store_t.find v.bps v.plan.temp_addr = none ∧
      io.read_ok v.plan.temp_addr 1 = true ∧ io.write_ok v.plan.temp_addr = true → v.bps.HasRoom) :
    (v.plant_temp grow io).HitValid := by
  rw [bp_view_t.plant_temp]
  split
  · rename_i hok
    obtain ⟨hread, hwrite⟩ := Bool.and_eq_true_iff.mp hok
    intro p hp
    change Designates (bp_store_t.add grow v.bps v.plan.temp_addr (v.mem v.plan.temp_addr) false) p v.hit_site
    rw [bp_store_t.add]
    cases hfind : bp_store_t.find v.bps v.plan.temp_addr with
    | some i => exact hv p hp
    | none => exact (hv p hp).push_back (hroom p hp ⟨hfind, hread, hwrite⟩) grow _
  · exact hv

/-- No step that keeps to the condition follows a dead pointer. -/
theorem step_isSome {a : action_t} (hv : s.view.HitValid) (henabled : s.Enabled a) (hkeeps : KeepsHit io s.view a) :
    (s.step host io a).isSome = true := by
  cases a with
  | command | poll | timeout | detach_disarm | detach_quit | detach_finish => rfl
  | event ev =>
    rw [debugger_t.step, loop_event_settle, Option.isSome_map]
    cases ev with
    | exception e =>
      have hrearm := rearm_hit_isSome (s := { s with target := s.target.set_thread e.tid e.ctx }) hv io
      rw [debugger_t.handle_event, debugger_t.handle_exception]
      split
      · rfl
      · split
        · rfl
        · split
          · rw [debugger_t.handle_single_step]
            split
            · rw [Option.isSome_map, hrearm]
            · rfl
          · rfl
    | create_thread | exit_thread | load_dll | unload_dll | exit_process | other => rfl
  | wake =>
    obtain ⟨hpaused, -⟩ := henabled
    cases hloop : s.loop with
    | top | waiting | exited =>
      rw [hloop] at hpaused
      cases hpaused
    | paused tid status =>
      simp only [debugger_t.step, hloop, debugger_t.loop_wake]
      by_cases hquit : s.quit = true
      · rw [if_pos hquit]
        rfl
      · rw [if_neg hquit, Option.isSome_map, debugger_t.apply_plan]
        cases hkind : s.pending_plan.kind with
        | trap_flag => rfl
        | none => rw [Option.isSome_map, rearm_hit_isSome hv]
        | temp_breakpoint =>
          have hplanted : (s.plant_temp host.grow io s.pending_plan.temp_addr).view.HitValid := by
            rw [plant_temp_view]
            refine plant_temp_hit_valid hv host.grow ?_
            intro p hp happends
            exact (hkeeps p hp).1 ⟨Bool.eq_false_iff.mpr hquit, hkind, happends⟩
          rw [Option.isSome_map, rearm_hit_isSome hplanted]

/-- In a run whose steps keep to the condition, `hit_bp_` is null or designates the
entry of the site that was hit, and no step follows a dead pointer. -/
theorem hit_bp_designates_hit (host : host_t) (target : target_t) {s : debugger_t}
    (hreach : Relation.ReflTransGen (Step host fun io s a => KeepsHit io s.view a) (debugger_t.attached target) s) :
    (∀ p, s.hit_bp = some p → ∃ bp, s.bps.deref p = some bp ∧ bp.addr = s.hit_site) ∧
    ∀ io a, s.Enabled a → KeepsHit io s.view a → (s.step host io a).isSome = true := by
  have hv : s.view.HitValid := by
    refine Transition.invariant (I := fun s => s.view.HitValid) ?_ ?_ hreach
    · exact bp_view_t.HitValid.of_none rfl
    · rintro s ⟨io, a⟩ s' hv ⟨henabled, hkeeps⟩ hstep
      exact hv.moves hkeeps (step_moves henabled hstep)
  exact ⟨hv, fun io a henabled hkeeps => step_isSome hv henabled hkeeps⟩

/-- The first breakpoint of a session is hit. -/
theorem hit_bp_designates_first_hit :
    ∃ s : debugger_t, s.hit_bp = some ⟨1, 0⟩ ∧
      ((∀ p, s.hit_bp = some p → ∃ bp, s.bps.deref p = some bp ∧ bp.addr = s.hit_site) ∧
        ∀ io a, s.Enabled a → KeepsHit io s.view a → (s.step plain_host io a).isSome = true) := by
  have hok : ∀ (s : debugger_t) (a : action_t), s.hit_bp = none → KeepsHit user_backend s.view a := by
    intro s a hnone p hp
    rw [debugger_t.view_hit_bp, hnone] at hp
    cases hp
  obtain ⟨s, hreach, hhit⟩ := plain_run (fun s _ => s.hit_bp = none) (fun io s a => KeepsHit io s.view a)
    (debugger_t.attached (filled_target 0x90))
    [.command (.set_sw_breakpoint 0x401000), .poll,
      .event (.exception { tid := 1, code := kStatusBreakpoint, address := 0x401001 })]
    (fun s => s.hit_bp = some ⟨1, 0⟩) hok (by decide)
  exact ⟨s, of_decide_eq_true hhit, hit_bp_designates_hit _ _ hreach⟩

/-- Commands come only while the loop is paused. -/
def IssuedPaused (s : debugger_t) : action_t → Prop
  | .command _ => s.loop.is_paused = true
  | _ => True

instance (s : debugger_t) : (a : action_t) → Decidable (IssuedPaused s a)
  | .command _ => inferInstanceAs (Decidable (_ = _))
  | .poll | .timeout | .event _ | .wake | .detach_disarm | .detach_quit | .detach_finish => isTrue trivial

/-- A second breakpoint set while the loop is paused on the first moves the store, and
`hit_bp_` points into the old buffer. -/
theorem hit_bp_dangles_after_append :
    ¬ ∀ (host : host_t) (target : target_t) (s : debugger_t),
      Relation.ReflTransGen (Step host fun _ s a => IssuedPaused s a) (debugger_t.attached target) s →
      ∀ p, s.hit_bp = some p → ∃ bp, s.bps.deref p = some bp ∧ bp.addr = s.hit_site := by
  intro hlaw
  obtain ⟨s, hreach, hends⟩ := plain_run IssuedPaused (fun _ s a => IssuedPaused s a)
    (debugger_t.attached (filled_target 0x90))
    [.poll, .event (.exception { tid := 1, code := kStatusBreakpoint, address := 0x7FFE0001 }),
      .command (.set_sw_breakpoint 0x401000), .command .go, .wake, .poll,
      .event (.exception { tid := 1, code := kStatusBreakpoint, address := 0x401001 }),
      .command (.set_sw_breakpoint 0x402000)]
    (fun s => s.hit_bp = some ⟨1, 0⟩ && (s.bps.deref ⟨1, 0⟩).isNone) (fun _ _ h => h) (by decide)
  obtain ⟨hhit, hdead⟩ := Bool.and_eq_true_iff.mp hends
  obtain ⟨bp, hderef, -⟩ := hlaw _ _ s hreach ⟨1, 0⟩ (of_decide_eq_true hhit)
  rw [hderef] at hdead
  cases hdead

end

end slop.core.debugger
