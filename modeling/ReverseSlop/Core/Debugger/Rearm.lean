import ReverseSlop.Core.Debugger.HitPointer

namespace slop.core.debugger

open runtime Buffer

/-- The entry of an address is armed, unless it is excused. -/
def SiteArmed (mem : UInt64 → UInt8) (l : List breakpoint_t) (excused : Prop) (va : UInt64) : Prop :=
  ∃ b ∈ l, b.addr = va ∧ b.hardware = false ∧ (b.armed = true → mem va = 0xCC) ∧ (b.armed = true ∨ excused)

/-- Every breakpoint that is set and not cleared is armed but for the one that is hit,
and while the target runs on a hit the single step will put it back. -/
structure Rearmed (v : bp_view_t) : Prop where
  hit : v.HitValid
  distinct : Keyed.Distinct breakpoint_t.addr v.bps.elems
  sites : ∀ va ∈ v.set_sites, SiteArmed v.mem v.bps.elems (v.hit_bp.isSome = true ∧ va = v.hit_site) va
  pending : v.state = .running → v.hit_bp.isSome = true → v.resume_mode = .step_rearm
  paused : v.paused = true → v.state = .paused

/-- The byte of the hit entry can be put back, if it has to be. -/
def RearmWorks (io : backend_t) (v : bp_view_t) : Prop :=
  ∀ p bp, v.hit_bp = some p → v.bps.deref p = some bp → bp.one_shot = false → bp.hardware = false →
    bp.armed = false → can_arm io bp.addr = true

/-- The hit entry stays where it is, is put back successfully, and until it is put back no
other armed entry is hit and, while the target runs, nobody asks to resume. -/
def KeepsArmed (io : backend_t) (v : bp_view_t) (a : action_t) : Prop :=
  KeepsHit io v a ∧
  match a with
  | .command .go | .command .step_into | .command .step_over | .command .step_out =>
    v.state = .running → v.hit_bp = none
  | .event (.exception e) =>
    (e.code = kStatusBreakpoint → v.hit_bp.isSome = true → ¬ v.NotArmed (e.address - 1) →
      e.address - 1 = v.hit_site) ∧
    (e.code = kStatusSingleStep → v.resume_mode = .step_rearm → RearmWorks io v)
  | .wake => v.quit = false → v.plan.kind ≠ .trap_flag → RearmWorks io v
  | _ => True

section

variable {io : backend_t} {v : bp_view_t} {va : UInt64} {excused excused' : Prop}

theorem SiteArmed.mono {mem : UInt64 → UInt8} {l : List breakpoint_t} (hexcused : excused → excused')
    (hsite : SiteArmed mem l excused va) : SiteArmed mem l excused' va := by
  obtain ⟨b, hb, haddr, hsoft, hmem, harmed⟩ := hsite
  exact ⟨b, hb, haddr, hsoft, hmem, harmed.imp_right hexcused⟩

/-- Writing the entry of another address changes nothing. -/
theorem SiteArmed.modify_other {mem mem' : UInt64 → UInt8} {l : List breakpoint_t} {i : Nat} {bp : breakpoint_t}
    {f : breakpoint_t → breakpoint_t} (hdistinct : Keyed.Distinct breakpoint_t.addr l) (hget : l[i]? = some bp)
    (hne : va ≠ bp.addr) (hmem : ∀ a, a ≠ bp.addr → mem' a = mem a) (hsite : SiteArmed mem l excused va) :
    SiteArmed mem' (l.modify i f) excused va := by
  obtain ⟨b, hb, haddr, hsoft, hint3, harmed⟩ := hsite
  refine ⟨b, (hdistinct.mem_modify hget b).mpr (Or.inr ⟨hb, fun h => hne (haddr.symm.trans h)⟩), haddr, hsoft, ?_, harmed⟩
  rw [hmem va hne]
  exact hint3

/-- The entry of the address itself is written. -/
theorem SiteArmed.modify_self {mem mem' : UInt64 → UInt8} {l : List breakpoint_t} {i : Nat} {bp : breakpoint_t}
    {f : breakpoint_t → breakpoint_t} (hdistinct : Keyed.Distinct breakpoint_t.addr l) (hget : l[i]? = some bp)
    (haddr : (f bp).addr = bp.addr) (hsite : SiteArmed mem l excused bp.addr)
    (hentry : bp.hardware = false → (bp.armed = true → mem bp.addr = 0xCC) → (bp.armed = true ∨ excused) →
      (f bp).hardware = false ∧ ((f bp).armed = true → mem' bp.addr = 0xCC) ∧ ((f bp).armed = true ∨ excused')) :
    SiteArmed mem' (l.modify i f) excused' bp.addr := by
  obtain ⟨b, hb, hsame, hsoft, hint3, harmed⟩ := hsite
  obtain rfl : b = bp := hdistinct.eq_of_key hb (List.mem_of_getElem? hget) hsame
  obtain ⟨hsoft', hint3', harmed'⟩ := hentry hsoft hint3 harmed
  exact ⟨f b, (hdistinct.mem_modify hget _).mpr (Or.inl rfl), haddr, hsoft', hint3', harmed'⟩

theorem SiteArmed.append {mem mem' : UInt64 → UInt8} {l : List breakpoint_t} (hmem : mem va = 0xCC → mem' va = 0xCC)
    (bp : breakpoint_t) (hsite : SiteArmed mem l excused va) : SiteArmed mem' (l ++ [bp]) excused va := by
  obtain ⟨b, hb, haddr, hsoft, hint3, harmed⟩ := hsite
  exact ⟨b, List.mem_append_left _ hb, haddr, hsoft, fun h => hmem (hint3 h), harmed⟩

theorem SiteArmed.remove {mem : UInt64 → UInt8} {bps : bp_store_t} {site : UInt64} (hne : va ≠ site)
    (hsite : SiteArmed mem bps.elems excused va) : SiteArmed mem (bp_store_t.remove bps site).elems excused va := by
  obtain ⟨b, hb, haddr, hrest⟩ := hsite
  exact ⟨b, bp_store_t.mem_remove.mpr ⟨hb, fun h => hne (haddr.symm.trans h)⟩, haddr, hrest⟩

theorem arm_off (mem : UInt64 → UInt8) (bp : breakpoint_t) {a : UInt64} (ha : a ≠ bp.addr) :
    (arm io mem bp).1 a = mem a := by
  rw [arm]
  split
  · rfl
  · exact Function.update_of_ne ha _ _

theorem disarm_off (mem : UInt64 → UInt8) (bp : breakpoint_t) {a : UInt64} (ha : a ≠ bp.addr) :
    (disarm io mem bp).1 a = mem a := by
  rw [disarm]
  split
  · rfl
  · exact Function.update_of_ne ha _ _

/-- Disarming either fails and changes nothing, or leaves the entry not armed. -/
theorem disarm_cases (io : backend_t) (mem : UInt64 → UInt8) (bp : breakpoint_t) :
    disarm io mem bp = (mem, bp) ∨
      (disarm io mem bp).2.armed = false ∧ (disarm io mem bp).2.hardware = bp.hardware := by
  rw [disarm]
  split
  · exact Or.inl rfl
  · exact Or.inr ⟨rfl, rfl⟩

/-- Touching an entry without changing whether it is armed. -/
theorem SiteArmed.retouch {mem : UInt64 → UInt8} {l : List breakpoint_t} (hsite : SiteArmed mem l excused va) (i : Nat)
    {f : breakpoint_t → breakpoint_t}
    (hf : ∀ b, (f b).addr = b.addr ∧ (f b).hardware = b.hardware ∧ (f b).armed = b.armed) :
    SiteArmed mem (l.modify i f) excused va := by
  obtain ⟨b, hb, haddr, hsoft, hint3, harmed⟩ := hsite
  obtain ⟨haddr', hsoft', harmed'⟩ := hf b
  rcases Keyed.mem_modify_of_mem hb i f with hb | hb
  · exact ⟨b, hb, haddr, hsoft, hint3, harmed⟩
  · refine ⟨f b, hb, haddr'.trans haddr, hsoft'.trans hsoft, ?_, ?_⟩ <;> rw [harmed']
    · exact hint3
    · exact harmed

theorem Rearmed.hit_entry (hv : Rearmed v) {p : Ptr} {bp : breakpoint_t} (hhit : v.hit_bp = some p)
    (hderef : v.bps.deref p = some bp) : bp.addr = v.hit_site := by
  obtain ⟨b, hb, haddr⟩ := hv.hit p hhit
  obtain rfl : bp = b := Option.some.inj (hderef.symm.trans hb)
  exact haddr

theorem Rearmed.arm_site (hv : Rearmed v) {i : Nat} {bp : breakpoint_t} (hget : v.bps.elems[i]? = some bp)
    (haddr : bp.addr = v.hit_site) (hworks : bp.hardware = false → bp.armed = false → can_arm io bp.addr = true)
    (hva : va ∈ v.set_sites) (excused' : Prop) :
    SiteArmed (v.on_entry (arm io) i).mem (v.on_entry (arm io) i).bps.elems excused' va := by
  have hsite := hv.sites va hva
  rw [bp_view_t.on_entry_some hget]
  by_cases hne : va = bp.addr
  · subst hne
    refine hsite.modify_self hv.distinct hget (arm_addr io v.mem bp) ?_
    intro hsoft hint3 _
    cases hset : bp.armed with
    | true =>
      have hkept : arm io v.mem bp = (v.mem, bp) := by rw [arm, hset]; rfl
      rw [hkept]
      exact ⟨hsoft, hint3, Or.inl hset⟩
    | false =>
      have hdone : arm io v.mem bp =
          (Function.update v.mem bp.addr 0xCC, { bp with orig_byte := v.mem bp.addr, armed := true }) := by
        rw [arm, hset, hsoft, hworks hsoft hset]
        rfl
      rw [hdone]
      exact ⟨hsoft, fun _ => Function.update_self _ _ _, Or.inl rfl⟩
  · have hother : SiteArmed v.mem v.bps.elems excused' va := hsite.mono fun h => absurd (h.2.trans haddr.symm) hne
    exact hother.modify_other hv.distinct hget hne fun a ha => arm_off v.mem bp ha

/-- The hit entry is put back. -/
theorem Rearmed.rearm_hit (hv : Rearmed v) (hworks : RearmWorks io v) {w : bp_view_t}
    (hrearm : v.rearm_hit io = some w) : Rearmed w := by
  obtain ⟨-, rfl⟩ | ⟨p, bp, hhit, hderef, hcases⟩ := bp_view_t.rearm_hit_cases hrearm
  · exact hv
  · have haddr := hv.hit_entry hhit hderef
    obtain ⟨hshot, rfl⟩ | ⟨hshot, rfl⟩ := hcases
    · refine ⟨bp_view_t.HitValid.of_none rfl, hv.distinct.filter _, ?_, fun _ h => (by cases h), hv.paused⟩
      intro va hva
      obtain ⟨hva, hne⟩ := List.mem_filter.mp hva
      have hne : va ≠ bp.addr := by simpa using hne
      exact ((hv.sites va hva).remove hne).mono fun h => absurd (h.2.trans haddr.symm) hne
    · have hget := (Vec.deref_eq_some.mp hderef).2
      refine ⟨bp_view_t.HitValid.of_none rfl, hv.distinct.congr (bp_view_t.addrs_on_entry (arm_addr io) p.index), ?_,
        fun _ h => (by cases h), ?_⟩
      · intro va hva
        rw [bp_view_t.on_entry_frame] at hva
        exact hv.arm_site hget haddr (hworks p bp hhit hderef hshot) hva _
      · rw [bp_view_t.on_entry_frame]
        exact hv.paused

/-- Disarming an entry leaves the other addresses armed. -/
theorem Rearmed.disarm_other (hv : Rearmed v) {i : Nat} {bp : breakpoint_t} (hget : v.bps.elems[i]? = some bp)
    (hva : va ∈ v.set_sites) (hne : va ≠ bp.addr) :
    SiteArmed (v.on_entry (disarm io) i).mem (v.on_entry (disarm io) i).bps.elems
      (v.hit_bp.isSome = true ∧ va = v.hit_site) va := by
  rw [bp_view_t.on_entry_some hget]
  exact (hv.sites va hva).modify_other hv.distinct hget hne fun a ha => disarm_off v.mem bp ha

/-- An armed entry is hit while none is, or again. -/
theorem Rearmed.hit_sites (hv : Rearmed v) {i : Nat} {bp : breakpoint_t} (hget : v.bps.elems[i]? = some bp)
    (hfree : v.hit_bp.isSome = true → bp.addr = v.hit_site) (hva : va ∈ v.set_sites) :
    SiteArmed (v.hit io i bp).mem (v.hit io i bp).bps.elems (true = true ∧ va = bp.addr) va := by
  have hdisarmed : SiteArmed (v.on_entry (disarm io) i).mem (v.on_entry (disarm io) i).bps.elems
      (true = true ∧ va = bp.addr) va := by
    by_cases hne : va = bp.addr
    · subst hne
      rw [bp_view_t.on_entry_some hget]
      refine (hv.sites _ hva).modify_self hv.distinct hget (disarm_addr io v.mem bp) ?_
      intro hsoft hint3 _
      obtain hkept | ⟨hunarmed, hsame⟩ := disarm_cases io v.mem bp
      · rw [hkept]
        exact ⟨hsoft, hint3, Or.inr ⟨rfl, rfl⟩⟩
      · refine ⟨hsame.trans hsoft, fun h => ?_, Or.inr ⟨rfl, rfl⟩⟩
        rw [hunarmed] at h
        cases h
    · refine (hv.disarm_other hget hva hne).mono ?_
      rintro ⟨hsome, hsite⟩
      exact absurd (hsite.trans (hfree hsome).symm) hne
  exact hdisarmed.retouch i fun _ => ⟨rfl, rfl, rfl⟩

theorem Rearmed.hit_step (hv : Rearmed v) {i : Nat} {bp : breakpoint_t} (hget : v.bps.elems[i]? = some bp)
    (hfree : v.hit_bp.isSome = true → bp.addr = v.hit_site) (stops : Bool) :
    Rearmed (if stops then (v.hit io i bp).pause else { v.hit io i bp with resume_mode := .step_rearm }) := by
  have hvalid : (v.hit io i bp).HitValid := bp_view_t.hit_valid_hit hget
  have hsites : ∀ va ∈ (v.hit io i bp).set_sites,
      SiteArmed (v.hit io i bp).mem (v.hit io i bp).bps.elems (true = true ∧ va = bp.addr) va := by
    intro va hva
    rw [bp_view_t.hit, bp_view_t.on_entry_frame] at hva
    exact hv.hit_sites hget hfree hva
  have hdistinct : Keyed.Distinct breakpoint_t.addr (v.hit io i bp).bps.elems := by
    have haddrs := bp_view_t.addrs_on_entry (v := v) (disarm_addr io) i
    exact (hv.distinct.congr haddrs).modify fun _ _ => rfl
  have hpaused : (v.hit io i bp).paused = true → (v.hit io i bp).state = .paused := by
    rw [bp_view_t.hit, bp_view_t.on_entry_frame]
    exact hv.paused
  cases stops with
  | true => exact ⟨hvalid, hdistinct, hsites, fun h => (by cases h), fun _ => rfl⟩
  | false => exact ⟨hvalid, hdistinct, hsites, fun _ _ => rfl, hpaused⟩

theorem Rearmed.plant_temp (hv : Rearmed v) (grow : Growth)
    (hroom : ∀ p, v.hit_bp = some p → bp_store_t.find v.bps v.plan.temp_addr = none ∧
      io.read_ok v.plan.temp_addr 1 = true ∧ io.write_ok v.plan.temp_addr = true → v.bps.HasRoom) :
    Rearmed (v.plant_temp grow io) := by
  have hvalid := plant_temp_hit_valid hv.hit grow hroom
  rw [bp_view_t.plant_temp] at hvalid ⊢
  by_cases hok : (io.read_ok v.plan.temp_addr 1 && io.write_ok v.plan.temp_addr) = true
  · rw [if_pos hok] at hvalid ⊢
    have hkept : ∀ va, v.mem va = 0xCC → Function.update v.mem v.plan.temp_addr 0xCC va = 0xCC :=
      fun va hva => update_int3 hva v.plan.temp_addr
    refine ⟨hvalid, ?_, ?_, hv.pending, hv.paused⟩
    · rw [bp_store_t.add]
      split
      · exact hv.distinct
      · rename_i hfind
        rw [Vec.elems_push_back]
        exact hv.distinct.append (bp_store_t.find_none (by simpa using hfind))
    · intro va hva
      rw [bp_store_t.add]
      split
      · obtain ⟨b, hb, haddr, hsoft, hint3, harmed⟩ := hv.sites va hva
        exact ⟨b, hb, haddr, hsoft, fun h => hkept va (hint3 h), harmed⟩
      · rw [Vec.elems_push_back]
        exact (hv.sites va hva).append (hkept va) _
  · rw [if_neg hok]
    exact hv

theorem moves_detaching {host : host_t} {w : bp_view_t} {a : action_t} (hmove : Moves host io v a w)
    (hnone : w.detaching = .none) : v.detaching = .none := by
  cases hmove with
  | idle | request | set_sw | set_hw | configure | stop | pause | foreign | quit | step => exact hnone
  | clear va i hfind =>
    rw [bp_view_t.on_entry_frame] at hnone
    exact hnone
  | hit e i bp stops =>
    have hsame : (v.hit io i bp).detaching = v.detaching := by rw [bp_view_t.hit, bp_view_t.on_entry_frame]
    cases stops <;> exact hsame.symm.trans hnone
  | land e i =>
    simp only [bp_view_t.pause] at hnone
    rw [bp_view_t.on_entry_frame] at hnone
    exact hnone
  | rearm e w stops hmode hcode hrearm =>
    have hsame : w.detaching = v.detaching := by rw [bp_view_t.rearm_hit_frame hrearm]
    cases stops <;> exact hsame.symm.trans hnone
  | plant w hquit hkind hrearm =>
    have hsame : w.detaching = (v.plant_temp host.grow io).detaching := by rw [bp_view_t.rearm_hit_frame hrearm]
    have hplant : (v.plant_temp host.grow io).detaching = v.detaching := by
      rw [bp_view_t.plant_temp]
      split <;> rfl
    exact hplant.symm.trans (hsame.symm.trans hnone)
  | go w hquit hkind hrearm =>
    have hsame : w.detaching = v.detaching := by rw [bp_view_t.rearm_hit_frame hrearm]
    exact hsame.symm.trans hnone
  | detach_disarm | detach_quit | detach_finish => cases hnone

/-- A thread is released when no hit is left. -/
theorem Rearmed.release (hv : Rearmed v) (hnone : v.hit_bp = none) : Rearmed (v.release .none) := by
  refine ⟨hv.hit, hv.distinct, hv.sites, fun _ hsome => ?_, fun h => (by cases h)⟩
  rw [show (v.release .none).hit_bp = v.hit_bp from rfl, hnone] at hsome
  cases hsome

theorem Rearmed.clear {va : UInt64} {i : Nat} (hv : Rearmed v) (hfind : bp_store_t.find v.bps va = some i)
    (hvalid : bp_view_t.HitValid { v.on_entry (disarm io) i with
      bps := bp_store_t.remove (v.on_entry (disarm io) i).bps va
      set_sites := v.set_sites.filter (· ≠ va) }) :
    Rearmed { v.on_entry (disarm io) i with
      bps := bp_store_t.remove (v.on_entry (disarm io) i).bps va
      set_sites := v.set_sites.filter (· ≠ va) } := by
  obtain ⟨bp, hget, haddr⟩ := bp_store_t.find_some hfind
  refine ⟨hvalid, (hv.distinct.congr (bp_view_t.addrs_on_entry (disarm_addr io) i)).filter _, ?_, ?_, ?_⟩
  · intro x hx
    obtain ⟨hx, hne⟩ := List.mem_filter.mp hx
    have hne : x ≠ va := by simpa using hne
    have hsite : SiteArmed (v.on_entry (disarm io) i).mem (v.on_entry (disarm io) i).bps.elems
        (v.hit_bp.isSome = true ∧ x = v.hit_site) x := hv.disarm_other hget hx (haddr.symm ▸ hne)
    have hother := hsite.remove hne
    rw [bp_view_t.on_entry_frame]
    exact hother
  · rw [bp_view_t.on_entry_frame]
    exact hv.pending
  · rw [bp_view_t.on_entry_frame]
    exact hv.paused

/-- The entry that a step lands on is not armed, so it is no breakpoint that is set. -/
theorem Rearmed.land {e : exception_t} {i : Nat} {landed : Option UInt64} (hv : Rearmed v)
    (hhit : KeepsHit io v (.event (.exception e))) (hcode : e.code = kStatusBreakpoint)
    (hplanned : v.Planned (e.address - 1)) (hfind : bp_store_t.find v.bps (e.address - 1) = some i)
    (hnot : v.NotArmed (e.address - 1))
    (hvalid : bp_view_t.HitValid { (v.on_entry (disarm io) i).pause with
      bps := bp_store_t.remove (v.on_entry (disarm io) i).bps (e.address - 1)
      landed }) :
    Rearmed { (v.on_entry (disarm io) i).pause with
      bps := bp_store_t.remove (v.on_entry (disarm io) i).bps (e.address - 1)
      landed } := by
  obtain ⟨bp, hget, haddr⟩ := bp_store_t.find_some hfind
  have hunarmed := hnot i bp hfind hget
  have hsame : v.on_entry (disarm io) i = v := by
    rw [bp_view_t.on_entry_some hget, disarm_unarmed hunarmed, Vec.modify_self hget]
  rw [hsame] at hvalid ⊢
  refine ⟨hvalid, hv.distinct.filter _, fun x hx => ?_, fun h => (by cases h), fun _ => rfl⟩
  refine (hv.sites x hx).remove ?_
  -- the entry of a set breakpoint is not armed only while it is hit, and then it is not erased
  rintro rfl
  obtain ⟨b, hb, hsite, -, -, harmed⟩ := hv.sites _ hx
  obtain rfl : b = bp := hv.distinct.eq_of_key hb (List.mem_of_getElem? hget) (hsite.trans haddr.symm)
  rw [hunarmed] at harmed
  obtain ⟨hsome, hhere⟩ := harmed.resolve_left Bool.false_ne_true
  obtain ⟨p, hp⟩ := Option.isSome_iff_exists.mp hsome
  obtain ⟨c, hderef, hc⟩ := hv.hit p hp
  have hbehind := (hhit p hp).2 _ i ⟨hcode, rfl, hplanned, hnot⟩ hfind
  exact bp_store_t.find_before hfind hbehind (Vec.deref_eq_some.mp hderef).2 (hc.trans hhere.symm)

/-- A step that keeps to the condition keeps the breakpoints armed. -/
theorem Rearmed.moves {host : host_t} {w : bp_view_t} {a : action_t} (hv : Rearmed v) (hkeeps : KeepsArmed io v a)
    (hmove : Moves host io v a w) (hnone : w.detaching = .none) : Rearmed w := by
  obtain ⟨hhit, hkeeps⟩ := hkeeps
  have hvalid := hv.hit.moves hhit hmove
  cases hmove with
  | idle => exact hv
  | request c plan hc =>
    refine ⟨hvalid, hv.distinct, hv.sites, fun hrunning hsome => ?_, hv.paused⟩
    have hfree : v.hit_bp = none := by rcases hc with rfl | rfl | rfl | rfl <;> exact hkeeps hrunning
    rw [show ({ v with plan, resume_mode := .apply_plan } : bp_view_t).hit_bp = v.hit_bp from rfl, hfree] at hsome
    cases hsome
  | set_sw va hfind harm =>
    have hnew := bp_store_t.find_none hfind
    refine ⟨hvalid, ?_, ?_, hv.pending, hv.paused⟩
    · rw [Vec.elems_push_back]
      exact hv.distinct.append hnew
    · intro x hx
      rw [Vec.elems_push_back]
      rcases List.mem_cons.mp hx with rfl | hx
      · exact ⟨_, List.mem_append_right _ (List.mem_singleton.mpr rfl), rfl, rfl,
          fun _ => Function.update_self _ _ _, Or.inl rfl⟩
      · exact (hv.sites x hx).append (fun h => update_int3 h va) _
  | set_hw va len type bp hfind hslot hok haddr hkind =>
    rw [← haddr] at hfind
    refine ⟨hvalid, ?_, fun x hx => ?_, hv.pending, hv.paused⟩
    · rw [Vec.elems_push_back]
      exact hv.distinct.append (bp_store_t.find_none hfind)
    · rw [Vec.elems_push_back]
      exact (hv.sites x hx).append id bp
  | clear va i hfind => exact hv.clear hfind hvalid
  | configure va condition log_text auto_continue one_shot i hfind =>
    exact ⟨hvalid, hv.distinct.modify fun _ _ => rfl, fun x hx => (hv.sites x hx).retouch i fun _ => ⟨rfl, rfl, rfl⟩,
      hv.pending, hv.paused⟩
  | stop ev hpaused =>
    refine ⟨hvalid, hv.distinct, hv.sites, fun h => (by cases h), fun h => ?_⟩
    rw [hpaused] at h
    cases h
  | pause | foreign => exact ⟨hvalid, hv.distinct, hv.sites, fun h => (by cases h), fun _ => rfl⟩
  | hit e i bp stops hcode hfind hget harmed =>
    refine hv.hit_step hget (fun hsome => ?_) stops
    obtain ⟨b, hb, haddr⟩ := bp_store_t.find_some hfind
    obtain rfl : bp = b := Option.some.inj (hget.symm.trans hb)
    rw [haddr]
    refine hkeeps.1 hcode hsome fun hnot => ?_
    rw [hnot i bp hfind hget] at harmed
    cases harmed
  | land e i landed hcode hplanned hfind hnot hlanded =>
    exact hv.land hhit hcode hplanned hfind hnot hvalid
  | rearm e w stops hmode hcode hrearm =>
    have hw := hv.rearm_hit (hkeeps.2 hcode hmode) hrearm
    have hfree := bp_view_t.hit_bp_rearm_hit hrearm
    cases stops with
    | true => exact ⟨hvalid, hw.distinct, hw.sites, fun h => (by cases h), fun _ => rfl⟩
    | false =>
      refine ⟨hvalid, hw.distinct, hw.sites, fun _ hsome => ?_, hw.paused⟩
      rw [show ({ w with resume_mode := .none } : bp_view_t).hit_bp = w.hit_bp from rfl, hfree] at hsome
      cases hsome
  | quit hquit hpaused =>
    refine ⟨hvalid, hv.distinct, hv.sites, fun hrunning => ?_, fun h => (by cases h)⟩
    rw [show ({ v with resume_mode := .none, landed := none, paused := false } : bp_view_t).state = v.state from rfl,
      hv.paused hpaused] at hrunning
    cases hrunning
  | step hquit hkind =>
    refine ⟨hvalid, hv.distinct, hv.sites, fun _ hsome => ?_, fun h => (by cases h)⟩
    exact if_pos hsome
  | plant w hquit hkind hrearm =>
    have hworks := hkeeps hquit (by rw [hkind]; exact step_kind_t.noConfusion)
    have hroom := fun p hp h => (hhit p hp).1 ⟨hquit, hkind, h⟩
    have hplanted : RearmWorks io (v.plant_temp host.grow io) := by
      intro p bp hp hderef
      have hp : v.hit_bp = some p := by
        rw [bp_view_t.plant_temp] at hp
        split at hp <;> exact hp
      exact hworks p bp hp (plant_temp_deref hv.hit hp host.grow (hroom p hp) hderef)
    exact ((hv.plant_temp host.grow hroom).rearm_hit hplanted hrearm).release (bp_view_t.hit_bp_rearm_hit hrearm)
  | go w hquit hkind hrearm =>
    have hworks := hkeeps hquit (by rw [hkind]; exact step_kind_t.noConfusion)
    exact (hv.rearm_hit hworks hrearm).release (bp_view_t.hit_bp_rearm_hit hrearm)
  | detach_disarm | detach_quit | detach_finish => cases hnone

end

/-- In a run whose steps keep to the condition, while the target runs every breakpoint
that is set and not cleared is armed with its int3 in memory, or a single step is
pending that will put it back. -/
theorem breakpoints_stay_armed (host : host_t) (target : target_t) {s : debugger_t}
    (hreach : Relation.ReflTransGen (Step host fun io s a => KeepsArmed io s.view a) (debugger_t.attached target) s) :
    s.state = .running → s.detaching = .none → ∀ va ∈ s.set_sites, ∃ b ∈ s.bps.elems, b.addr = va ∧
      (b.armed = true ∧ s.target.mem va = 0xCC ∨
        s.resume_mode = .step_rearm ∧ ∃ p, s.hit_bp = some p ∧ s.bps.deref p = some b) := by
  have hv : s.view.detaching = .none → Rearmed s.view := by
    refine Transition.invariant (I := fun s => s.view.detaching = .none → Rearmed s.view) ?_ ?_ hreach
    · intro _
      exact ⟨bp_view_t.HitValid.of_none rfl, List.Pairwise.nil, fun _ hx => absurd hx List.not_mem_nil,
        fun _ h => (by cases h), fun h => (by cases h)⟩
    · rintro s ⟨io, a⟩ s' hv ⟨henabled, hkeeps⟩ hstep hnone
      have hmove := step_moves henabled hstep
      exact (hv (moves_detaching hmove hnone)).moves hkeeps hmove hnone
  intro hrunning hnone va hva
  have hv := hv hnone
  obtain ⟨b, hb, haddr, -, hint3, harmed⟩ := hv.sites va hva
  refine ⟨b, hb, haddr, ?_⟩
  rcases harmed with harmed | ⟨hsome, hhere⟩
  · exact Or.inl ⟨harmed, hint3 harmed⟩
  · obtain ⟨p, hp⟩ := Option.isSome_iff_exists.mp hsome
    obtain ⟨c, hderef, hc⟩ := hv.hit p hp
    have hcb : c = b := by
      refine hv.distinct.eq_of_key (List.mem_of_getElem? (Vec.deref_eq_some.mp hderef).2) hb ?_
      exact hc.trans (hhere.symm.trans haddr.symm)
    exact Or.inr ⟨hv.pending hrunning hsome, p, hp, hcb ▸ hderef⟩

/-- One of two breakpoints is a tracepoint that is hit. -/
theorem breakpoints_stay_armed_at_tracepoint :
    ∃ s : debugger_t, s.hit_bp.isSome = true ∧ s.set_sites = [0x402000, 0x401000] ∧
      (s.state = .running → s.detaching = .none → ∀ va ∈ s.set_sites, ∃ b ∈ s.bps.elems, b.addr = va ∧
        (b.armed = true ∧ s.target.mem va = 0xCC ∨
          s.resume_mode = .step_rearm ∧ ∃ p, s.hit_bp = some p ∧ s.bps.deref p = some b)) := by
  have hok : ∀ (s : debugger_t) (a : action_t), s.hit_bp = none → KeepsArmed user_backend s.view a := by
    intro s a hnone
    have hview : s.view.hit_bp = none := hnone
    refine ⟨fun p hp => ?_, ?_⟩
    · rw [hview] at hp
      cases hp
    · have hworks : RearmWorks user_backend s.view := by
        intro p bp hp
        rw [hview] at hp
        cases hp
      cases a with
      | command c =>
        cases c with
        | go | step_into | step_over | step_out => exact fun _ => hview
        | _ => trivial
      | event ev =>
        cases ev with
        | exception e =>
          refine ⟨fun _ hsome => ?_, fun _ _ => hworks⟩
          rw [hview] at hsome
          cases hsome
        | _ => trivial
      | wake => exact fun _ _ => hworks
      | poll | timeout | detach_disarm | detach_quit | detach_finish => trivial
  obtain ⟨s, hreach, hends⟩ := plain_run (fun s _ => s.hit_bp = none) (fun io s a => KeepsArmed io s.view a)
    (debugger_t.attached (filled_target 0x90))
    [.command (.set_sw_breakpoint 0x401000), .command (.set_sw_breakpoint 0x402000),
      .command (.configure_breakpoint 0x401000 "" "here" false false), .poll,
      .event (.exception { tid := 1, code := kStatusBreakpoint, address := 0x401001 })]
    (fun s => s.hit_bp.isSome && s.set_sites = [0x402000, 0x401000]) hok (by decide)
  obtain ⟨hsome, hset⟩ := Bool.and_eq_true_iff.mp hends
  exact ⟨s, hsome, of_decide_eq_true hset, breakpoints_stay_armed _ _ hreach⟩

/-- One thread hits a tracepoint, another thread hits a second one before the first has
stepped, and the first tracepoint is never put back. -/
theorem tracepoint_stays_disarmed :
    ¬ ∀ (host : host_t) (target : target_t) (s : debugger_t),
      Relation.ReflTransGen (Step host fun io s a => io.MemoryWorks ∧ IssuedPaused s a) (debugger_t.attached target) s →
      s.state = .running → s.detaching = .none → ∀ va ∈ s.set_sites, ∃ b ∈ s.bps.elems, b.addr = va ∧
        (b.one_shot = true ∨ b.armed = true ∧ s.target.mem va = 0xCC ∨
          s.resume_mode = .step_rearm ∧ ∃ p, s.hit_bp = some p ∧ s.bps.deref p = some b) := by
  intro hlaw
  obtain ⟨s, hreach, hends⟩ := plain_run IssuedPaused (fun io s a => io.MemoryWorks ∧ IssuedPaused s a)
    (debugger_t.attached (filled_target 0x90))
    [.poll, .event (.exception { tid := 1, code := kStatusBreakpoint, address := 0x7FFE0001 }),
      .command (.set_sw_breakpoint 0x401000), .command (.set_sw_breakpoint 0x402000),
      .command (.configure_breakpoint 0x401000 "" "first" false false),
      .command (.configure_breakpoint 0x402000 "" "second" false false), .command .go, .wake, .poll,
      .event (.exception { tid := 1, code := kStatusBreakpoint, address := 0x401001 }), .poll,
      .event (.exception { tid := 2, code := kStatusBreakpoint, address := 0x402001 }), .poll,
      .event (.exception { tid := 1, code := kStatusSingleStep, address := 0x401002 })]
    (fun s => s.state = .running && s.detaching = .none && s.resume_mode = .none && s.set_sites = [0x402000, 0x401000] &&
      s.bps.elems.all fun b => b.addr ≠ 0x401000 || !b.armed && !b.one_shot)
    (fun _ _ h => ⟨user_backend_works, h⟩) (by decide)
  simp only [Bool.and_eq_true, decide_eq_true_eq] at hends
  obtain ⟨⟨⟨⟨hrunning, hnone⟩, hmode⟩, hset⟩, hentries⟩ := hends
  obtain ⟨b, hb, haddr, hb'⟩ := hlaw _ _ s hreach hrunning hnone 0x401000 (by rw [hset]; decide)
  have hentry := List.all_eq_true.mp hentries b hb
  simp only [haddr, ne_eq, not_true_eq_false, decide_false, Bool.false_or, Bool.and_eq_true,
    Bool.not_eq_true'] at hentry
  rw [hentry.1, hentry.2, hmode] at hb'
  rcases hb' with h | ⟨h, -⟩ | ⟨h, -⟩ <;> cases h

end slop.core.debugger
