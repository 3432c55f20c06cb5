import ReverseSlop.Core.Debugger.HitPointer

namespace slop.core.debugger

open runtime Buffer

/-- The target's bytes can be put back: they are the original ones, but for the int3
of each armed entry, and its entry holds the byte under it. -/
structure Restorable (orig : UInt64 → UInt8) (v : bp_view_t) : Prop where
  distinct : Keyed.Distinct breakpoint_t.addr v.bps.elems
  armed : ∀ b ∈ v.bps.elems, b.armed = true →
    b.hardware = false ∧ v.mem b.addr = 0xCC ∧ b.orig_byte = orig b.addr
  original : ∀ a, (∀ b ∈ v.bps.elems, b.armed = true → b.addr ≠ a) → v.mem a = orig a
  permanent : ∀ b ∈ v.bps.elems, b.temporary = false
  landed : v.landed = none
  disarmed : v.detaching ≠ .none → ∀ b ∈ v.bps.elems, b.armed = false

/-- Putting the byte of the hit entry back is safe: the entry is there, it is not dropped
while it is armed, and it is not armed behind the back of `detach`. -/
def RearmSafe (v : bp_view_t) : Prop :=
  ∀ p, v.hit_bp = some p → ∃ bp, v.bps.deref p = some bp ∧
    (if bp.one_shot then bp.armed = false else bp.hardware = true ∨ v.detaching = .none)

/-- The memory works, a temporary breakpoint is only planted where an entry and an int3
are already, hit entries are put back safely and nothing is set after `detach` has
disarmed the breakpoints. -/
def KeepsBytes (io : backend_t) (v : bp_view_t) (a : action_t) : Prop :=
  io.MemoryWorks ∧
  match a with
  | .command (.set_sw_breakpoint va) => bp_store_t.find v.bps va = none → v.detaching = .none
  | .event (.exception e) => e.code = kStatusSingleStep → v.resume_mode = .step_rearm → RearmSafe v
  | .wake =>
    v.quit = false → v.plan.kind ≠ .trap_flag → RearmSafe v ∧
      (v.plan.kind = .temp_breakpoint →
        (bp_store_t.find v.bps v.plan.temp_addr).isSome = true ∧ v.mem v.plan.temp_addr = 0xCC)
  | _ => True

section

variable {io : backend_t} {orig : UInt64 → UInt8} {v : bp_view_t}

theorem stealth_ok_works (hio : io.MemoryWorks) (va : UInt64) : stealth_ok io va = true := by
  rw [stealth_ok, hio.protect, hio.write]
  rfl

theorem can_arm_works (hio : io.MemoryWorks) (va : UInt64) : can_arm io va = true := by
  rw [can_arm, hio.read, stealth_ok_works hio]
  rfl

/-- Only the bytes, the entries, the landing and the detaching matter. -/
theorem Restorable.congr {w : bp_view_t} (hv : Restorable orig v) (hmem : w.mem = v.mem) (hbps : w.bps = v.bps)
    (hlanded : w.landed = none) (hdetaching : w.detaching ≠ .none → v.detaching ≠ .none) : Restorable orig w where
  distinct := hbps ▸ hv.distinct
  armed := by
    rw [hbps, hmem]
    exact hv.armed
  original := by
    rw [hbps, hmem]
    exact hv.original
  permanent := hbps ▸ hv.permanent
  landed := hlanded
  disarmed h := hbps ▸ hv.disarmed (hdetaching h)

/-- An entry that is not armed leaves its byte alone. -/
theorem Restorable.byte_of_unarmed (hv : Restorable orig v) {bp : breakpoint_t} (hbp : bp ∈ v.bps.elems)
    (hunarmed : bp.armed = false) : v.mem bp.addr = orig bp.addr := by
  refine hv.original bp.addr ?_
  intro b hb harmed haddr
  rw [hv.distinct.eq_of_key hb hbp haddr, hunarmed] at harmed
  cases harmed

/-- Write one entry, and the byte at its address. -/
theorem Restorable.modify (hv : Restorable orig v) {i : Nat} {bp : breakpoint_t} (hget : v.bps.elems[i]? = some bp)
    {f : breakpoint_t → breakpoint_t} {mem : UInt64 → UInt8} (haddr : (f bp).addr = bp.addr)
    (htemporary : (f bp).temporary = bp.temporary) (hmem : ∀ a, a ≠ bp.addr → mem a = v.mem a)
    (harmed : (f bp).armed = true → (f bp).hardware = false ∧ mem bp.addr = 0xCC ∧ (f bp).orig_byte = orig bp.addr)
    (hunarmed : (f bp).armed = false → mem bp.addr = orig bp.addr)
    (hdetaching : v.detaching ≠ .none → (f bp).armed = false) :
    Restorable orig { v with mem, bps := v.bps.modify i f } := by
  have hmodify := hv.distinct.mem_modify (f := f) hget
  have hbp := List.mem_of_getElem? hget
  refine ⟨?_, ?_, ?_, ?_, hv.landed, ?_⟩
  · refine hv.distinct.modify ?_
    intro b hb
    rw [hget] at hb
    cases hb
    exact haddr
  · intro b hb hset
    rcases (hmodify b).mp hb with rfl | ⟨hb, hne⟩
    · rw [haddr]
      exact harmed hset
    · simp only
      rw [hmem b.addr hne]
      exact hv.armed b hb hset
  · intro a hnone
    by_cases ha : a = bp.addr
    · rw [ha]
      refine hunarmed (Bool.eq_false_iff.mpr fun hset => ?_)
      exact hnone (f bp) ((hmodify _).mpr (Or.inl rfl)) hset (haddr.trans ha.symm)
    · simp only
      rw [hmem a ha]
      refine hv.original a fun b hb hset hab => ?_
      exact hnone b ((hmodify b).mpr (Or.inr ⟨hb, fun h => ha (hab.symm.trans h)⟩)) hset hab
  · intro b hb
    rcases (hmodify b).mp hb with rfl | ⟨hb, -⟩
    · rw [htemporary]
      exact hv.permanent bp hbp
    · exact hv.permanent b hb
  · intro hdetach b hb
    rcases (hmodify b).mp hb with rfl | ⟨hb, -⟩
    · exact hdetaching hdetach
    · exact hv.disarmed hdetach b hb

/-- Put a new entry behind the others, and write the byte at its address. -/
theorem Restorable.append (hv : Restorable orig v) (grow : Growth) {bp : breakpoint_t}
    (hfind : bp_store_t.find v.bps bp.addr = none) {mem : UInt64 → UInt8} (htemporary : bp.temporary = false)
    (hmem : ∀ a, a ≠ bp.addr → mem a = v.mem a)
    (harmed : bp.armed = true → bp.hardware = false ∧ mem bp.addr = 0xCC ∧ bp.orig_byte = v.mem bp.addr)
    (hunarmed : bp.armed = false → mem bp.addr = v.mem bp.addr)
    (hdetaching : v.detaching ≠ .none → bp.armed = false) :
    Restorable orig { v with mem, bps := v.bps.push_back grow bp } := by
  have hnew := bp_store_t.find_none hfind
  have hbyte : v.mem bp.addr = orig bp.addr := hv.original bp.addr fun b hb _ => hnew b hb
  have hmem_append : ∀ b, b ∈ (v.bps.push_back grow bp).elems ↔ b ∈ v.bps.elems ∨ b = bp := by
    intro b
    rw [Vec.elems_push_back, List.mem_append, List.mem_singleton]
  refine ⟨?_, ?_, ?_, ?_, hv.landed, ?_⟩
  · rw [Vec.elems_push_back]
    exact hv.distinct.append hnew
  · intro b hb hset
    rcases (hmem_append b).mp hb with hb | rfl
    · simp only
      rw [hmem b.addr (hnew b hb)]
      exact hv.armed b hb hset
    · rw [← hbyte]
      exact harmed hset
  · intro a hnone
    by_cases ha : a = bp.addr
    · rw [ha, ← hbyte]
      refine hunarmed (Bool.eq_false_iff.mpr fun hset => ?_)
      exact hnone bp ((hmem_append bp).mpr (Or.inr rfl)) hset ha.symm
    · simp only
      rw [hmem a ha]
      exact hv.original a fun b hb => hnone b ((hmem_append b).mpr (Or.inl hb))
  · intro b hb
    rcases (hmem_append b).mp hb with hb | rfl
    · exact hv.permanent b hb
    · exact htemporary
  · intro hdetach b hb
    rcases (hmem_append b).mp hb with hb | rfl
    · exact hv.disarmed hdetach b hb
    · exact hdetaching hdetach

/-- Drop entries that are not armed. -/
theorem Restorable.remove (hv : Restorable orig v) {site : UInt64}
    (hnot : ∀ b ∈ v.bps.elems, b.addr = site → b.armed = false) :
    Restorable orig { v with bps := bp_store_t.remove v.bps site } := by
  have hsub : ∀ b ∈ (bp_store_t.remove v.bps site).elems, b ∈ v.bps.elems := fun b hb => (bp_store_t.mem_remove.mp hb).1
  refine ⟨hv.distinct.filter _, fun b hb => hv.armed b (hsub b hb), ?_, fun b hb => hv.permanent b (hsub b hb),
    hv.landed, fun hdetach b hb => hv.disarmed hdetach b (hsub b hb)⟩
  intro a hnone
  refine hv.original a fun b hb hset hab => ?_
  by_cases hsite : b.addr = site
  · rw [hnot b hb hsite] at hset
    cases hset
  · exact hnone b (bp_store_t.mem_remove.mpr ⟨hb, hsite⟩) hset hab

theorem Restorable.disarm_entry (hv : Restorable orig v) (hio : io.MemoryWorks) {i : Nat} {bp : breakpoint_t}
    (hget : v.bps.elems[i]? = some bp) :
    Restorable orig (v.on_entry (disarm io) i) ∧ (disarm io v.mem bp).2.armed = false := by
  rw [bp_view_t.on_entry_some hget]
  have hbp := List.mem_of_getElem? hget
  cases hset : bp.armed with
  | false =>
    rw [disarm_unarmed hset, Vec.modify_self hget]
    exact ⟨hv, hset⟩
  | true =>
    obtain ⟨hsoft, -, horig⟩ := hv.armed bp hbp hset
    have hdone : disarm io v.mem bp = (Function.update v.mem bp.addr bp.orig_byte, { bp with armed := false }) := by
      rw [disarm, hset, hsoft, stealth_ok_works hio]
      rfl
    rw [hdone]
    refine ⟨hv.modify hget rfl rfl (fun a ha => Function.update_of_ne ha _ _) (fun h => by cases h) ?_ fun _ => rfl, rfl⟩
    intro _
    exact (Function.update_self _ _ _).trans horig

theorem Restorable.disarm_at (hv : Restorable orig v) (hio : io.MemoryWorks) (i : Nat) :
    Restorable orig (v.on_entry (disarm io) i) := by
  cases hget : v.bps.elems[i]? with
  | none => rwa [bp_view_t.on_entry_none hget]
  | some bp => exact (hv.disarm_entry hio hget).1

/-- The entry found at an address is not armed once it is disarmed. -/
theorem Restorable.unarmed_of_disarm (hv : Restorable orig v) (hio : io.MemoryWorks) {site : UInt64} {i : Nat}
    (hfind : bp_store_t.find v.bps site = some i) :
    ∀ b ∈ (v.on_entry (disarm io) i).bps.elems, b.addr = site → b.armed = false := by
  obtain ⟨bp, hget, haddr⟩ := bp_store_t.find_some hfind
  obtain ⟨hw, hunarmed⟩ := hv.disarm_entry hio hget
  intro b hb hsite
  have hdisarmed : (disarm io v.mem bp).2 ∈ (v.on_entry (disarm io) i).bps.elems := by
    rw [bp_view_t.on_entry_some hget, Vec.elems_modify]
    exact (hv.distinct.mem_modify hget _).mpr (Or.inl rfl)
  rw [hw.distinct.eq_of_key hb hdisarmed (hsite.trans (haddr.symm.trans (disarm_addr io v.mem bp).symm))]
  exact hunarmed

theorem Restorable.arm_entry (hv : Restorable orig v) (hio : io.MemoryWorks) {i : Nat} {bp : breakpoint_t}
    (hget : v.bps.elems[i]? = some bp) (hsafe : bp.hardware = true ∨ v.detaching = .none) :
    Restorable orig (v.on_entry (arm io) i) := by
  rw [bp_view_t.on_entry_some hget]
  have hbp := List.mem_of_getElem? hget
  by_cases hset : (bp.armed || bp.hardware) = true
  · have hkept : arm io v.mem bp = (v.mem, bp) := by rw [arm, hset]; rfl
    rw [hkept, Vec.modify_self hget]
    exact hv
  · obtain ⟨hunarmed, hsoft⟩ : bp.armed = false ∧ bp.hardware = false := by simpa using hset
    have hdone : arm io v.mem bp =
        (Function.update v.mem bp.addr 0xCC, { bp with orig_byte := v.mem bp.addr, armed := true }) := by
      rw [arm, hunarmed, hsoft, can_arm_works hio]
      rfl
    rw [hdone]
    refine hv.modify hget rfl rfl (fun a ha => Function.update_of_ne ha _ _) ?_ (fun h => by cases h) ?_
    · intro _
      exact ⟨hsoft, Function.update_self _ _ _, hv.byte_of_unarmed hbp hunarmed⟩
    · intro hdetach
      rw [hsoft] at hsafe
      exact absurd (hsafe.resolve_left Bool.false_ne_true) hdetach

theorem Restorable.rearm_hit (hv : Restorable orig v) (hio : io.MemoryWorks) (hsafe : RearmSafe v) {w : bp_view_t}
    (hrearm : v.rearm_hit io = some w) : Restorable orig w := by
  obtain ⟨-, rfl⟩ | ⟨p, bp, hhit, hderef, hcases⟩ := bp_view_t.rearm_hit_cases hrearm
  · exact hv
  · obtain ⟨b, hb, hbp⟩ := hsafe p hhit
    obtain rfl : bp = b := Option.some.inj (hderef.symm.trans hb)
    have hget := (Vec.deref_eq_some.mp hderef).2
    obtain ⟨hshot, rfl⟩ | ⟨hshot, rfl⟩ := hcases
    · rw [hshot, if_pos rfl] at hbp
      have hnot : ∀ b ∈ v.bps.elems, b.addr = bp.addr → b.armed = false := by
        intro b hb haddr
        rw [hv.distinct.eq_of_key hb (List.mem_of_getElem? hget) haddr]
        exact hbp
      exact (hv.remove hnot).congr rfl rfl hv.landed id
    · rw [hshot, if_neg Bool.false_ne_true] at hbp
      have harmed := hv.arm_entry hio hget hbp
      exact harmed.congr rfl rfl harmed.landed id

/-- Disarming one position leaves no other entry armed that was not. -/
theorem Restorable.armed_of_disarm (hv : Restorable orig v) (hio : io.MemoryWorks) {i j : Nat} {b : breakpoint_t}
    (hget : (v.on_entry (disarm io) i).bps.elems[j]? = some b) (hset : b.armed = true) :
    j ≠ i ∧ v.bps.elems[j]? = some b := by
  cases hi : v.bps.elems[i]? with
  | none =>
    rw [bp_view_t.on_entry_none hi] at hget
    refine ⟨?_, hget⟩
    rintro rfl
    rw [hi] at hget
    cases hget
  | some bp =>
    have hunarmed := (hv.disarm_entry hio hi).2
    rw [bp_view_t.on_entry_some hi, Vec.elems_modify] at hget
    by_cases hij : i = j
    · rw [← hij, List.getElem?_modify_eq, hi] at hget
      cases hget
      rw [hunarmed] at hset
      cases hset
    · rw [List.getElem?_modify_ne _ _ hij] at hget
      exact ⟨Ne.symm hij, hget⟩

theorem Restorable.disarm_fold (hv : Restorable orig v) (hio : io.MemoryWorks) (l : List Nat) :
    Restorable orig (l.foldl (fun v i => bp_view_t.on_entry (disarm io) v i) v) ∧
      ∀ j b, (l.foldl (fun v i => bp_view_t.on_entry (disarm io) v i) v).bps.elems[j]? = some b → b.armed = true →
        j ∉ l ∧ v.bps.elems[j]? = some b := by
  induction l generalizing v with
  | nil => exact ⟨hv, fun j b hget _ => ⟨List.not_mem_nil, hget⟩⟩
  | cons i l ih =>
    obtain ⟨hw, harmed⟩ := ih (hv.disarm_at hio i)
    refine ⟨hw, fun j b hget hset => ?_⟩
    obtain ⟨hnot, hmid⟩ := harmed j b hget hset
    obtain ⟨hne, hstart⟩ := hv.armed_of_disarm hio hmid hset
    exact ⟨List.not_mem_cons_of_ne_of_not_mem hne hnot, hstart⟩

/-- `detach` disarms every entry. -/
theorem Restorable.disarm_all (hv : Restorable orig v) (hio : io.MemoryWorks) :
    Restorable orig (v.disarm_all io) ∧ ∀ b ∈ (v.disarm_all io).bps.elems, b.armed = false := by
  obtain ⟨hw, harmed⟩ := hv.disarm_fold hio (List.range v.bps.elems.length)
  refine ⟨hw, fun b hb => Bool.eq_false_iff.mpr fun hset => ?_⟩
  obtain ⟨j, hget⟩ := List.getElem?_of_mem hb
  obtain ⟨hnot, hstart⟩ := harmed j b hget hset
  obtain ⟨hlt, -⟩ := List.getElem?_eq_some_iff.mp hstart
  exact hnot (List.mem_range.mpr hlt)

theorem Restorable.landed_none (hv : Restorable orig v) {landed : Option UInt64}
    (h : landed.isSome → ∃ b ∈ v.bps.elems, b.temporary = true) : landed = none := by
  cases hlanded : landed with
  | none => rfl
  | some t =>
    obtain ⟨b, hb, htemporary⟩ := h (by rw [hlanded]; rfl)
    rw [hv.permanent b hb] at htemporary
    cases htemporary

theorem plant_temp_there (grow : Growth) (io : backend_t)
    (hthere : (bp_store_t.find v.bps v.plan.temp_addr).isSome = true ∧ v.mem v.plan.temp_addr = 0xCC) :
    v.plant_temp grow io = v := by
  rw [bp_view_t.plant_temp]
  split
  · rw [← hthere.2, Function.update_eq_self, bp_store_t.add, if_pos hthere.1]
  · rfl

/-- A change of an entry that leaves its address, its byte and its arming alone. -/
theorem Restorable.retouch (hv : Restorable orig v) {i : Nat} {bp : breakpoint_t} (hget : v.bps.elems[i]? = some bp)
    {f : breakpoint_t → breakpoint_t}
    (hf : (f bp).addr = bp.addr ∧ (f bp).temporary = bp.temporary ∧ (f bp).armed = bp.armed ∧
      (f bp).hardware = bp.hardware ∧ (f bp).orig_byte = bp.orig_byte) :
    Restorable orig { v with bps := v.bps.modify i f } := by
  obtain ⟨haddr, htemporary, harmed, hhardware, horig⟩ := hf
  have hbp := List.mem_of_getElem? hget
  refine hv.modify hget haddr htemporary (fun _ _ => rfl) ?_ ?_ ?_
  · rw [harmed, hhardware, horig]
    exact hv.armed bp hbp
  · rw [harmed]
    exact hv.byte_of_unarmed hbp
  · rw [harmed]
    exact fun hdetach => hv.disarmed hdetach bp hbp

theorem Restorable.hit (hv : Restorable orig v) (hio : io.MemoryWorks) {i : Nat} {bp : breakpoint_t}
    (hget : v.bps.elems[i]? = some bp) : Restorable orig (v.hit io i bp) := by
  have hw := hv.disarm_at hio i
  have hdisarmed : (v.on_entry (disarm io) i).bps.elems[i]? = some (disarm io v.mem bp).2 := by
    rw [bp_view_t.on_entry_some hget, Vec.elems_modify, List.getElem?_modify_eq, hget]
    rfl
  have hcounted := hw.retouch (f := fun b => { b with hits := b.hits + 1 }) hdisarmed ⟨rfl, rfl, rfl, rfl, rfl⟩
  exact hcounted.congr rfl rfl hcounted.landed id

/-- A step that keeps to the condition keeps the bytes restorable. -/
theorem Restorable.moves {host : host_t} {w : bp_view_t} {a : action_t} (hv : Restorable orig v)
    (hkeeps : KeepsBytes io v a) (hmove : Moves host io v a w) : Restorable orig w := by
  obtain ⟨hio, hkeeps⟩ := hkeeps
  cases hmove with
  | idle => exact hv
  | request | stop | pause => exact hv.congr rfl rfl hv.landed id
  | quit | step => exact hv.congr rfl rfl rfl id
  | set_sw va hfind harm =>
    have hw : Restorable orig { v with
        mem := Function.update v.mem va 0xCC
        bps := v.bps.push_back host.grow { addr := va, orig_byte := v.mem va, armed := true } } := by
      refine hv.append host.grow hfind rfl (fun a ha => Function.update_of_ne ha _ _) ?_ ?_ ?_
      · exact fun _ => ⟨rfl, Function.update_self _ _ _, rfl⟩
      · intro h
        cases h
      · exact fun hdetach => absurd (hkeeps hfind) hdetach
    exact hw.congr rfl rfl hv.landed id
  | set_hw va len type bp hfind hslot hok haddr hkind =>
    rw [← haddr] at hfind
    refine hv.append host.grow hfind hkind.2 (fun _ _ => rfl) ?_ (fun _ => rfl) fun _ => hkind.1
    intro hset
    rw [hkind.1] at hset
    cases hset
  | clear va i hfind =>
    have hw := (hv.disarm_at hio i).remove (hv.unarmed_of_disarm hio hfind)
    exact hw.congr rfl rfl hw.landed id
  | configure va condition log_text auto_continue one_shot i hfind =>
    obtain ⟨bp, hget, -⟩ := bp_store_t.find_some hfind
    exact hv.retouch hget ⟨rfl, rfl, rfl, rfl, rfl⟩
  | foreign e landed hnot hlanded => exact hv.congr rfl rfl (hv.landed_none hlanded) id
  | hit e i bp stops hcode hfind hget harmed =>
    have hw := hv.hit hio hget
    cases stops <;> exact hw.congr rfl rfl hw.landed id
  | land e i landed hcode hplanned hfind hnot hlanded =>
    have hw := (hv.disarm_at hio i).remove (hv.unarmed_of_disarm hio hfind)
    exact hw.congr rfl rfl (hv.landed_none hlanded) id
  | rearm e w stops hmode hcode hrearm =>
    have hw := hv.rearm_hit hio (hkeeps hcode hmode) hrearm
    cases stops <;> exact hw.congr rfl rfl hw.landed id
  | plant w hquit hkind hrearm =>
    obtain ⟨hsafe, hthere⟩ := hkeeps hquit (by rw [hkind]; exact step_kind_t.noConfusion)
    rw [plant_temp_there host.grow io (hthere hkind)] at hrearm
    exact (hv.rearm_hit hio hsafe hrearm).congr rfl rfl rfl id
  | go w hquit hkind hrearm =>
    obtain ⟨hsafe, -⟩ := hkeeps hquit (by rw [hkind]; exact step_kind_t.noConfusion)
    exact (hv.rearm_hit hio hsafe hrearm).congr rfl rfl rfl id
  | detach_disarm =>
    obtain ⟨hw, hunarmed⟩ := hv.disarm_all hio
    exact ⟨hw.distinct, hw.armed, hw.original, hw.permanent, hw.landed, fun _ => hunarmed⟩
  | detach_quit hfrom => exact hv.congr rfl rfl hv.landed fun _ => hfrom
  | detach_finish hfrom =>
    refine ⟨List.Pairwise.nil, fun _ hb => absurd hb List.not_mem_nil, ?_, fun _ hb => absurd hb List.not_mem_nil,
      hv.landed, fun _ _ hb => absurd hb List.not_mem_nil⟩
    intro a _
    refine hv.original a fun b hb hset => ?_
    rw [hv.disarmed hfrom b hb] at hset
    cases hset

end

/-- In a run whose steps keep to the condition, every byte is the original one once
`detach` has completed, and where the loop pauses on a temporary breakpoint the byte
is the original one and the entry is gone. -/
theorem detach_restores_bytes (host : host_t) (target : target_t) {s : debugger_t}
    (hreach : Relation.ReflTransGen (Step host fun io s a => KeepsBytes io s.view a) (debugger_t.attached target) s) :
    (s.detaching = .done → ∀ a, s.target.mem a = target.mem a) ∧
    (∀ t, s.landed = some t → s.target.mem t = target.mem t ∧ ∀ b ∈ s.bps.elems, b.addr ≠ t) := by
  have hv : Restorable target.mem s.view := by
    refine Transition.invariant (I := fun s => Restorable target.mem s.view) ?_ ?_ hreach
    · exact ⟨List.Pairwise.nil, fun _ hb => absurd hb List.not_mem_nil, fun _ _ => rfl,
        fun _ hb => absurd hb List.not_mem_nil, rfl, fun h => absurd rfl h⟩
    · rintro s ⟨io, a⟩ s' hv ⟨henabled, hkeeps⟩ hstep
      exact hv.moves hkeeps (step_moves henabled hstep)
  refine ⟨fun hdone a => ?_, fun t hlanded => ?_⟩
  · have hfrom : s.view.detaching ≠ .none := by
      rw [debugger_t.view_detaching, hdone]
      exact detach_pc_t.noConfusion
    refine hv.original a fun b hb hset => ?_
    rw [hv.disarmed hfrom b hb] at hset
    cases hset
  · have hnone : s.landed = none := hv.landed
    rw [hnone] at hlanded
    cases hlanded

section

variable {io : backend_t} {v : bp_view_t} {t : UInt64}

end

/-- Nobody resumes and nothing is set while a session is left. -/
def Unresumed (s : debugger_t) : action_t → Prop
  | .command _ => s.detaching = .none
  | .event _ => s.resume_mode = .none
  | .wake => s.quit = true
  | _ => True

instance (s : debugger_t) : (a : action_t) → Decidable (Unresumed s a)
  | .command _ => inferInstanceAs (Decidable (_ = _))
  | .event _ => inferInstanceAs (Decidable (_ = _))
  | .wake => inferInstanceAs (Decidable (_ = _))
  | .poll | .timeout | .detach_disarm | .detach_quit | .detach_finish => isTrue trivial

/-- A session is left while it is paused on a breakpoint. -/
theorem detach_restores_breakpoint :
    ∃ s : debugger_t, s.detaching = .done ∧
      ((s.detaching = .done → ∀ a, s.target.mem a = (filled_target 0x90).mem a) ∧
        ∀ t, s.landed = some t → s.target.mem t = (filled_target 0x90).mem t ∧ ∀ b ∈ s.bps.elems, b.addr ≠ t) := by
  have hok : ∀ (s : debugger_t) (a : action_t), Unresumed s a → KeepsBytes user_backend s.view a := by
    intro s a hquiet
    refine ⟨user_backend_works, ?_⟩
    cases a with
    | command c =>
      cases c with
      | set_sw_breakpoint va => exact fun _ => hquiet
      | _ => trivial
    | event ev =>
      cases ev with
      | exception e =>
        intro _ hmode
        rw [debugger_t.view_resume_mode, show s.resume_mode = .none from hquiet] at hmode
        cases hmode
      | _ => trivial
    | wake =>
      intro hquit
      rw [debugger_t.view_quit, show s.quit = true from hquiet] at hquit
      cases hquit
    | poll | timeout | detach_disarm | detach_quit | detach_finish => trivial
  obtain ⟨s, hreach, hdone⟩ := plain_run Unresumed (fun io s a => KeepsBytes io s.view a)
    (debugger_t.attached (filled_target 0x90))
    [.command (.set_sw_breakpoint 0x401000), .command (.set_sw_breakpoint 0x402000), .poll,
      .event (.exception { tid := 1, code := kStatusBreakpoint, address := 0x401001 }), .detach_disarm, .detach_quit,
      .wake, .detach_finish]
    (fun s => s.detaching = .done) hok (by decide)
  exact ⟨s, of_decide_eq_true hdone, detach_restores_bytes _ _ hreach⟩

/-- A step out plants an int3 at the return address, and `detach` leaves it there. -/
theorem detach_leaves_temporary_int3 :
    ¬ ∀ (host : host_t) (target : target_t) (s : debugger_t),
      Relation.ReflTransGen (Step host fun io _ _ => io.MemoryWorks) (debugger_t.attached target) s →
      (s.detaching = .done → ∀ a, s.target.mem a = target.mem a) ∧
      ∀ t, s.landed = some t → s.target.mem t = target.mem t ∧ ∀ b ∈ s.bps.elems, b.addr ≠ t := by
  intro hlaw
  obtain ⟨s, hreach, hends⟩ := plain_run (fun _ _ => True) (fun io _ _ => io.MemoryWorks)
    (debugger_t.attached (filled_target 0x90))
    [.poll, .event (.exception { tid := 1, code := kStatusBreakpoint, address := 0x7FFE0001 }), .command .step_out,
      .wake, .detach_disarm, .detach_quit, .poll, .detach_finish]
    (fun s => s.detaching = .done && s.target.mem 0x9090909090909090 = 0xCC) (fun _ _ _ => user_backend_works)
    (by decide)
  obtain ⟨hdone, hint3⟩ := Bool.and_eq_true_iff.mp hends
  have hbyte := (hlaw _ _ s hreach).1 (of_decide_eq_true hdone) 0x9090909090909090
  rw [of_decide_eq_true hint3] at hbyte
  exact absurd hbyte (by decide)

end slop.core.debugger
