import ReverseSlop.Core.Frida.Matching

namespace slop.core.frida

open frida_service_t

variable {t : teardown_t}

namespace frida_service_t

/-- Scripts only get more requests, and do not get their object back. -/
def Grows (s s' : frida_service_t) : Prop := ∀ r rec, s.recs r = some rec →
  ∃ rec', s'.recs r = some rec' ∧ rec.posted <+: rec'.posted ∧ (rec.obj = false → rec'.obj = false)

/-- A call that has sent its request keeps it, and does not come back to the table. -/
def Advances (s s' : frida_service_t) : Prop := ∀ c x, (s.calls c).request = some x →
  (s'.calls c).request = some x ∧ ((s'.calls c).stage.InTable → (s.calls c).stage.InTable)

/-- No script has got more requests than there are ids. -/
def Bounded (s : frida_service_t) : Prop := ∀ r rec, s.recs r = some rec → rec.posted.length ≤ 2 ^ 64

/-- The call waits for a reply to its request. -/
def Awaits (s : frida_service_t) (c r : Nat) (id : UInt64) : Prop :=
  (s.calls c).request = some (r, id) ∧ (s.calls c).stage.InTable ∧ (s.calls c).wait.done = false

/-- The call is in the table of its script, or in the list of the teardown that wakes it. -/
def Listed (s : frida_service_t) (c r : Nat) (id : UInt64) : Prop :=
  (∃ rec, s.recs r = some rec ∧ (id, c) ∈ rec.waits) ∨ ∃ t l, s.teardown = some t ∧ t.now = some (r, some l) ∧ c ∈ l

/-- The scripts that a teardown is to destroy. -/
def targets (s : frida_service_t) (t : teardown_t) : List Nat :=
  match t.handle with
  | none => s.scripts.map Prod.snd
  | some handle => (SortedMap.find handle s.scripts).toList

/-- Every call that waits can be woken, by its reply or by the teardown of its script. -/
structure Kept (s : frida_service_t) : Prop where
  listed : ∀ c r id, s.Awaits c r id → s.Listed c r id
  closed : ∀ r rec, s.recs r = some rec → rec.obj = false → rec.waits = []
  emptied : ∀ t r l, s.teardown = some t → t.now = some (r, some l) →
    ∃ rec, s.recs r = some rec ∧ rec.waits = [] ∧ (rec.obj = false → l = [])
  destroyed : ∀ t r, s.teardown = some t → r ∈ t.destroyed → ∃ rec, s.recs r = some rec ∧ rec.obj = false
  targets : ∀ t, s.teardown = some t → t.destroyed ++ (t.now.map Prod.fst).toList ++ t.todo = s.targets t

section

variable {s s' s'' : frida_service_t} {rec rec' : script_rec_t} {call : rpc_call_t} {c r k : Nat} {id : UInt64}

theorem Grows.refl (s : frida_service_t) : s.Grows s := fun _ rec hrec => ⟨rec, hrec, List.prefix_rfl, fun hobj => hobj⟩

theorem Grows.trans (h : s.Grows s') (h' : s'.Grows s'') : s.Grows s'' := by
  intro r rec hrec
  obtain ⟨rec', hrec', hposted, hobj⟩ := h r rec hrec
  obtain ⟨rec'', hrec'', hposted', hobj'⟩ := h' r rec' hrec'
  exact ⟨rec'', hrec'', hposted.trans hposted', fun hfalse => hobj' (hobj hfalse)⟩

theorem Grows.set_rec (hrec : s.recs r = some rec) (hposted : rec.posted <+: rec'.posted)
    (hobj : rec.obj = false → rec'.obj = false) : s.Grows (s.set_rec r rec') := by
  intro r' rec₀ hrec₀
  by_cases hsame : r' = r
  · subst hsame
    obtain rfl := Option.some.inj (hrec.symm.trans hrec₀)
    exact ⟨rec', set_rec_self, hposted, hobj⟩
  · exact ⟨rec₀, (set_rec_of_ne hsame).trans hrec₀, List.prefix_rfl, fun hfalse => hfalse⟩

theorem Advances.refl (s : frida_service_t) : s.Advances s := fun _ _ hrequest => ⟨hrequest, fun hin => hin⟩

theorem Advances.set_call (h : ∀ x, (s.calls c).request = some x →
    call.request = some x ∧ (call.stage.InTable → (s.calls c).stage.InTable)) : s.Advances (s.set_call c call) := by
  intro c' x hrequest
  by_cases hc : c' = c
  · subst hc
    rw [set_call_self]
    exact h x hrequest
  · rw [set_call_of_ne hc]
    exact ⟨hrequest, fun hin => hin⟩

theorem Advances.move {stage : call_stage_t} (h : stage.InTable → (s.calls c).stage.InTable) : s.Advances (s.move c stage) :=
  .set_call fun _ hrequest => ⟨hrequest, h⟩

theorem grows (hstep : Step s s') : s.Grows s' := by
  cases hstep with
  | create_script handle r hmu hnew =>
    intro r' rec hrec
    refine ⟨rec, (set_rec_of_ne ?_).trans hrec, List.prefix_rfl, fun hobj => hobj⟩
    rintro rfl
    rw [hnew] at hrec
    cases hrec
  | post c r rec hfound hmu hrec hobj =>
    exact Grows.set_rec hrec (List.prefix_append _ _) fun hfalse => hfalse
  | erase c r id rec done request_cancelled hleft hrequest hrec => exact Grows.set_rec hrec List.prefix_rfl fun hfalse => hfalse
  | take_waits t r rec ht hnow hrec => exact Grows.set_rec hrec List.prefix_rfl fun hfalse => hfalse
  | release t r rec ht hnow hrec => exact Grows.set_rec hrec List.prefix_rfl fun _ => rfl
  | _ => exact Grows.refl s

theorem advances (h : s.Tracked) (hstep : Step s s') : s.Advances s' := by
  cases hstep with
  | rpc_call c script timeout_ms hidle => exact Advances.set_call fun x hrequest => ⟨hrequest, fun hin => hin.elim⟩
  | refuse c error hbegun => exact Advances.move fun hin => hin.elim
  | lookup c hbegun hmu => exact Advances.move fun hin => absurd hin (lookup_in_table _ _)
  | gone c r rec hfound hmu hrec hobj => exact Advances.move fun hin => hin.elim
  | post c r rec hfound hmu hrec hobj =>
    have hat := (h.calls c).stage
    rw [hfound] at hat
    refine Advances.set_call (s := s.set_rec r (rec.post c)) fun x hrequest => ?_
    exact absurd (hat.1.symm.trans hrequest) (Option.some_ne_none x).symm
  | leave c request_cancelled hwaiting hcancelled =>
    refine Advances.move fun _ => ?_
    rw [hwaiting]
    trivial
  | erase c r id rec done request_cancelled hleft hrequest hrec =>
    exact Advances.move (s := s.set_rec r { rec with waits := SortedMap.erase id rec.waits }) fun hin => hin.elim
  | check c r id done request_cancelled herased hrequest => exact Advances.move fun hin => absurd hin (check_in_table _ _ _)
  | return_reply c hchecked => exact Advances.move fun hin => hin.elim
  | give_reply k c reply hholds =>
    exact Advances.set_call (s := s.set_callback k (.given c)) fun x hrequest => ⟨hrequest, fun hin => hin⟩
  | cancel_wait t r c waits ht hnow => exact Advances.set_call fun x hrequest => ⟨hrequest, fun hin => hin⟩
  | _ => exact Advances.refl s

/-- What a callback does with its reply. -/
theorem callback_cases (hstep : Step s s') (k : Nat) :
    s'.callbacks k = s.callbacks k ∨
      (s.callbacks k = .idle ∧ ∃ r reply, s'.callbacks k = .arrived r reply) ∨
      (∃ r reply, s.callbacks k = .arrived r reply ∧ s'.callbacks k = .dropped) ∨
      (∃ r reply rec c, s.callbacks k = .arrived r reply ∧ s.recs r = some rec ∧
        (rpc_reply_id reply).bind (SortedMap.find · rec.waits) = some c ∧ s'.callbacks k = .holds reply c) ∨
      ∃ reply c, s.callbacks k = .holds reply c ∧ s'.callbacks k = .given c := by
  have hset : ∀ k' callback, (s.set_callback k' callback).callbacks k = s.callbacks k ∨
      k' = k ∧ (s.set_callback k' callback).callbacks k = callback := by
    intro k' callback
    by_cases hk : k = k'
    · exact .inr ⟨hk.symm, hk ▸ set_callback_self⟩
    · exact .inl (set_callback_of_ne hk)
  cases hstep with
  | on_script_message k' r reply hidle =>
    rcases hset k' (.arrived r reply) with hsame | ⟨rfl, hnew⟩
    · exact .inl hsame
    · exact .inr (.inl ⟨hidle, r, reply, hnew⟩)
  | drop_reply k' r reply rec harrived hrec hnone =>
    rcases hset k' .dropped with hsame | ⟨rfl, hnew⟩
    · exact .inl hsame
    · exact .inr (.inr (.inl ⟨r, reply, harrived, hnew⟩))
  | find_wait k' r c reply rec harrived hrec hfind =>
    rcases hset k' (.holds reply c) with hsame | ⟨rfl, hnew⟩
    · exact .inl hsame
    · exact .inr (.inr (.inr (.inl ⟨r, reply, rec, c, harrived, hrec, hfind, hnew⟩)))
  | give_reply k' c reply hholds =>
    rcases hset k' (.given c) with hsame | ⟨rfl, hnew⟩
    · exact .inl hsame
    · exact .inr (.inr (.inr (.inr ⟨reply, c, hholds, hnew⟩)))
  | _ => exact .inl rfl

theorem Grows.bounded (h : s.Grows s') (hbounded : s'.Bounded) : s.Bounded := by
  intro r rec hrec
  obtain ⟨rec', hrec', hposted, -⟩ := h r rec hrec
  exact hposted.length_le.trans (hbounded r rec' hrec')

/-- The id of a request belongs to one call of the script. -/
theorem Tracked.unique {c' : Nat} (h : s.Tracked) (hbounded : s.Bounded) (hc : (s.calls c).request = some (r, id))
    (hc' : (s.calls c').request = some (r, id)) : c = c' := by
  obtain ⟨rec, hrec, hmem⟩ := h.posted c r id hc
  obtain ⟨rec', hrec', hmem'⟩ := h.posted c' r id hc'
  obtain rfl := Option.some.inj (hrec.symm.trans hrec')
  have hnodup := (h.recs r rec hrec).nodup (hbounded r rec hrec)
  exact congrArg Prod.snd (List.inj_on_of_nodup_map hnodup hmem hmem' rfl)

/-- A reply to a call that does not wait any more: no call has it. -/
structure Late (s : frida_service_t) (k c r : Nat) (id : UInt64) (reply : List UInt8) : Prop where
  callback : s.callbacks k = .arrived r reply ∨ s.callbacks k = .dropped
  request : (s.calls c).request = some (r, id)
  out : ¬ (s.calls c).stage.InTable

theorem Late.step {reply : List UInt8} (h : s.Tracked) (hbounded : s.Bounded) (hid : rpc_reply_id reply = some id)
    (hlate : s.Late k c r id reply) (hstep : Step s s') : s'.Late k c r id reply := by
  obtain ⟨hrequest, hin⟩ := advances h hstep c _ hlate.request
  refine ⟨?_, hrequest, fun hnow => hlate.out (hin hnow)⟩
  rcases callback_cases hstep k with hsame | ⟨hidle, -⟩ | ⟨r', reply', -, hdropped⟩ |
    ⟨r', reply', rec, c', harrived, hrec, hfind, -⟩ | ⟨reply', c', hholds, -⟩
  · rw [hsame]
    exact hlate.callback
  · rcases hlate.callback with hcallback | hcallback <;> rw [hidle] at hcallback <;> cases hcallback
  · exact .inr hdropped
  · rcases hlate.callback with hcallback | hcallback
    · -- the call would be in the table, which it has left
      cases harrived.symm.trans hcallback
      rw [hid, Option.bind_some] at hfind
      have hwait := (SortedMap.find_eq_some (h.recs r rec hrec).sorted).mp hfind
      obtain ⟨hother, hin'⟩ := h.table r rec id c' hrec hwait
      obtain rfl := h.unique hbounded hlate.request hother
      exact absurd hin' hlate.out
    · rw [harrived] at hcallback
      cases hcallback
  · rcases hlate.callback with hcallback | hcallback <;> rw [hholds] at hcallback <;> cases hcallback

theorem Kept.init : ({} : frida_service_t).Kept := by
  refine ⟨?_, ?_, ?_, ?_, ?_⟩
  · rintro c r id ⟨⟨⟩, -, -⟩
  · rintro r rec ⟨⟩
  · rintro t r l ⟨⟩
  · rintro t r ⟨⟩
  · rintro t ⟨⟩

/-- Calls and callbacks can change as long as no call begins to wait. -/
theorem Kept.of_calls (h : s.Kept) (hrecs : s'.recs = s.recs) (hscripts : s'.scripts = s.scripts)
    (hteardown : s'.teardown = s.teardown) (hawaits : ∀ c r id, s'.Awaits c r id → s.Awaits c r id) : s'.Kept := by
  obtain ⟨scripts, recs, calls, callbacks, teardown⟩ := s'
  dsimp only at hrecs hscripts hteardown
  subst hrecs hscripts hteardown
  exact ⟨fun c r id hc => h.listed c r id (hawaits c r id hc), h.closed, h.emptied, h.destroyed, h.targets⟩

theorem Awaits.of_set_call (hcall : ∀ r id, call.request = some (r, id) → call.stage.InTable → call.wait.done = false →
    s.Awaits c r id) (c' r : Nat) (id : UInt64) (h : (s.set_call c call).Awaits c' r id) : s.Awaits c' r id := by
  obtain ⟨hrequest, hin, hdone⟩ := h
  by_cases hc : c' = c
  · rw [hc, set_call_self] at hrequest hin hdone
    exact hc ▸ hcall r id hrequest hin hdone
  · rw [set_call_of_ne hc] at hrequest hin hdone
    exact ⟨hrequest, hin, hdone⟩

theorem Kept.move {stage : call_stage_t} (h : s.Kept) (htable : stage.InTable → (s.calls c).stage.InTable) :
    (s.move c stage).Kept :=
  h.of_calls rfl rfl rfl (Awaits.of_set_call fun _ _ hrequest hin hdone => ⟨hrequest, htable hin, hdone⟩)

theorem Kept.create (h : s.Kept) (hmu : s.teardown = none) (hnew : s.recs r = none) (scripts : List (String × Nat)) :
    { s.set_rec r {} with scripts }.Kept := by
  have hold : ∀ {r' rec'}, s.recs r' = some rec' → (s.set_rec r {}).recs r' = some rec' := by
    intro r' rec' hr
    refine (set_rec_of_ne ?_).trans hr
    rintro rfl
    rw [hnew] at hr
    cases hr
  have hidle : ∀ {t}, s.teardown = some t → False := by
    intro t ht
    rw [hmu] at ht
    cases ht
  refine ⟨fun c r' id hc => ?_, fun r' rec' hr hobj => ?_, fun t r' l ht => (hidle ht).elim, fun t r' ht => (hidle ht).elim,
    fun t ht => (hidle ht).elim⟩
  · rcases h.listed c r' id hc with ⟨rec, hrec, hmem⟩ | ⟨t, l, ht, -⟩
    · exact .inl ⟨rec, hold hrec, hmem⟩
    · exact (hidle ht).elim
  · by_cases hsame : r' = r
    · subst hsame
      obtain rfl := Option.some.inj (set_rec_self.symm.trans hr)
      cases hobj
    · exact h.closed r' rec' ((set_rec_of_ne hsame).symm.trans hr) hobj

/-- A new request is in the table and takes no other one out of it. -/
theorem Kept.post (h : s.Kept) (htracked : s.Tracked) (hrec : s.recs r = some rec) (hobj : rec.obj = true) (hmu : ¬ s.held r)
    (hfresh : ∀ c', (s.calls c').request ≠ some (r, rec.next_rpc_id)) :
    ((s.set_rec r (rec.post c)).set_call c
      { s.calls c with stage := .waiting, request := some (r, rec.next_rpc_id) }).Kept := by
  have hsorted := (htracked.recs r rec hrec).sorted
  have hgrows : s.Grows (s.set_rec r (rec.post c)) := Grows.set_rec hrec (List.prefix_append _ _) fun hfalse => hfalse
  refine ⟨fun c' r' id hc => ?_, fun r' rec' hr hfalse => ?_, fun t r' l ht hnow => ?_, fun t r' ht hmem => ?_, h.targets⟩
  · obtain ⟨hrequest, hin, hdone⟩ := hc
    by_cases hsame : c' = c
    · rw [hsame, set_call_self] at hrequest
      cases hrequest
      exact .inl ⟨rec.post c, set_rec_self, hsame ▸ (SortedMap.mem_set hsorted).mpr (.inl rfl)⟩
    · rw [set_call_of_ne hsame] at hrequest hin hdone
      rcases h.listed c' r' id ⟨hrequest, hin, hdone⟩ with ⟨rec', hrec', hmem⟩ | hteardown
      · by_cases hr : r' = r
        · subst hr
          obtain rfl := Option.some.inj (hrec.symm.trans hrec')
          refine .inl ⟨rec.post c, set_rec_self, (SortedMap.mem_set hsorted).mpr (.inr ⟨hmem, ?_⟩)⟩
          rintro rfl
          exact hfresh c' hrequest
        · exact .inl ⟨rec', (set_rec_of_ne hr).trans hrec', hmem⟩
      · exact .inr hteardown
  · by_cases hr' : r' = r
    · subst hr'
      obtain rfl := Option.some.inj (set_rec_self.symm.trans hr)
      rw [script_rec_t.post, hobj] at hfalse
      cases hfalse
    · exact h.closed r' rec' ((set_rec_of_ne hr').symm.trans hr) hfalse
  · obtain ⟨rec', hrec', hempty⟩ := h.emptied t r' l ht hnow
    refine ⟨rec', (set_rec_of_ne ?_).trans hrec', hempty⟩
    rintro rfl
    exact hmu ⟨t, some l, ht, hnow⟩
  · obtain ⟨rec', hrec', hfalse⟩ := h.destroyed t r' ht hmem
    obtain ⟨rec'', hrec'', -, hobj'⟩ := hgrows r' rec' hrec'
    exact ⟨rec'', hrec'', hobj' hfalse⟩

/-- The call that leaves takes no other one out of the table. -/
theorem Kept.erase {stage : call_stage_t} (h : s.Kept) (hrec : s.recs r = some rec) (hstage : ¬ stage.InTable)
    (hunique : ∀ c', (s.calls c').request = some (r, id) → c' = c) :
    ((s.set_rec r { rec with waits := SortedMap.erase id rec.waits }).move c stage).Kept := by
  have hgrows : s.Grows (s.set_rec r { rec with waits := SortedMap.erase id rec.waits }) :=
    Grows.set_rec hrec List.prefix_rfl fun hfalse => hfalse
  have hempty : ∀ {r' rec'}, s.recs r' = some rec' → rec'.waits = [] → ∃ rec'',
      (s.set_rec r { rec with waits := SortedMap.erase id rec.waits }).recs r' = some rec'' ∧
        rec''.waits = [] ∧ rec''.obj = rec'.obj := by
    intro r' rec' hr hwaits
    by_cases hsame : r' = r
    · subst hsame
      obtain rfl := Option.some.inj (hrec.symm.trans hr)
      exact ⟨_, set_rec_self, by rw [hwaits]; rfl, rfl⟩
    · exact ⟨rec', (set_rec_of_ne hsame).trans hr, hwaits, rfl⟩
  refine ⟨fun c' r' id' hc => ?_, fun r' rec' hr hfalse => ?_, fun t r' l ht hnow => ?_, fun t r' ht hmem => ?_, h.targets⟩
  · obtain ⟨hrequest, hin, hdone⟩ := hc
    by_cases hsame : c' = c
    · rw [hsame, frida_service_t.move, set_call_self] at hin
      exact absurd hin hstage
    · rw [frida_service_t.move, set_call_of_ne hsame] at hrequest hin hdone
      rcases h.listed c' r' id' ⟨hrequest, hin, hdone⟩ with ⟨rec', hrec', hmem⟩ | hteardown
      · by_cases hr : r' = r
        · subst hr
          obtain rfl := Option.some.inj (hrec.symm.trans hrec')
          refine .inl ⟨_, set_rec_self, SortedMap.mem_erase.mpr ⟨hmem, ?_⟩⟩
          rintro rfl
          exact hsame (hunique c' hrequest)
        · exact .inl ⟨rec', (set_rec_of_ne hr).trans hrec', hmem⟩
      · exact .inr hteardown
  · by_cases hsame : r' = r
    · subst hsame
      obtain rfl := Option.some.inj (set_rec_self.symm.trans hr)
      have hwaits := h.closed r' rec hrec hfalse
      dsimp only
      rw [hwaits]
      rfl
    · exact h.closed r' rec' ((set_rec_of_ne hsame).symm.trans hr) hfalse
  · obtain ⟨rec', hrec', hwaits, hlist⟩ := h.emptied t r' l ht hnow
    obtain ⟨rec'', hrec'', hwaits', hobj⟩ := hempty hrec' hwaits
    exact ⟨rec'', hrec'', hwaits', fun hfalse => hlist (hobj ▸ hfalse)⟩
  · obtain ⟨rec', hrec', hfalse⟩ := h.destroyed t r' ht hmem
    obtain ⟨rec'', hrec'', -, hobj'⟩ := hgrows r' rec' hrec'
    exact ⟨rec'', hrec'', hobj' hfalse⟩

/-- A script whose object is gone has no call that waits. -/
theorem Kept.not_awaits (h : s.Kept) (hrec : s.recs r = some rec) (hobj : rec.obj = false) : ¬ s.Awaits c r id := by
  intro hc
  rcases h.listed c r id hc with ⟨rec', hrec', hmem⟩ | ⟨t, l, ht, hnow, hmem⟩
  · obtain rfl := Option.some.inj (hrec.symm.trans hrec')
    rw [h.closed r rec hrec hobj] at hmem
    cases hmem
  · obtain ⟨rec', hrec', -, hempty⟩ := h.emptied t r l ht hnow
    obtain rfl := Option.some.inj (hrec.symm.trans hrec')
    rw [hempty hobj] at hmem
    cases hmem

/-- A teardown begins with no script in its hands. -/
theorem Kept.begin (h : s.Kept) (hmu : s.teardown = none) (hnow : t.now = none) (hdestroyed : t.destroyed = [])
    (htodo : t.todo = s.targets t) : { s with teardown := some t }.Kept := by
  refine ⟨fun c r id hc => ?_, h.closed, ?_, ?_, ?_⟩
  · rcases h.listed c r id hc with hwaits | ⟨t', l, ht, -⟩
    · exact .inl hwaits
    · rw [hmu] at ht
      cases ht
  · rintro t' r l ⟨⟩ hl
    rw [hnow] at hl
    cases hl
  · rintro t' r ⟨⟩ hmem
    rw [hdestroyed] at hmem
    cases hmem
  · rintro t' ⟨⟩
    rw [hnow, hdestroyed, htodo]
    rfl

theorem Kept.hold {todo : List Nat} (h : s.Kept) (ht : s.teardown = some t) (hnow : t.now = none)
    (htodo : t.todo = r :: todo) : { s with teardown := some { t with todo, now := some (r, none) } }.Kept := by
  refine ⟨fun c r' id hc => ?_, h.closed, ?_, ?_, ?_⟩
  · rcases h.listed c r' id hc with hwaits | ⟨t', l, ht', hl, -⟩
    · exact .inl hwaits
    · obtain rfl := Option.some.inj (ht.symm.trans ht')
      rw [hnow] at hl
      cases hl
  · rintro t' r' l ⟨⟩ ⟨⟩
  · rintro t' r' ⟨⟩ hmem
    exact h.destroyed t r' ht hmem
  · rintro t' ⟨⟩
    have htargets := h.targets t ht
    rw [hnow, htodo] at htargets
    change t.destroyed ++ [r] ++ todo = s.targets t
    rw [← htargets]
    simp

theorem Kept.take_waits (h : s.Kept) (ht : s.teardown = some t) (hnow : t.now = some (r, none))
    (hrec : s.recs r = some rec) :
    { s.set_rec r { rec with waits := [] } with
      teardown := some { t with now := some (r, some (rec.waits.map Prod.snd)) } }.Kept := by
  have hgrows : s.Grows (s.set_rec r { rec with waits := [] }) := Grows.set_rec hrec List.prefix_rfl fun hfalse => hfalse
  refine ⟨fun c r' id hc => ?_, fun r' rec' hr hfalse => ?_, ?_, ?_, ?_⟩
  · rcases h.listed c r' id hc with ⟨rec', hrec', hmem⟩ | ⟨t', l, ht', hl, -⟩
    · by_cases hsame : r' = r
      · subst hsame
        obtain rfl := Option.some.inj (hrec.symm.trans hrec')
        exact .inr ⟨_, _, rfl, rfl, List.mem_map_of_mem hmem⟩
      · exact .inl ⟨rec', (set_rec_of_ne hsame).trans hrec', hmem⟩
    · obtain rfl := Option.some.inj (ht.symm.trans ht')
      rw [hnow] at hl
      cases hl
  · by_cases hsame : r' = r
    · subst hsame
      obtain rfl := Option.some.inj (set_rec_self.symm.trans hr)
      rfl
    · exact h.closed r' rec' ((set_rec_of_ne hsame).symm.trans hr) hfalse
  · rintro t' r' l ⟨⟩ ⟨⟩
    refine ⟨_, set_rec_self, rfl, fun hfalse => ?_⟩
    rw [h.closed r rec hrec hfalse]
    rfl
  · rintro t' r' ⟨⟩ hmem
    obtain ⟨rec', hrec', hfalse⟩ := h.destroyed t r' ht hmem
    obtain ⟨rec'', hrec'', -, hobj'⟩ := hgrows r' rec' hrec'
    exact ⟨rec'', hrec'', hobj' hfalse⟩
  · rintro t' ⟨⟩
    have htargets := h.targets t ht
    rw [hnow] at htargets
    exact htargets

/-- The call that is woken does not wait any more. -/
theorem Kept.cancel_wait {l : List Nat} {wait : rpc_wait_t} (h : s.Kept) (ht : s.teardown = some t)
    (hnow : t.now = some (r, some (c :: l))) (hdone : wait.done = true) :
    { s.set_call c { s.calls c with wait } with teardown := some { t with now := some (r, some l) } }.Kept := by
  refine ⟨fun c' r' id hc => ?_, h.closed, ?_, ?_, ?_⟩
  · obtain ⟨hrequest, hin, hfalse⟩ := hc
    by_cases hsame : c' = c
    · rw [hsame] at hfalse
      have hself : ((s.set_call c { s.calls c with wait }).calls c).wait = wait := congrArg rpc_call_t.wait set_call_self
      exact absurd ((congrArg rpc_wait_t.done hself).symm.trans hfalse) (by rw [hdone]; exact Bool.false_ne_true.symm)
    · have hcall : (s.set_call c { s.calls c with wait }).calls c' = s.calls c' := set_call_of_ne hsame
      have hawaits : s.Awaits c' r' id := by
        refine ⟨?_, ?_, ?_⟩ <;> rw [← hcall]
        · exact hrequest
        · exact hin
        · exact hfalse
      rcases h.listed c' r' id hawaits with hwaits | ⟨t', l', ht', hl, hmem⟩
      · exact .inl hwaits
      · obtain rfl := Option.some.inj (ht.symm.trans ht')
        cases hnow.symm.trans hl
        exact .inr ⟨_, l, rfl, rfl, (List.mem_cons.mp hmem).resolve_left hsame⟩
  · rintro t' r' l' ⟨⟩ ⟨⟩
    obtain ⟨rec, hrec, hwaits, hempty⟩ := h.emptied t r (c :: l) ht hnow
    exact ⟨rec, hrec, hwaits, fun hfalse => absurd (hempty hfalse) (List.cons_ne_nil c l)⟩
  · rintro t' r' ⟨⟩ hmem
    exact h.destroyed t r' ht hmem
  · rintro t' ⟨⟩
    have htargets := h.targets t ht
    rw [hnow] at htargets
    exact htargets

theorem Kept.release (h : s.Kept) (ht : s.teardown = some t) (hnow : t.now = some (r, some []))
    (hrec : s.recs r = some rec) :
    { s.set_rec r { rec with obj := false } with
      teardown := some { t with now := none, destroyed := t.destroyed ++ [r] } }.Kept := by
  have hgrows : s.Grows (s.set_rec r { rec with obj := false }) := Grows.set_rec hrec List.prefix_rfl fun _ => rfl
  refine ⟨fun c r' id hc => ?_, fun r' rec' hr hfalse => ?_, ?_, ?_, ?_⟩
  · rcases h.listed c r' id hc with ⟨rec', hrec', hmem⟩ | ⟨t', l, ht', hl, hmem⟩
    · by_cases hsame : r' = r
      · subst hsame
        obtain rfl := Option.some.inj (hrec.symm.trans hrec')
        exact .inl ⟨_, set_rec_self, hmem⟩
      · exact .inl ⟨rec', (set_rec_of_ne hsame).trans hrec', hmem⟩
    · obtain rfl := Option.some.inj (ht.symm.trans ht')
      cases hnow.symm.trans hl
      cases hmem
  · by_cases hsame : r' = r
    · subst hsame
      obtain rfl := Option.some.inj (set_rec_self.symm.trans hr)
      obtain ⟨rec', hrec', hwaits, -⟩ := h.emptied t r' [] ht hnow
      obtain rfl := Option.some.inj (hrec.symm.trans hrec')
      exact hwaits
    · exact h.closed r' rec' ((set_rec_of_ne hsame).symm.trans hr) hfalse
  · rintro t' r' l ⟨⟩ ⟨⟩
  · rintro t' r' ⟨⟩ hmem
    rcases List.mem_append.mp hmem with hmem | hmem
    · obtain ⟨rec', hrec', hfalse⟩ := h.destroyed t r' ht hmem
      obtain ⟨rec'', hrec'', -, hobj'⟩ := hgrows r' rec' hrec'
      exact ⟨rec'', hrec'', hobj' hfalse⟩
    · obtain rfl := List.mem_singleton.mp hmem
      exact ⟨_, set_rec_self, rfl⟩
  · rintro t' ⟨⟩
    have htargets := h.targets t ht
    rw [hnow] at htargets
    change t.destroyed ++ [r] ++ [] ++ t.todo = s.targets t
    rw [← htargets]
    simp

theorem Kept.return_teardown (h : s.Kept) (ht : s.teardown = some t) (hnow : t.now = none)
    (scripts : List (String × Nat)) : { s with scripts, teardown := none }.Kept := by
  refine ⟨fun c r id hc => ?_, h.closed, ?_, ?_, ?_⟩
  · rcases h.listed c r id hc with hwaits | ⟨t', l, ht', hl, -⟩
    · exact .inl hwaits
    · obtain rfl := Option.some.inj (ht.symm.trans ht')
      rw [hnow] at hl
      cases hl
  · rintro t' r l ⟨⟩
  · rintro t' r ⟨⟩
  · rintro t' ⟨⟩

theorem Kept.step (h : s.Kept) (htracked : s.Tracked) (hbounded : s'.Bounded) (hstep : Step s s') : s'.Kept := by
  have htracked' := htracked.step hstep
  cases hstep with
  | create_script handle r hmu hnew => exact h.create hmu hnew _
  | rpc_call c script timeout_ms hidle => exact h.of_calls rfl rfl rfl (Awaits.of_set_call fun _ _ _ hin _ => hin.elim)
  | refuse c error hbegun => exact h.move fun hin => hin.elim
  | lookup c hbegun hmu => exact h.move fun hin => absurd hin (lookup_in_table _ _)
  | gone c r rec hfound hmu hrec hobj => exact h.move fun hin => hin.elim
  | post c r rec hfound hmu hrec hobj =>
    refine h.post htracked hrec hobj hmu fun c' hc' => ?_
    have hat := (htracked.calls c).stage
    rw [hfound] at hat
    have hne : c' ≠ c := by
      rintro rfl
      rw [hat.1] at hc'
      cases hc'
    refine hne (htracked'.unique hbounded ?_ (congrArg rpc_call_t.request set_call_self))
    rw [set_call_of_ne hne]
    exact hc'
  | leave c request_cancelled hwaiting hcancelled =>
    refine h.move fun _ => ?_
    rw [hwaiting]
    trivial
  | erase c r id rec done request_cancelled hleft hrequest hrec =>
    refine h.erase hrec (fun hin => hin) fun c' hc' => ?_
    have hgrows : s.Grows (s.set_rec r { rec with waits := SortedMap.erase id rec.waits }) :=
      Grows.set_rec hrec List.prefix_rfl fun hfalse => hfalse
    exact htracked.unique (hgrows.bounded hbounded) hc' hrequest
  | check c r id done request_cancelled herased hrequest => exact h.move fun hin => absurd hin (check_in_table _ _ _)
  | return_reply c hchecked => exact h.move fun hin => hin.elim
  | on_script_message k r reply hidle => exact h.of_calls rfl rfl rfl fun _ _ _ hc => hc
  | drop_reply k r reply rec harrived hrec hnone => exact h.of_calls rfl rfl rfl fun _ _ _ hc => hc
  | find_wait k r c reply rec harrived hrec hfind => exact h.of_calls rfl rfl rfl fun _ _ _ hc => hc
  | give_reply k c reply hholds =>
    refine h.of_calls rfl rfl rfl (Awaits.of_set_call (s := s.set_callback k (.given c)) fun _ _ _ _ hdone => ?_)
    cases hdone
  | destroy_script handle r hmu hfind =>
    refine h.begin hmu rfl rfl ?_
    rw [frida_service_t.targets, destroying]
    dsimp only
    rw [hfind]
    rfl
  | shutdown hmu => exact h.begin hmu rfl rfl rfl
  | hold t r todo ht hnow htodo => exact h.hold ht hnow htodo
  | take_waits t r rec ht hnow hrec => exact h.take_waits ht hnow hrec
  | cancel_wait t r c waits ht hnow => exact h.cancel_wait ht hnow rfl
  | release t r rec ht hnow hrec => exact h.release ht hnow hrec
  | return_teardown t ht hnow htodo => exact h.return_teardown ht hnow _

theorem Tracked.reaches (h : s.Tracked) (hrun : Reaches s s') : s'.Tracked := by
  induction hrun with
  | refl => exact h
  | tail _ hstep ih => exact ih.step hstep

theorem grows_reaches (hrun : Reaches s s') : s.Grows s' := by
  induction hrun with
  | refl => exact Grows.refl s
  | tail _ hstep ih => exact ih.trans (grows hstep)

theorem Kept.reaches (h : s.Kept) (htracked : s.Tracked) (hrun : Reaches s s') (hbounded : s'.Bounded) : s'.Kept := by
  induction hrun with
  | refl => exact h
  | tail hrun hstep ih =>
    exact (ih ((grows hstep).bounded hbounded)).step (htracked.reaches hrun) hbounded hstep

theorem Late.reaches {reply : List UInt8} (hlate : s.Late k c r id reply) (hid : rpc_reply_id reply = some id)
    (htracked : s.Tracked) (hrun : Reaches s s') (hbounded : s'.Bounded) : s'.Late k c r id reply := by
  induction hrun with
  | refl => exact hlate
  | tail hrun hstep ih =>
    have hbefore := (grows hstep).bounded hbounded
    exact (ih hbefore).step (htracked.reaches hrun) hbefore hid hstep

end

end frida_service_t

/-- A call is active from its begin to its return. -/
def call_stage_t.Active : call_stage_t → Prop
  | .idle | .ended _ => False
  | _ => True

/-- Replies are matched by the ids of the requests, and no call that was registered waits when its script is destroyed. -/
theorem rpc_matching {s s' : frida_service_t} (hreach : Reaches {} s) (hrun : Reaches s s') :
    (∀ n rest, n < 2 ^ 64 → rpc_reply_id (agent_reply n rest) = some n.toUInt64) ∧
    (∀ c reply, (s.calls c).stage = .ended (.ok reply) →
      ∃ r id, (s.calls c).request = some (r, id) ∧ rpc_reply_id reply = some id) ∧
    ((∀ c, ¬ (s.calls c).stage.Active) → ∀ r rec, s.recs r = some rec → rec.waits = []) ∧
    (s'.Bounded →
      (∀ c r id, (s.calls c).request = some (r, id) → ∃ rec, s.recs r = some rec ∧ (id, c) ∈ rec.posted) ∧
      (∀ r rec, s.recs r = some rec → (rec.posted.map Prod.fst).Nodup) ∧
      (∀ k c r id reply, s.callbacks k = .arrived r reply → (s.calls c).request = some (r, id) →
        rpc_reply_id reply = some id → ¬ (s.calls c).stage.Active →
        s'.callbacks k = .arrived r reply ∨ s'.callbacks k = .dropped) ∧
      ∀ t, s.teardown = some t → t.now = none → t.todo = [] → ∀ r ∈ s.targets t, ∀ c id, ¬ s'.Awaits c r id) := by
  have htracked : s.Tracked := Tracked.init.reaches hreach
  refine ⟨fun n rest hn => ?_, fun c reply hended => ?_, fun hidle r rec hrec => ?_, fun hbounded => ?_⟩
  · rw [rpc_reply_id_agent_reply, if_neg (by omega)]
  · have hat := (htracked.calls c).stage
    rw [hended] at hat
    exact hat
  · refine List.eq_nil_iff_forall_not_mem.mpr fun ⟨id, c⟩ hwait => ?_
    have hin := (htracked.table r rec id c hrec hwait).2
    have hactive := hidle c
    cases hstage : (s.calls c).stage <;> rw [hstage] at hin hactive
    all_goals first | exact hin | exact hactive trivial
  · have hbefore : s.Bounded := (grows_reaches hrun).bounded hbounded
    refine ⟨htracked.posted, fun r rec hrec => (htracked.recs r rec hrec).nodup (hbefore r rec hrec),
      fun k c r id reply harrived hrequest hid hover => ?_, fun t ht hnow htodo r hr c id => ?_⟩
    · have hout : ¬ (s.calls c).stage.InTable := by
        intro hin
        cases hstage : (s.calls c).stage <;> rw [hstage] at hin hover
        all_goals first | exact hin | exact hover trivial
      exact (Late.reaches ⟨.inl harrived, hrequest, hout⟩ hid htracked hrun hbounded).callback
    · have hkept : s.Kept := Kept.init.reaches Tracked.init hreach hbefore
      have htargets := hkept.targets t ht
      rw [hnow, htodo] at htargets
      have hmem : r ∈ t.destroyed := by
        rw [← htargets] at hr
        simpa using hr
      obtain ⟨rec, hrec, hobj⟩ := hkept.destroyed t r ht hmem
      obtain ⟨rec', hrec', -, hobj'⟩ := grows_reaches hrun r rec hrec
      exact (hkept.reaches htracked hrun hbounded).not_awaits hrec' (hobj' hobj)

section

variable {s : frida_service_t} {r c : Nat} {rec : script_rec_t} {handle : String}

/-- A call can send its request while the script is there. -/
theorem posts (hrec : s.recs r = some rec) (hobj : rec.obj = true) (hmu : s.teardown = none)
    (hfind : SortedMap.find handle s.scripts = some r) (hidle : s.calls c = {}) :
    ∃ s', Reaches s s' ∧ s'.scripts = s.scripts ∧ s'.teardown = none ∧ s'.recs r = some (rec.post c) ∧
      s'.callbacks = s.callbacks ∧
      s'.calls c = { script := handle, stage := .waiting, request := some (r, rec.next_rpc_id) } ∧
      ∀ c', c' ≠ c → s'.calls c' = s.calls c' := by
  have hbegin := Step.rpc_call (s := s) c handle 0 (by rw [hidle])
  set s₁ := s.set_call c { s.calls c with script := handle, timeout_ms := 0, stage := .begun } with hs₁
  have hcall₁ : s₁.calls c = { script := handle, stage := .begun } := by rw [hs₁, set_call_self, hidle]
  have hlookup := Step.lookup (s := s₁) c (by rw [hcall₁]) hmu
  have hfound : (s₁.calls c).lookup s₁.scripts = .found r := lookup_of_find (by rw [hcall₁]; exact hfind)
  rw [hfound] at hlookup
  set s₂ := s₁.move c (.found r) with hs₂
  have hcall₂ : s₂.calls c = { script := handle, stage := .found r } := by
    rw [hs₂, move, set_call_self, hcall₁]
  have hpost := Step.post (s := s₂) c r rec (by rw [hcall₂]) (fun ⟨t, waits, ht, _⟩ => by cases hmu.symm.trans ht) hrec hobj
  refine ⟨_, ((Relation.ReflTransGen.single hbegin).tail hlookup).tail hpost, rfl, hmu, set_rec_self, rfl, ?_, ?_⟩
  · rw [set_call_self, hcall₂]
  · intro c' hc'
    rw [set_call_of_ne hc']
    change s₂.calls c' = s.calls c'
    rw [hs₂, move, set_call_of_ne hc', hs₁, set_call_of_ne hc']

/-- A script can be sent any number of requests. -/
theorem many_posts (n : Nat) : ∃ s rec, Reaches {} s ∧ s.recs 0 = some rec ∧ rec.obj = true ∧ s.teardown = none ∧
    SortedMap.find "sc1" s.scripts = some 0 ∧ rec.posted.length = n ∧ (∀ k, s.callbacks k = .idle) ∧
    ∀ c, n ≤ c → s.calls c = {} := by
  induction n with
  | zero =>
    exact ⟨_, {}, .single (Step.create_script "sc1" 0 rfl rfl), rfl, rfl, rfl, by decide, rfl, fun k => rfl, fun c _ => rfl⟩
  | succ n ih =>
    obtain ⟨s, rec, hreach, hrec, hobj, hmu, hfind, hlen, hcallbacks, hidle⟩ := ih
    obtain ⟨s', hrun, hscripts, hmu', hrec', hcallbacks', -, hother⟩ := posts hrec hobj hmu hfind (hidle n le_rfl)
    refine ⟨s', rec.post n, hreach.trans hrun, hrec', hobj, hmu', hscripts ▸ hfind, ?_, hcallbacks' ▸ hcallbacks,
      fun c hc => ?_⟩
    · rw [script_rec_t.post, List.length_append, hlen]
      rfl
    · rw [hother c (by omega)]
      exact hidle c (by omega)

end

/-- The reply to the first request of a script. -/
def first_reply : List UInt8 := agent_reply 1 (Numeral.ascii "\"ok\",7]")

theorem first_reply_id : rpc_reply_id first_reply = some 1 := rpc_reply_id_agent_reply 1 _

/-- A call gets its reply and returns it. -/
theorem answered : ∃ s, Reaches {} s ∧ (s.calls 0).stage = .ended (.ok first_reply) := by
  obtain ⟨s, rec, hreach, hrec, hobj, hmu, hfind, hlen, hcallbacks, hidle⟩ := many_posts 0
  have hsound := (Tracked.init.reaches hreach).recs 0 rec hrec
  have hid : rec.next_rpc_id = 1 := by
    rw [hsound.next, hlen]
    rfl
  obtain ⟨s₁, hrun, -, -, hrec₁, hcallbacks₁, hcall₁, -⟩ := posts hrec hobj hmu hfind (hidle 0 le_rfl)
  rw [hid] at hcall₁
  have hwait : (rpc_reply_id first_reply).bind (SortedMap.find · (rec.post 0).waits) = some 0 := by
    rw [first_reply_id, Option.bind_some, script_rec_t.post, hid]
    exact SortedMap.find_set hsound.sorted
  have harrive := Step.on_script_message (s := s₁) 0 0 first_reply (hcallbacks₁ ▸ hcallbacks 0)
  set s₂ := s₁.set_callback 0 (.arrived 0 first_reply) with hs₂
  have hfound := Step.find_wait (s := s₂) 0 0 0 first_reply _ set_callback_self hrec₁ hwait
  set s₃ := s₂.set_callback 0 (.holds first_reply 0) with hs₃
  have hgive := Step.give_reply (s := s₃) 0 0 first_reply set_callback_self
  set s₄ := (s₃.set_callback 0 (.given 0)).set_call 0
    { s₃.calls 0 with wait := { (s₃.calls 0).wait with done := true, reply_json := first_reply } } with hs₄
  have hcall₄ : s₄.calls 0 =
      { script := "sc1"
        stage := .waiting
        request := some (0, 1)
        wait := { done := true, reply_json := first_reply } } := by
    rw [hs₄, set_call_self]
    change { s₁.calls 0 with wait := { (s₁.calls 0).wait with done := true, reply_json := first_reply } } = _
    rw [hcall₁]
  have hleave := Step.leave (s := s₄) 0 false (by rw [hcall₄]) (fun hfalse => by cases hfalse)
  rw [hcall₄] at hleave
  set s₅ := s₄.move 0 (.left true false) with hs₅
  have hcall₅ : s₅.calls 0 = { s₄.calls 0 with stage := .left true false } := by rw [hs₅, move, set_call_self]
  have herase := Step.erase (s := s₅) 0 0 1 (rec.post 0) true false (by rw [hcall₅]) (by rw [hcall₅, hcall₄]) hrec₁
  set s₆ := (s₅.set_rec 0 { rec.post 0 with waits := SortedMap.erase 1 (rec.post 0).waits }).move 0
    (.erased true false) with hs₆
  have hcall₆ : s₆.calls 0 = { s₄.calls 0 with stage := .erased true false } := by
    rw [hs₆, move, set_call_self]
    change { s₅.calls 0 with stage := .erased true false } = _
    rw [hcall₅]
  have hcheck := Step.check (s := s₆) 0 0 1 true false (by rw [hcall₆]) (by rw [hcall₆, hcall₄])
  have hchecked : (s₆.calls 0).check 1 true false = .checked := by
    rw [hcall₆, hcall₄]
    rfl
  rw [hchecked] at hcheck
  set s₇ := s₆.move 0 .checked with hs₇
  have hcall₇ : s₇.calls 0 = { s₄.calls 0 with stage := .checked } := by rw [hs₇, move, set_call_self, hcall₆]
  have hreturn := Step.return_reply (s := s₇) 0 (by rw [hcall₇])
  have hreach₇ : Reaches {} s₇ := (hreach.trans hrun).trans
    ((((((Relation.ReflTransGen.single harrive).tail hfound).tail hgive).tail hleave).tail herase).tail hcheck)
  refine ⟨_, hreach₇.tail hreturn, ?_⟩
  rw [move, set_call_self, hcall₇, hcall₄]

/-- The reply that a call returns has the id of its request. -/
theorem answered_matching : ∃ s, Reaches {} s ∧ (s.calls 0).stage = .ended (.ok first_reply) ∧
    ∃ r id, (s.calls 0).request = some (r, id) ∧ rpc_reply_id first_reply = some id := by
  obtain ⟨s, hreach, hended⟩ := answered
  exact ⟨s, hreach, hended, (rpc_matching hreach .refl).2.1 0 first_reply hended⟩

/-- From the 2 ^ 64th request on the ids begin again. -/
theorem ids_begin_again : ¬ ∀ s, Reaches {} s → ∀ r rec, s.recs r = some rec → (rec.posted.map Prod.fst).Nodup := by
  intro hnodup
  obtain ⟨s, rec, hreach, hrec, -, -, -, hlen, -, -⟩ := many_posts (2 ^ 64 + 1)
  have hids := hnodup s hreach 0 rec hrec
  rw [((Tracked.init.reaches hreach).recs 0 rec hrec).ids, hlen] at hids
  have hsame : (0 + 1).toUInt64 = (2 ^ 64 + 1).toUInt64 := by decide
  have hzero := List.inj_on_of_nodup_map hids (List.mem_range.mpr (by decide)) (List.mem_range.mpr (by decide)) hsame
  exact absurd hzero (by decide)

end slop.core.frida
