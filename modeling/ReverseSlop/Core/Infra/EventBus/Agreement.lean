import ReverseSlop.Core.Infra.EventBus.Delivery

namespace slop.core.infra.event_bus

variable {π : Type}

/-- The value of the last frame of a type that the subscriber was sent, or what was
recorded when it came if there was none since. -/
def subscriber_t.view (sub : subscriber_t π) (type : String) : Option π :=
  latest type (sub.joined type) (sub.drained ++ sub.q)

/-- A publish is still to push the recorded value of a type to a subscriber. -/
def bus_t.Pending (b : bus_t π) (type : String) (id : Nat) : Prop :=
  ∃ v ∈ b.last type, b.Reaches ⟨type, v⟩ id

instance [DecidableEq π] (b : bus_t π) (type : String) (id : Nat) : Decidable (b.Pending type id) :=
  inferInstanceAs (Decidable (∃ v ∈ b.last type, _))

/-- A frame of the type goes to a subscriber only if it carries the value that is recorded
then, or if another publish is still to push that value to the subscriber. -/
def InOrder (type : String) (b : bus_t π) : op_t π → Prop
  | .fan_out c =>
    c.frame.type = type → ∀ sub ∈ b.subs, c.target = some sub.id → sub.closed = false →
      b.last type = some c.frame.payload ∨ b.Pending type sub.id
  | _ => True

instance [DecidableEq π] (type : String) (b : bus_t π) : ∀ op : op_t π, Decidable (InOrder type b op)
  | .fan_out c => inferInstanceAs (Decidable (c.frame.type = type → ∀ sub ∈ b.subs, _))
  | .subscribe | .close _ | .wait _ | .publish _ | .publish_changed _ => instDecidableTrue

/-- Every open subscriber that lost no frame has the recorded value, or will get it. -/
def Agreeing (type : String) (b : bus_t π) : Prop :=
  ∀ sub ∈ b.subs, sub.closed = false → sub.dropped = 0 → sub.view type = b.last type ∨ b.Pending type sub.id

variable {type : String} {b : bus_t π}

theorem Agreeing.subscribe (h : Agreeing type b) :
    Agreeing type (event_bus.subscribe b) := by
  intro sub hsub hopen hkept
  obtain hold | hnew := List.mem_append.mp hsub
  · exact h sub hold hopen hkept
  · rw [List.mem_singleton.mp hnew]
    exact Or.inl rfl

/-- An operation on a subscriber that leaves alone what it was sent. -/
theorem Agreeing.edit {id : Nat} {f : subscriber_t π → subscriber_t π}
    (h : Agreeing type b) (hid : ∀ sub, (f sub).id = sub.id) (hview : ∀ sub, (f sub).view type = sub.view type)
    (hopen : ∀ sub, (f sub).closed = false → sub.closed = false) (hkept : ∀ sub, (f sub).dropped = sub.dropped) :
    Agreeing type (b.edit id f) := by
  intro sub hsub hclosed hdropped
  obtain ⟨sub', hsub', rfl⟩ := List.mem_map.mp hsub
  split_ifs at hclosed hdropped ⊢ with heq
  · rw [hid, hview]
    exact h sub' hsub' (hopen sub' hclosed) ((hkept sub').symm.trans hdropped)
  · exact h sub' hsub' hclosed hdropped

theorem Agreeing.publish {f : frame_t π} (h : Agreeing type b) :
    Agreeing type (event_bus.publish b f) := by
  intro sub hsub hopen hkept
  refine (h sub hsub hopen hkept).imp_right ?_
  rintro ⟨v, hv, hreaches⟩
  exact ⟨v, hv, publish_reaches hreaches⟩

variable [DecidableEq π]

/-- Who records a value will push it to everybody. -/
theorem pending_publish_changed (b : bus_t π) (f : frame_t π) (id : Nat) :
    (b.last f.type = some f.payload ∧ publish_changed b f = b) ∨ (publish_changed b f).Pending f.type id := by
  obtain ⟨hsame, hlast⟩ | hnext := publish_changed_cases b f
  · exact Or.inl ⟨hlast, hsame⟩
  · right
    rw [hnext]
    exact ⟨f.payload, Function.update_self .., publish_reaches_self ..⟩

theorem Agreeing.publish_changed {f : frame_t π} (h : Agreeing type b) :
    Agreeing type (event_bus.publish_changed b f) := by
  by_cases htype : f.type = type
  · intro sub hsub hopen hkept
    obtain ⟨-, hsame⟩ | hpending := pending_publish_changed b f sub.id
    · rw [hsame] at hsub ⊢
      exact h sub hsub hopen hkept
    · exact Or.inr (htype ▸ hpending)
  · obtain ⟨hsame, -⟩ | hnext := publish_changed_cases b f
    · rw [hsame]
      exact h
    · rw [hnext]
      have hlast : Function.update b.last f.type (some f.payload) type = b.last type :=
        Function.update_of_ne (Ne.symm htype) ..
      refine Agreeing.publish fun sub hsub hopen hkept => ?_
      refine (h sub hsub hopen hkept).imp (fun hview => hview.trans hlast.symm) ?_
      rintro ⟨v, hv, hreaches⟩
      exact ⟨v, hlast.trans hv, hreaches⟩

/-- A frame of another type changes nothing. One of the type either carries the recorded
value, or a publish other than this one will push that later. -/
theorem Agreeing.fan_out {c : call_t π} (h : Agreeing type b)
    (hok : InOrder type b (.fan_out c)) : Agreeing type (event_bus.fan_out b c) := by
  intro sub hsub hopen hkept
  rw [bus_t.Pending, fan_out_last]
  obtain ⟨hold, hreaches⟩ | ⟨old, hold, rfl, htarget, hreaches⟩ := fan_out_cases b c hsub hopen hkept
  · refine (h sub hold hopen hkept).imp_right ?_
    rintro ⟨v, hv, hv'⟩
    exact ⟨v, hv, hreaches _ hv'⟩
  · rw [subscriber_t.view, ← List.append_assoc]
    by_cases htype : c.frame.type = type
    · rw [← htype, latest_append_same]
      by_cases hlast : b.last c.frame.type = some c.frame.payload
      · exact Or.inl hlast.symm
      · right
        obtain ⟨v, hv, hv'⟩ := (hok htype old hold htarget hopen).resolve_left (htype ▸ hlast)
        rw [← htype] at hv hv'
        refine ⟨v, hv, hreaches _ (fun heq => ?_) hv'⟩
        rw [← heq] at hlast
        exact hlast hv
    · rw [latest_append_other htype]
      refine (h old hold hopen hkept).imp_right ?_
      rintro ⟨v, hv, hv'⟩
      exact ⟨v, hv, hreaches _ (fun heq => htype (heq ▸ rfl)) hv'⟩

theorem Agreeing.step {b b' : bus_t π} {op : op_t π} (h : Agreeing type b) (hok : InOrder type b op)
    (hstep : b.step op = some b') : Agreeing type b' := by
  cases op with
  | subscribe =>
    cases hstep
    exact h.subscribe
  | close id =>
    cases hstep
    exact h.edit (fun _ => rfl) (fun _ => rfl) (fun _ hopen => by cases hopen) fun _ => rfl
  | wait id =>
    cases hstep
    refine h.edit (fun _ => rfl) (fun sub => ?_) (fun _ hopen => hopen) fun _ => rfl
    simp only [subscriber_t.view, subscriber_t.wait, List.append_nil]
  | publish f =>
    cases hstep
    exact h.publish
  | publish_changed f =>
    cases hstep
    exact h.publish_changed
  | fan_out c =>
    obtain ⟨-, rfl⟩ := step_fan_out hstep
    exact h.fan_out hok

/-- In every run in which frames of a type go out in order, once no publish of the type
runs, every open subscriber that lost no frame has seen the recorded value last. -/
theorem frames_agree {type : String} {b : bus_t π}
    (hreach : Relation.ReflTransGen (Transition.Step (InOrder type) bus_t.step) {} b)
    (hquiet : ∀ c ∈ b.calls, c.frame.type ≠ type) :
    ∀ sub ∈ b.subs, sub.closed = false → sub.dropped = 0 → sub.view type = b.last type := by
  have hagree : Agreeing type b :=
    Transition.invariant (fun _ hsub => by cases hsub) (fun _ _ _ h hok hstep => h.step hok hstep) hreach
  intro sub hsub hopen hkept
  refine (hagree sub hsub hopen hkept).resolve_right ?_
  rintro ⟨v, -, c, hc, hframe, -⟩
  exact hquiet c hc (by rw [hframe])

/-- A frame that is not in order leaves its subscriber behind: no publish that runs will bring
the recorded value. -/
theorem stale_of_not_inOrder {c : call_t π} (hnot : ¬ InOrder type b (.fan_out c)) :
    ∃ sub ∈ (fan_out b c).subs, sub.closed = false ∧ (sub.dropped = 0 → sub.view type ≠ (fan_out b c).last type) ∧
      ¬ (fan_out b c).Pending type sub.id := by
  simp only [InOrder, not_forall, not_or] at hnot
  obtain ⟨htype, sub, hsub, htarget, hopen, hlast, hpending⟩ := hnot
  rw [call_t.target] at htarget
  split at htarget
  · rename_i id live hstage
    cases htarget
    have hnext : fan_out b c = (b.edit sub.id fun sub => sub.push c.frame).advance c (some (.pushing live)) := by
      rw [fan_out, hstage]
    have hopen' : (sub.push c.frame).closed = false := (push_closed sub c.frame).trans hopen
    rw [fan_out_last, hnext]
    refine ⟨sub.push c.frame, ?_, hopen', fun hkept => ?_, ?_⟩
    · exact List.mem_map.mpr ⟨sub, hsub, if_pos rfl⟩
    · rw [push_kept hopen' hkept, subscriber_t.view, ← List.append_assoc, ← htype, latest_append_same, htype]
      exact Ne.symm hlast
    · rintro ⟨v, hv, c', hc', hframe, hreaches⟩
      rw [push_id] at hreaches
      obtain hold | hsame := advance_calls hc'
      · exact hpending ⟨v, hv, c', hold, hframe, hreaches⟩
      · rw [← hsame, hframe] at hlast
        exact hlast hv
  · cases htarget

/-- Two publishers record 1 and 2, and push in this order. -/
theorem ordered_frames_agree :
    ∃ b : bus_t Nat, b.last "state" = some 2 ∧
      ∀ sub ∈ b.subs, sub.closed = false → sub.dropped = 0 → sub.view "state" = b.last "state" := by
  have hrun : (Transition.run (InOrder "state") bus_t.step {}
      [.subscribe, .publish_changed ⟨"state", 1⟩, .publish_changed ⟨"state", 2⟩,
        .fan_out ⟨⟨"state", 1⟩, .recorded⟩, .fan_out ⟨⟨"state", 2⟩, .recorded⟩,
        .fan_out ⟨⟨"state", 1⟩, .listening⟩, .fan_out ⟨⟨"state", 1⟩, .pushing [0]⟩,
        .fan_out ⟨⟨"state", 2⟩, .listening⟩, .fan_out ⟨⟨"state", 2⟩, .pushing [0]⟩,
        .fan_out ⟨⟨"state", 1⟩, .pushing []⟩, .fan_out ⟨⟨"state", 2⟩, .pushing []⟩, .wait 0]).any
      (fun b => decide (b.calls = []) && decide (b.last "state" = some 2)) = true := by
    decide
  obtain ⟨b, hreach, htest⟩ := Transition.run_any hrun
  obtain ⟨hquiet, hlast⟩ := (Bool.and_eq_true _ _).mp htest
  refine ⟨b, of_decide_eq_true hlast, frames_agree hreach ?_⟩
  rw [of_decide_eq_true hquiet]
  exact fun c hc => by cases hc

/-- Two publishers record 1 and 2, and push in the other order: the subscriber keeps 1,
and to publish 2 again is silent. -/
theorem swapped_frames_stay_stale :
    ∃ b : bus_t Nat, Transition.run (fun _ _ => True) bus_t.step {}
        [.subscribe, .publish_changed ⟨"state", 1⟩, .publish_changed ⟨"state", 2⟩,
          .fan_out ⟨⟨"state", 1⟩, .recorded⟩, .fan_out ⟨⟨"state", 2⟩, .recorded⟩,
          .fan_out ⟨⟨"state", 1⟩, .listening⟩, .fan_out ⟨⟨"state", 2⟩, .listening⟩,
          .fan_out ⟨⟨"state", 2⟩, .pushing [0]⟩, .fan_out ⟨⟨"state", 1⟩, .pushing [0]⟩,
          .fan_out ⟨⟨"state", 1⟩, .pushing []⟩, .fan_out ⟨⟨"state", 2⟩, .pushing []⟩, .wait 0] = some b ∧
      b.calls = [] ∧ b.last "state" = some 2 ∧ publish_changed b ⟨"state", 2⟩ = b ∧
      ∃ sub ∈ b.subs, sub.closed = false ∧ sub.dropped = 0 ∧ sub.joined "state" = none ∧ sub.view "state" = some 1 := by
  refine ⟨_, rfl, by decide, by decide, rfl, _, List.mem_cons_self, by decide, by decide, by decide, by decide⟩

end slop.core.infra.event_bus
