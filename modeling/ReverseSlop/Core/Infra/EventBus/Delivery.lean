import ReverseSlop.Core.Infra.EventBus.State
import ReverseSlop.Library.Keyed

namespace slop.core.infra.event_bus

variable {π : Type}

/-! The frames of a type. -/

/-- The value of the last frame of a type, or the one from before. -/
def latest (type : String) (before : Option π) (frames : List (frame_t π)) : Option π :=
  ((frames.filter fun f => f.type = type).getLast?.map frame_t.payload).or before

theorem latest_append_same (before : Option π) (frames : List (frame_t π)) (f : frame_t π) :
    latest f.type before (frames ++ [f]) = some f.payload := by
  simp [latest, List.filter_append]

theorem latest_append_other {type : String} {f : frame_t π} (htype : f.type ≠ type) (before : Option π)
    (frames : List (frame_t π)) : latest type before (frames ++ [f]) = latest type before frames := by
  simp [latest, List.filter_append, htype]

theorem latest_cons (type : String) (before : Option π) (f : frame_t π) (frames : List (frame_t π)) :
    latest type before (f :: frames) = latest type (if f.type = type then some f.payload else before) frames := by
  by_cases htype : f.type = type
  · simp only [latest, List.filter_cons, decide_eq_true htype, if_pos htype, if_true, List.getLast?_cons]
    cases (frames.filter fun f => f.type = type).getLast? <;> rfl
  · simp only [latest, List.filter_cons, decide_eq_false htype, if_neg htype, Bool.false_eq_true, if_false]

/-! The publishes that run. -/

/-- A publish in this stage is still to push to a subscriber that stays. -/
def stage_t.Reaches (id : Nat) : stage_t → Prop
  | .pushing live => id ∈ live
  | _ => True

instance (id : Nat) : ∀ stage : stage_t, Decidable (stage.Reaches id)
  | .recorded => instDecidableTrue
  | .listening => instDecidableTrue
  | .pushing live => inferInstanceAs (Decidable (id ∈ live))

/-- A frame is still to be pushed to a subscriber. -/
def bus_t.Reaches (b : bus_t π) (f : frame_t π) (id : Nat) : Prop :=
  ∃ c ∈ b.calls, c.frame = f ∧ c.stage.Reaches id

instance [DecidableEq π] (b : bus_t π) (f : frame_t π) (id : Nat) : Decidable (b.Reaches f id) :=
  inferInstanceAs (Decidable (∃ c ∈ b.calls, _))

/-- The subscriber that a publish pushes to next. -/
def call_t.target (c : call_t π) : Option Nat :=
  match c.stage with
  | .pushing (id :: _) => some id
  | _ => none

theorem push_id (sub : subscriber_t π) (f : frame_t π) : (sub.push f).id = sub.id := by
  rw [subscriber_t.push]
  split_ifs <;> rfl

theorem push_closed (sub : subscriber_t π) (f : frame_t π) : (sub.push f).closed = sub.closed := by
  rw [subscriber_t.push]
  split_ifs <;> rfl

/-- An open subscriber that still has lost no frame has the new one behind the others. -/
theorem push_kept {sub : subscriber_t π} {f : frame_t π} (hopen : (sub.push f).closed = false)
    (hkept : (sub.push f).dropped = 0) : sub.push f = { sub with q := sub.q ++ [f] } := by
  rw [push_closed] at hopen
  rw [subscriber_t.push, hopen, if_neg Bool.false_ne_true] at hkept ⊢
  split_ifs at hkept ⊢
  rfl

variable {b : bus_t π}

theorem publish_reaches {f g : frame_t π} {id : Nat} (h : b.Reaches f id) :
    (publish b g).Reaches f id := by
  obtain ⟨c, hc, hframe, hreaches⟩ := h
  exact ⟨c, List.mem_append_left _ hc, hframe, hreaches⟩

theorem publish_reaches_self (b : bus_t π) (f : frame_t π) (id : Nat) : (publish b f).Reaches f id :=
  ⟨{ frame := f }, List.mem_append_right _ List.mem_cons_self, rfl, trivial⟩

/-! Subscribers have ids of their own. -/

structure bus_t.Fresh (b : bus_t π) : Prop where
  distinct : Keyed.Distinct subscriber_t.id b.subs
  bounded : ∀ sub ∈ b.subs, sub.id < b.next_id

theorem bus_fresh_init : bus_t.Fresh ({} : bus_t π) := ⟨List.Pairwise.nil, List.forall_mem_nil _⟩

theorem bus_t.Fresh.subscribe (h : b.Fresh) : (event_bus.subscribe b).Fresh := by
  refine ⟨h.distinct.append fun sub hsub => Nat.ne_of_lt (h.bounded sub hsub), fun sub hsub => ?_⟩
  obtain hold | hnew := List.mem_append.mp hsub
  · exact Nat.lt_succ_of_lt (h.bounded sub hold)
  · rw [List.mem_singleton.mp hnew]
    exact Nat.lt_succ_self _

theorem bus_t.Fresh.edit (h : b.Fresh) {id : Nat} {f : subscriber_t π → subscriber_t π}
    (hf : ∀ sub, (f sub).id = sub.id) : (b.edit id f).Fresh := by
  have hids : (b.edit id f).subs.map subscriber_t.id = b.subs.map subscriber_t.id := by
    rw [bus_t.edit, List.map_map]
    refine List.map_congr_left fun sub _ => ?_
    rw [Function.comp_apply]
    split_ifs
    · exact hf sub
    · rfl
  refine ⟨h.distinct.congr hids, fun sub hsub => ?_⟩
  obtain ⟨old, hold, hid⟩ := List.mem_map.mp (hids ▸ List.mem_map_of_mem (f := subscriber_t.id) hsub)
  rw [← hid]
  exact h.bounded old hold

/-! No frame is made up. -/

/-- All frames of the bus have a property. -/
structure bus_t.All (P : frame_t π → Prop) (b : bus_t π) : Prop where
  calls : ∀ c ∈ b.calls, P c.frame
  queues : ∀ sub ∈ b.subs, ∀ f ∈ sub.q, P f

theorem bus_all_init (P : frame_t π → Prop) : bus_t.All P {} := ⟨List.forall_mem_nil _, List.forall_mem_nil _⟩

theorem bus_t.All.mono {P Q : frame_t π → Prop} {b : bus_t π} (h : b.All P) (himp : ∀ f, P f → Q f) : b.All Q :=
  ⟨fun c hc => himp _ (h.calls c hc), fun sub hsub f hf => himp f (h.queues sub hsub f hf)⟩

variable {P : frame_t π → Prop}

theorem bus_t.All.subscribe (h : b.All P) : (event_bus.subscribe b).All P := by
  refine ⟨h.calls, fun sub hsub => ?_⟩
  obtain hold | hnew := List.mem_append.mp hsub
  · exact h.queues sub hold
  · rw [List.mem_singleton.mp hnew]
    exact List.forall_mem_nil _

theorem bus_t.All.edit (h : b.All P) {id : Nat}
    {f : subscriber_t π → subscriber_t π} (hf : ∀ sub, (∀ g ∈ sub.q, P g) → ∀ g ∈ (f sub).q, P g) :
    (b.edit id f).All P := by
  refine ⟨h.calls, fun sub hsub => ?_⟩
  obtain ⟨old, hold, rfl⟩ := List.mem_map.mp hsub
  split_ifs
  · exact hf old (h.queues old hold)
  · exact h.queues old hold

theorem bus_t.All.publish (h : b.All P) {f : frame_t π} (hf : P f) :
    (event_bus.publish b f).All P := by
  refine ⟨fun c hc => ?_, h.queues⟩
  obtain hold | hnew := List.mem_append.mp hc
  · exact h.calls c hold
  · rw [List.mem_singleton.mp hnew]
    exact hf

theorem bus_t.All.backlog (h : b.All P) (id : Nat) : ∀ f ∈ b.backlog id, P f := by
  rw [bus_t.backlog]
  cases hfind : b.subs.find? fun sub => sub.id = id with
  | none => exact List.forall_mem_nil _
  | some sub => exact h.queues sub (List.mem_of_find?_eq_some hfind)

theorem push_mem {sub : subscriber_t π} {f g : frame_t π} (hg : g ∈ (sub.push f).q) : g ∈ sub.q ∨ g = f := by
  rw [subscriber_t.push] at hg
  split_ifs at hg
  · exact Or.inl hg
  · exact (List.mem_append.mp hg).imp List.mem_of_mem_tail List.mem_singleton.mp
  · exact (List.mem_append.mp hg).imp_right List.mem_singleton.mp

variable [DecidableEq π]

theorem step_fan_out {b b' : bus_t π} {c : call_t π} (hstep : b.step (.fan_out c) = some b') :
    c ∈ b.calls ∧ b' = fan_out b c := by
  rw [bus_t.step] at hstep
  split at hstep
  · cases hstep
    exact ⟨‹_›, rfl⟩
  · cases hstep

theorem advance_calls {c c' : call_t π} {next : Option stage_t}
    (hc' : c' ∈ (b.advance c next).calls) : c' ∈ b.calls ∨ c'.frame = c.frame := by
  obtain hold | hnew := List.mem_append.mp hc'
  · exact Or.inl (List.mem_of_mem_erase hold)
  · obtain ⟨stage, -, rfl⟩ := Option.map_eq_some_iff.mp (Option.mem_toList.mp hnew)
    exact Or.inr rfl

theorem fan_out_calls {c c' : call_t π} (hc' : c' ∈ (fan_out b c).calls) :
    c' ∈ b.calls ∨ c'.frame = c.frame := by
  rw [fan_out.eq_def, check.eq_def] at hc'
  split at hc'
  · split at hc'
    · exact advance_calls hc'
    · exact advance_calls hc'
  · exact advance_calls hc'
  · exact advance_calls hc'
  · exact advance_calls hc'

theorem fan_out_last (b : bus_t π) (c : call_t π) : (fan_out b c).last = b.last := by
  rw [fan_out.eq_def, check.eq_def]
  split
  · split <;> rfl
  · rfl
  · rfl
  · rfl

theorem bus_t.All.fan_out (h : b.All P) {c : call_t π} (hc : P c.frame) :
    (event_bus.fan_out b c).All P := by
  refine ⟨fun c' hc' => ?_, ?_⟩
  · obtain hold | hsame := fan_out_calls hc'
    · exact h.calls c' hold
    · rw [hsame]
      exact hc
  · rw [event_bus.fan_out.eq_def, check.eq_def]
    split
    · split <;> exact h.queues
    · exact fun sub hsub => h.queues sub (List.mem_filter.mp hsub).1
    · exact h.queues
    · refine (h.edit fun sub hsub g hg => ?_).queues
      obtain hold | rfl := push_mem hg
      · exact hsub g hold
      · exact hc

theorem fan_out_next_id (b : bus_t π) (c : call_t π) : (fan_out b c).next_id = b.next_id := by
  rw [fan_out.eq_def, check.eq_def]
  split
  · split <;> rfl
  · rfl
  · rfl
  · rfl

theorem bus_t.Fresh.fan_out (h : b.Fresh) (c : call_t π) : (event_bus.fan_out b c).Fresh := by
  rw [event_bus.fan_out.eq_def, check.eq_def]
  split
  · split
    · exact ⟨h.distinct, h.bounded⟩
    · exact ⟨h.distinct, h.bounded⟩
  · exact ⟨h.distinct.filter _, fun sub hsub => h.bounded sub (List.mem_filter.mp hsub).1⟩
  · exact ⟨h.distinct, h.bounded⟩
  · rename_i id live _
    have hedit : (b.edit id fun sub => sub.push c.frame).Fresh := h.edit fun sub => push_id sub c.frame
    exact ⟨hedit.distinct, hedit.bounded⟩

/-! The sections of a publish. -/

theorem advance_reaches {c : call_t π} {next : Option stage_t} {f : frame_t π} {id : Nat}
    (h : b.Reaches f id) (hnext : c.frame = f → c.stage.Reaches id → ∃ stage ∈ next, stage.Reaches id) :
    (b.advance c next).Reaches f id := by
  obtain ⟨c', hc', hframe, hreaches⟩ := h
  by_cases heq : c' = c
  · rw [heq] at hframe hreaches
    obtain ⟨stage, hstage, hreaches'⟩ := hnext hframe hreaches
    refine ⟨{ c with stage }, ?_, hframe, hreaches'⟩
    rw [bus_t.advance, Option.mem_def.mp hstage]
    exact List.mem_append_right _ List.mem_cons_self
  · exact ⟨c', List.mem_append_left _ ((List.mem_erase_of_ne heq).mpr hc'), hframe, hreaches⟩

/-- What the next section of a publish does for an open subscriber that lost no frame:
nothing, or it puts its frame behind the others. No other frame is forgotten. -/
theorem fan_out_cases (b : bus_t π) (c : call_t π) {sub : subscriber_t π} (hsub : sub ∈ (fan_out b c).subs)
    (hopen : sub.closed = false) (hkept : sub.dropped = 0) :
    (sub ∈ b.subs ∧ ∀ f, b.Reaches f sub.id → (fan_out b c).Reaches f sub.id) ∨
      ∃ old ∈ b.subs, sub = { old with q := old.q ++ [c.frame] } ∧ c.target = some old.id ∧
        ∀ f ≠ c.frame, b.Reaches f old.id → (fan_out b c).Reaches f old.id := by
  rw [fan_out] at hsub ⊢
  split at hsub
  · left
    rw [check] at hsub ⊢
    split at hsub
    · rename_i hnone
      rw [bus_t.advance, List.isEmpty_iff.mp hnone] at hsub
      cases hsub
    · rename_i hsome
      rw [if_neg hsome]
      exact ⟨hsub, fun f h => advance_reaches h fun _ _ => ⟨.listening, rfl, trivial⟩⟩
  · left
    refine ⟨(List.mem_filter.mp hsub).1, fun f h => ?_⟩
    exact advance_reaches h fun _ _ => ⟨_, rfl, List.mem_map_of_mem hsub⟩
  · rename_i hstage
    left
    refine ⟨hsub, fun f h => advance_reaches h fun _ hreaches => ?_⟩
    rw [hstage] at hreaches
    cases hreaches
  · rename_i id live hstage
    obtain ⟨old, hold, rfl⟩ := List.mem_map.mp hsub
    by_cases hid : old.id = id
    · right
      rw [if_pos hid] at hopen hkept ⊢
      refine ⟨old, hold, push_kept hopen hkept, by rw [call_t.target, hstage, hid], fun f hne h => ?_⟩
      exact advance_reaches (b := b.edit id _) h fun heq _ => absurd heq.symm hne
    · left
      rw [if_neg hid] at hopen hkept ⊢
      refine ⟨hold, fun f h => ?_⟩
      refine advance_reaches (b := b.edit id _) h fun _ hreaches => ?_
      rw [hstage] at hreaches
      exact ⟨_, rfl, (List.mem_cons.mp hreaches).resolve_left hid⟩

/-- `publish_changed` leaves everything alone, or records another value and starts to
publish it. -/
theorem publish_changed_cases (b : bus_t π) (f : frame_t π) :
    (publish_changed b f = b ∧ b.last f.type = some f.payload) ∨
      publish_changed b f = publish { b with last := Function.update b.last f.type (some f.payload) } f := by
  rw [publish_changed]
  split
  · exact Or.inl ⟨rfl, ‹_›⟩
  · exact Or.inr rfl

theorem publish_changed_last (b : bus_t π) (f : frame_t π) (type : String) :
    (publish_changed b f).last type = if type = f.type then some f.payload else b.last type := by
  obtain ⟨hsame, hlast⟩ | hnext := publish_changed_cases b f
  · rw [hsame]
    split
    · rename_i htype
      rw [htype, hlast]
    · rfl
  · rw [hnext]
    exact Function.update_apply ..

end slop.core.infra.event_bus
