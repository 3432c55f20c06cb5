import ReverseSlop.Core.Infra.Deferred.Manager

namespace slop.core.infra.deferred

variable {ω : Type}

/-- What an entry with a status has behind it. -/
def deferred_action_t.past (a : deferred_action_t) : List event_t :=
  match a.status with
  | .pending => []
  | .done => [.executed a.kind a.params_json true]
  | .failed => [.executed a.kind a.params_json false]
  | .cancelled => [.cancelled]

/-- The entries have the numbers of their submissions, in order, and a past that the log has. -/
structure history_t.Account (h : history_t ω) : Prop where
  ordered : h.manager.actions.Pairwise fun a b => a.serial < b.serial
  bounded : h.manager.actions.length ≤ 256
  listed : ∀ a ∈ h.manager.actions,
    h.submissions[a.serial]? = some (a.kind, a.params_json) ∧ events h.log a.serial = a.past
  known : ∀ e ∈ h.log, e.1 < h.submissions.length

/-- Nothing is left to do for a submission. -/
def Settled (kind params_json : String) (past : List event_t) : Prop :=
  (∃ ok, past.filter event_t.call = [.executed kind params_json ok]) ∨
    (past.filter event_t.call = [] ∧ (.cancelled ∈ past ∨ .cleared ∈ past))

/-- Every submission is listed or settled. -/
def history_t.Complete (h : history_t ω) : Prop :=
  ∀ n kind params_json, h.submissions[n]? = some (kind, params_json) →
    (∃ a ∈ h.manager.actions, a.serial = n) ∨ Settled kind params_json (events h.log n)

/-- Calls leave every entry in its place, and a past that they append to. -/
structure Advances (l l' : List deferred_action_t) (log : List (Nat × event_t)) : Prop where
  serials : l'.map deferred_action_t.serial = l.map deferred_action_t.serial
  entries : ∀ a' ∈ l', ∃ a ∈ l, a'.serial = a.serial ∧ a'.kind = a.kind ∧ a'.params_json = a.params_json ∧
    a'.past = a.past ++ events log a.serial
  known : ∀ e ∈ log, ∃ a ∈ l, a.serial = e.1

section

variable {l l' : List deferred_action_t} {log log' : List (Nat × event_t)} {a a' : deferred_action_t} {n : Nat}
  {kind params_json : String} {h : history_t ω}

@[simp]
theorem events_nil (n : Nat) : events [] n = [] := by simp [events]

@[simp]
theorem events_append (log log' : List (Nat × event_t)) (n : Nat) :
    events (log ++ log') n = events log n ++ events log' n := by
  simp [events]

theorem events_none (hnone : ∀ e ∈ log, e.1 ≠ n) : events log n = [] := by
  rw [events, List.filter_eq_nil_iff.mpr, List.map_nil]
  intro e he
  simpa using hnone e he

/-- The log of one entry. -/
theorem events_own (own : List event_t) (n : Nat) : events (own.map (n, ·)) n = own := by
  simp [events, List.filter_map, Function.comp_def]

theorem events_other {m : Nat} (own : List event_t) (hne : m ≠ n) : events (own.map (m, ·)) n = [] := by
  apply events_none
  intro e he
  obtain ⟨event, _, rfl⟩ := List.mem_map.mp he
  exact hne

theorem Advances.refl (l : List deferred_action_t) : Advances l l [] :=
  ⟨by simp, fun a ha => ⟨a, ha, by simp⟩, by simp⟩

/-- The entry in front may get more events as well. -/
theorem Advances.cons (hrest : Advances l l' log) (own : List event_t) (hserial : a'.serial = a.serial)
    (hkind : a'.kind = a.kind) (hparams : a'.params_json = a.params_json) (hpast : a'.past = a.past ++ own)
    (hfresh : ∀ b ∈ l, a.serial < b.serial) : Advances (a :: l) (a' :: l') (own.map (a.serial, ·) ++ log) := by
  refine ⟨by simp [hserial, hrest.serials], ?_, ?_⟩
  · intro b' hb'
    obtain rfl | hb' := List.mem_cons.mp hb'
    · have hnone : events log a.serial = [] := by
        apply events_none
        intro e he
        obtain ⟨b, hb, hsame⟩ := hrest.known e he
        have hlt := hfresh b hb
        omega
      refine ⟨a, List.mem_cons_self, hserial, hkind, hparams, ?_⟩
      rw [events_append, events_own, hnone, List.append_nil, hpast]
    · obtain ⟨b, hb, hserial, hkind, hparams, hpast⟩ := hrest.entries b' hb'
      refine ⟨b, List.mem_cons_of_mem a hb, hserial, hkind, hparams, ?_⟩
      rw [events_append, events_other own (Nat.ne_of_lt (hfresh b hb)), List.nil_append, hpast]
  · intro e he
    obtain hown | he := List.mem_append.mp he
    · obtain ⟨event, _, rfl⟩ := List.mem_map.mp hown
      exact ⟨a, List.mem_cons_self, by simp⟩
    · obtain ⟨b, hb, hsame⟩ := hrest.known e he
      exact ⟨b, List.mem_cons_of_mem a hb, hsame⟩

/-- The entry in front stays as it is. -/
theorem Advances.skip (hrest : Advances l l' log) (hfresh : ∀ b ∈ l, a.serial < b.serial) :
    Advances (a :: l) (a :: l') log := by
  have hpast : a.past = a.past ++ [] := by simp
  simpa using hrest.cons [] (by simp) (by simp) (by simp) hpast hfresh

/-- Each entry that is due is passed to its executor once. -/
theorem execute_advances (m : deferred_manager_t ω) (kind : String)
    (hordered : l.Pairwise fun a b => a.serial < b.serial) (w : ω) :
    Advances l (m.execute_actions kind l w).1 (m.execute_actions kind l w).2.1 := by
  induction l generalizing w with
  | nil => simpa [deferred_manager_t.execute_actions] using Advances.refl []
  | cons a l ih =>
    obtain ⟨hfresh, hrest⟩ := List.pairwise_cons.mp hordered
    by_cases hskip : a.status ≠ .pending ∨ (kind ≠ "" ∧ a.kind ≠ kind)
    · rw [deferred_manager_t.execute_actions, if_pos hskip]
      exact (ih hrest w).skip hfresh
    · rw [deferred_manager_t.execute_actions, if_neg hskip]
      obtain ⟨hpending, _⟩ := not_or.mp hskip
      have hpending : a.status = .pending := not_not.mp hpending
      cases hfn : m.executors.lookup a.kind with
      | none => exact (ih hrest w).skip hfresh
      | some fn =>
        refine (ih hrest (fn a.params_json w).2).cons [.executed a.kind a.params_json (fn a.params_json w).1.1]
          ?_ ?_ ?_ ?_ hfresh
        · simp
        · simp
        · simp
        · cases hok : (fn a.params_json w).1.1 <;> simp [deferred_action_t.past, hpending]

/-- Only the entry that is reported becomes cancelled, and it was pending. -/
theorem cancel_advances (id : UInt64) (hordered : l.Pairwise fun a b => a.serial < b.serial) :
    Advances l (deferred_manager_t.cancel_action id l).2
      ((deferred_manager_t.cancel_action id l).1.toList.map fun a => (a.serial, .cancelled)) := by
  induction l with
  | nil => simpa [deferred_manager_t.cancel_action] using Advances.refl []
  | cons a l ih =>
    obtain ⟨hfresh, hrest⟩ := List.pairwise_cons.mp hordered
    by_cases hfound : a.id = id ∧ a.status = .pending
    · rw [deferred_manager_t.cancel_action, if_pos hfound]
      refine (Advances.refl l).cons (a := a) [.cancelled] ?_ ?_ ?_ ?_ hfresh
      · simp
      · simp
      · simp
      · simp [deferred_action_t.past, hfound.2]
    · rw [deferred_manager_t.cancel_action, if_neg hfound]
      exact (ih hrest).skip hfresh

/-- What a log gets for numbers that are listed says nothing about the other ones. -/
theorem Advances.other (hadvances : Advances l l' log) (hnone : ¬ ∃ a ∈ l, a.serial = n) : events log n = [] := by
  apply events_none
  intro e he hsame
  obtain ⟨a, ha, hserial⟩ := hadvances.known e he
  exact hnone ⟨a, ha, hserial.trans hsame⟩

theorem Advances.listed (hadvances : Advances l l' log) (hl : ∃ a ∈ l, a.serial = n) : ∃ a ∈ l', a.serial = n := by
  have hmem : n ∈ l'.map deferred_action_t.serial := by
    rw [hadvances.serials]
    exact List.mem_map.mpr hl
  exact List.mem_map.mp hmem

theorem history_t.Account.advance {h' : history_t ω} (hacc : h.Account)
    (hadvances : Advances h.manager.actions h'.manager.actions log) (hsame : h'.submissions = h.submissions)
    (hlog : h'.log = h.log ++ log) : h'.Account := by
  refine ⟨?_, ?_, ?_, ?_⟩
  · have hordered : (h'.manager.actions.map deferred_action_t.serial).Pairwise (· < ·) := by
      rw [hadvances.serials]
      exact List.pairwise_map.mpr hacc.ordered
    exact List.pairwise_map.mp hordered
  · have hlen := congrArg List.length hadvances.serials
    rw [List.length_map, List.length_map] at hlen
    have hbounded := hacc.bounded
    omega
  · intro a' ha'
    obtain ⟨a, ha, hserial, hkind, hparams, hpast⟩ := hadvances.entries a' ha'
    obtain ⟨hsub, hevents⟩ := hacc.listed a ha
    rw [hsame, hlog, hserial, hkind, hparams, hpast, events_append, hevents]
    exact ⟨hsub, by simp⟩
  · intro e he
    rw [hlog] at he
    rw [hsame]
    obtain he | he := List.mem_append.mp he
    · exact hacc.known e he
    · obtain ⟨a, ha, hserial⟩ := hadvances.known e he
      obtain ⟨hsub, _⟩ := hacc.listed a ha
      rw [← hserial]
      exact (List.getElem?_eq_some_iff.mp hsub).1

theorem history_t.Complete.advance {h' : history_t ω} (hcomplete : h.Complete)
    (hadvances : Advances h.manager.actions h'.manager.actions log) (hsame : h'.submissions = h.submissions)
    (hlog : h'.log = h.log ++ log) : h'.Complete := by
  intro n kind params_json hsub
  rw [hsame] at hsub
  by_cases hlisted : ∃ a ∈ h.manager.actions, a.serial = n
  · exact Or.inl (hadvances.listed hlisted)
  · right
    rw [hlog, events_append, hadvances.other hlisted, List.append_nil]
    exact (hcomplete n kind params_json hsub).resolve_left hlisted

/-- An entry that is not pending is settled. -/
theorem settled_of_past (a : deferred_action_t) (hstatus : a.status ≠ .pending) :
    Settled a.kind a.params_json a.past := by
  cases hcase : a.status with
  | pending => exact absurd hcase hstatus
  | done =>
    left
    exact ⟨true, by simp [deferred_action_t.past, hcase, event_t.call]⟩
  | failed =>
    left
    exact ⟨false, by simp [deferred_action_t.past, hcase, event_t.call]⟩
  | cancelled =>
    right
    simp [deferred_action_t.past, hcase, event_t.call]

/-- A list that is cleared leaves nothing but settled submissions. -/
theorem Settled.clear {past : List event_t} (hpast : Settled kind params_json past) (more : List event_t)
    (hmore : ∀ e ∈ more, e = .cleared) : Settled kind params_json (past ++ more) := by
  have hcalls : more.filter event_t.call = [] := by
    rw [List.filter_eq_nil_iff]
    intro e he
    rw [hmore e he]
    simp [event_t.call]
  obtain ⟨ok, hcall⟩ | ⟨hnone, hended⟩ := hpast
  · left
    exact ⟨ok, by rw [List.filter_append, hcall, hcalls, List.append_nil]⟩
  · right
    rw [List.filter_append, hnone, hcalls]
    refine ⟨by simp, ?_⟩
    obtain hended | hended := hended
    · exact Or.inl (List.mem_append_left more hended)
    · exact Or.inr (List.mem_append_left more hended)

theorem events_cleared (l : List deferred_action_t) (n : Nat) :
    ∀ e ∈ events (l.map fun a => (a.serial, .cleared)) n, e = .cleared := by
  simp only [events, List.mem_map, List.mem_filter]
  intro e ⟨entry, ⟨⟨a, _, hentry⟩, _⟩, he⟩
  rw [← he, ← hentry]

theorem history_t.Account.clear (hacc : h.Account) : (h.apply .clear).Account := by
  refine ⟨?_, ?_, ?_, ?_⟩
  · simp [history_t.apply, deferred_manager_t.clear]
  · simp [history_t.apply, deferred_manager_t.clear]
  · simp [history_t.apply, deferred_manager_t.clear]
  · intro e he
    simp only [history_t.apply, List.mem_append, List.mem_map] at he
    obtain he | ⟨a, ha, rfl⟩ := he
    · exact hacc.known e he
    · exact (List.getElem?_eq_some_iff.mp (hacc.listed a ha).1).1

theorem history_t.Complete.clear (hacc : h.Account) (hcomplete : h.Complete) : (h.apply .clear).Complete := by
  intro n kind params_json hsub
  right
  have hcleared := events_cleared h.manager.actions n
  simp only [history_t.apply, events_append] at hsub ⊢
  obtain ⟨a, ha, rfl⟩ | hsettled := hcomplete n kind params_json hsub
  · obtain ⟨hown, hpast⟩ := hacc.listed a ha
    rw [hown, Option.some.injEq, Prod.mk.injEq] at hsub
    obtain ⟨rfl, rfl⟩ := hsub
    rw [hpast]
    by_cases hstatus : a.status = .pending
    · right
      have hnone : a.past = [] := by simp [deferred_action_t.past, hstatus]
      have hmem : event_t.cleared ∈ events (h.manager.actions.map fun a => (a.serial, event_t.cleared)) a.serial := by
        simp only [events, List.mem_map, List.mem_filter]
        exact ⟨(a.serial, .cleared), ⟨⟨a, ha, by simp⟩, by simp⟩, by simp⟩
      rw [hnone, List.nil_append]
      refine ⟨?_, Or.inr hmem⟩
      rw [List.filter_eq_nil_iff]
      intro e he
      rw [hcleared e he]
      simp [event_t.call]
    · exact (settled_of_past a hstatus).clear _ hcleared
  · exact hsettled.clear _ hcleared

/-- A submission to a store with room appends its entry, one to a full store drops the oldest for it. -/
theorem submit_cases (hacc : h.Account) (kind params_json : String) :
    ∃ added : deferred_action_t, added.serial = h.submissions.length ∧ added.kind = kind ∧
      added.params_json = params_json ∧ added.status = .pending ∧
      ((h.manager.actions.length < 256 ∧
          (h.apply (.submit kind params_json)).manager.actions = h.manager.actions ++ [added]) ∨
        ∃ oldest rest, h.manager.actions = oldest :: rest ∧ h.manager.actions.length = 256 ∧
          (h.apply (.submit kind params_json)).manager.actions = rest ++ [added]) := by
  refine ⟨{ serial := h.submissions.length, id := h.manager.next_id, kind, params_json }, by simp, by simp, by simp,
    by simp, ?_⟩
  obtain hroom | hfull := Nat.lt_or_ge h.manager.actions.length 256
  · left
    have hdrop : h.manager.actions.length + 1 - 256 = 0 := by omega
    refine ⟨hroom, ?_⟩
    simp [history_t.apply, deferred_manager_t.submit, hdrop]
  · right
    have hlen := Nat.le_antisymm hacc.bounded hfull
    have hne : h.manager.actions ≠ [] := by
      apply List.ne_nil_of_length_pos
      omega
    obtain ⟨oldest, rest, hactions⟩ := List.exists_cons_of_ne_nil hne
    have hrest : rest.length = 255 := by simpa [hactions] using hlen
    refine ⟨oldest, rest, hactions, hlen, ?_⟩
    simp [history_t.apply, deferred_manager_t.submit, hactions, hrest]

/-- The entries that are kept and the new one have the numbers of their submissions. -/
theorem history_t.Account.push {kept : List deferred_action_t} {added : deferred_action_t} {h' : history_t ω}
    (hacc : h.Account) (hkept : kept.Sublist h.manager.actions) (hroom : kept.length < 256)
    (hserial : added.serial = h.submissions.length) (hpending : added.status = .pending)
    (hactions : h'.manager.actions = kept ++ [added])
    (hsubs : h'.submissions = h.submissions ++ [(added.kind, added.params_json)]) (hlog : h'.log = h.log) :
    h'.Account := by
  have hbelow : ∀ a ∈ h.manager.actions, a.serial < h.submissions.length :=
    fun a ha => (List.getElem?_eq_some_iff.mp (hacc.listed a ha).1).1
  refine ⟨?_, ?_, ?_, ?_⟩
  · rw [hactions, List.pairwise_append]
    refine ⟨hacc.ordered.sublist hkept, List.pairwise_singleton _ added, ?_⟩
    intro a ha b hb
    rw [List.mem_singleton.mp hb, hserial]
    exact hbelow a (hkept.mem ha)
  · rw [hactions, List.length_append, List.length_singleton]
    omega
  · intro a ha
    rw [hactions] at ha
    rw [hsubs, hlog]
    obtain ha | ha := List.mem_append.mp ha
    · obtain ⟨hsub, hpast⟩ := hacc.listed a (hkept.mem ha)
      refine ⟨?_, hpast⟩
      rw [List.getElem?_append_left (hbelow a (hkept.mem ha))]
      exact hsub
    · obtain rfl := List.mem_singleton.mp ha
      refine ⟨by simp [hserial], ?_⟩
      have hpast : a.past = [] := by simp [deferred_action_t.past, hpending]
      rw [hpast]
      apply events_none
      intro e he
      have hlt := hacc.known e he
      omega
  · intro e he
    rw [hlog] at he
    rw [hsubs, List.length_append]
    have hlt := hacc.known e he
    omega

theorem history_t.Account.submit (hacc : h.Account) (kind params_json : String) :
    (h.apply (.submit kind params_json)).Account := by
  obtain ⟨added, hserial, rfl, rfl, hpending, ⟨hroom, hactions⟩ | ⟨oldest, rest, hold, hlen, hactions⟩⟩ :=
    submit_cases hacc kind params_json
  · apply hacc.push (List.Sublist.refl _) hroom hserial hpending hactions
    · simp [history_t.apply]
    · simp [history_t.apply]
  · rw [hold, List.length_cons] at hlen
    have hkept : rest.Sublist h.manager.actions := by
      rw [hold]
      exact List.sublist_cons_self oldest rest
    apply hacc.push hkept (by omega) hserial hpending hactions
    · simp [history_t.apply]
    · simp [history_t.apply]

theorem history_t.Complete.submit (hacc : h.Account) (hcomplete : h.Complete) (kind params_json : String)
    (hkeeps : h.displaces (.submit kind params_json) = false) : (h.apply (.submit kind params_json)).Complete := by
  intro n kind' params' hsub
  have hlog : (h.apply (.submit kind params_json)).log = h.log := by simp [history_t.apply]
  have hsubs : (h.apply (.submit kind params_json)).submissions = h.submissions ++ [(kind, params_json)] := by
    simp [history_t.apply]
  rw [hlog]
  rw [hsubs] at hsub
  obtain ⟨added, hserial, _, _, _, hcases⟩ := submit_cases hacc kind params_json
  obtain hlt | hge := Nat.lt_or_ge n h.submissions.length
  · rw [List.getElem?_append_left hlt] at hsub
    obtain ⟨a, ha, hn⟩ | hsettled := hcomplete n kind' params' hsub
    · obtain ⟨_, hactions⟩ | ⟨oldest, rest, hold, hlen, hactions⟩ := hcases
      · left
        exact ⟨a, by simp [hactions, ha], hn⟩
      · rw [hold] at ha
        obtain rfl | ha := List.mem_cons.mp ha
        · right
          obtain ⟨hown, hpast⟩ := hacc.listed a (by simp [hold])
          rw [hn] at hown hpast
          rw [hown, Option.some.injEq, Prod.mk.injEq] at hsub
          obtain ⟨rfl, rfl⟩ := hsub
          rw [hpast]
          apply settled_of_past
          rw [hold] at hlen
          simpa [history_t.displaces, hold, hlen] using hkeeps
        · left
          exact ⟨a, by simp [hactions, ha], hn⟩
    · exact Or.inr hsettled
  · left
    have hlt := (List.getElem?_eq_some_iff.mp hsub).1
    rw [List.length_append, List.length_singleton] at hlt
    refine ⟨added, ?_, by omega⟩
    obtain ⟨_, hactions⟩ | ⟨oldest, rest, hold, hlen, hactions⟩ := hcases
    · simp [hactions]
    · simp [hactions]

/-- What a call does: it clears the store, submits, or advances the entries that are there. -/
theorem apply_cases (hacc : h.Account) (op : op_t ω) :
    op = .clear ∨ (∃ kind params_json, op = .submit kind params_json) ∨
      ∃ log, Advances h.manager.actions (h.apply op).manager.actions log ∧
        (h.apply op).submissions = h.submissions ∧ (h.apply op).log = h.log ++ log := by
  cases op with
  | clear => simp
  | submit kind params_json => simp
  | bind_executor kind fn =>
    have hactions : (h.manager.bind_executor kind fn).2.actions = h.manager.actions := by
      rw [deferred_manager_t.bind_executor]
      split <;> simp
    refine Or.inr (Or.inr ⟨[], ?_, by simp [history_t.apply], by simp [history_t.apply]⟩)
    rw [history_t.apply, hactions]
    exact Advances.refl h.manager.actions
  | execute_pending kind =>
    refine Or.inr (Or.inr ⟨_, execute_advances h.manager kind hacc.ordered h.world, ?_, ?_⟩)
    · simp [history_t.apply]
    · simp [history_t.apply, deferred_manager_t.execute_pending]
  | cancel id =>
    refine Or.inr (Or.inr ⟨_, cancel_advances id hacc.ordered, ?_, ?_⟩)
    · simp [history_t.apply]
    · simp [history_t.apply, deferred_manager_t.cancel]

/-- Every call keeps the account. -/
theorem history_t.Account.apply (hacc : h.Account) (op : op_t ω) : (h.apply op).Account := by
  obtain rfl | ⟨kind, params_json, rfl⟩ | ⟨log, hadvances, hsubs, hlog⟩ := apply_cases hacc op
  · exact hacc.clear
  · exact hacc.submit kind params_json
  · exact hacc.advance hadvances hsubs hlog

/-- Every call but a submission that displaces a pending entry leaves all submissions listed or settled. -/
theorem history_t.Complete.apply (hacc : h.Account) (hcomplete : h.Complete) (op : op_t ω)
    (hkeeps : h.displaces op = false) : (h.apply op).Complete := by
  obtain rfl | ⟨kind, params_json, rfl⟩ | ⟨log, hadvances, hsubs, hlog⟩ := apply_cases hacc op
  · exact hcomplete.clear hacc
  · exact hcomplete.submit hacc kind params_json hkeeps
  · exact hcomplete.advance hadvances hsubs hlog

theorem calls_listed (hacc : h.Account) (ha : a ∈ h.manager.actions) : h.calls a.serial = a.past.filter event_t.call := by
  rw [history_t.calls, (hacc.listed a ha).2]

theorem calls_past (a : deferred_action_t) : (a.past.filter event_t.call).length ≤ 1 := by
  cases hcase : a.status <;> simp [deferred_action_t.past, hcase, List.filter_cons, event_t.call]

/-- No call passes a submission to an executor for the second time. -/
theorem calls_apply (hacc : h.Account) (honce : (h.calls n).length ≤ 1) (op : op_t ω) :
    ((h.apply op).calls n).length ≤ 1 := by
  by_cases hlisted : ∃ a ∈ (h.apply op).manager.actions, a.serial = n
  · obtain ⟨a, ha, rfl⟩ := hlisted
    rw [calls_listed (hacc.apply op) ha]
    exact calls_past a
  · obtain rfl | ⟨kind, params_json, rfl⟩ | ⟨log, hadvances, hsubs, hlog⟩ := apply_cases hacc op
    · have hnone : (events (h.manager.actions.map fun a => (a.serial, event_t.cleared)) n).filter event_t.call = [] := by
        rw [List.filter_eq_nil_iff]
        intro e he
        rw [events_cleared h.manager.actions n e he]
        simp [event_t.call]
      rw [history_t.calls, history_t.apply, events_append, List.filter_append, hnone, List.append_nil]
      exact honce
    · simpa [history_t.calls, history_t.apply] using honce
    · have hbefore : ¬ ∃ a ∈ h.manager.actions, a.serial = n := fun hl => hlisted (hadvances.listed hl)
      rw [history_t.calls, hlog, events_append, hadvances.other hbefore, List.append_nil]
      exact honce

theorem start_account (w : ω) : ({ world := w } : history_t ω).Account := by
  refine ⟨?_, ?_, ?_, ?_⟩ <;> simp

theorem start_complete (w : ω) : ({ world := w } : history_t ω).Complete := by
  intro n kind params_json hsub
  simp at hsub

@[simp]
theorem run_append (h : history_t ω) (ops ops' : List (op_t ω)) : h.run (ops ++ ops') = (h.run ops).run ops' := by
  simp [history_t.run]

@[simp]
theorem run_cons (h : history_t ω) (op : op_t ω) (ops : List (op_t ω)) : h.run (op :: ops) = (h.apply op).run ops := by
  simp [history_t.run]

@[simp]
theorem run_nil (h : history_t ω) : h.run [] = h := by simp [history_t.run]

theorem history_t.Account.run (hacc : h.Account) (ops : List (op_t ω)) : (h.run ops).Account := by
  induction ops generalizing h with
  | nil => simpa using hacc
  | cons op ops ih =>
    rw [run_cons]
    exact ih (hacc.apply op)

theorem calls_run (hacc : h.Account) (honce : (h.calls n).length ≤ 1) (ops : List (op_t ω)) :
    ((h.run ops).calls n).length ≤ 1 := by
  induction ops generalizing h with
  | nil => simpa using honce
  | cons op ops ih =>
    rw [run_cons]
    exact ih (hacc.apply op) (calls_apply hacc honce op)

theorem history_t.Complete.run (hacc : h.Account) (hcomplete : h.Complete) (ops : List (op_t ω))
    (hkeeps : ∀ before op after, ops = before ++ op :: after → (h.run before).displaces op = false) :
    (h.run ops).Complete := by
  induction ops generalizing h with
  | nil => simpa using hcomplete
  | cons op ops ih =>
    rw [run_cons]
    apply ih (hacc.apply op) (hcomplete.apply hacc op ?_)
    · intro before next after hops
      rw [← run_cons]
      apply hkeeps (op :: before) next after
      rw [hops, List.cons_append]
    · simpa using hkeeps [] op ops (by simp)

theorem past_pending (hstatus : a.status = .pending) : a.past = [] := by simp [deferred_action_t.past, hstatus]

theorem status_of_calls {ok : Bool} (hcall : a.past.filter event_t.call = [.executed kind params_json ok]) :
    a.status = if ok then .done else .failed := by
  cases hcase : a.status <;> simp [deferred_action_t.past, hcase, List.filter_cons, event_t.call] at hcall
  · simp [← hcall.2.2]
  · simp [← hcall.2.2]

theorem status_of_ended (hcalls : a.past.filter event_t.call = [])
    (hended : .cancelled ∈ a.past ∨ .cleared ∈ a.past) : a.status = .cancelled := by
  cases hcase : a.status <;> simp [deferred_action_t.past, hcase, List.filter_cons, event_t.call] at hcalls hended ⊢

/-- A submission is accounted for if it is listed or settled. -/
theorem accounted_iff_listed_or_settled (hacc : h.Account) (hsub : h.submissions[n]? = some (kind, params_json)) :
    h.Accounted n kind params_json ↔
      (∃ a ∈ h.manager.actions, a.serial = n) ∨ Settled kind params_json (events h.log n) := by
  constructor
  · intro haccounted
    obtain ⟨⟨a, ha, hn, _⟩, _⟩ | ⟨ok, hcall, _⟩ | ⟨hended, hcalls, _⟩ := haccounted
    · exact Or.inl ⟨a, ha, hn⟩
    · exact Or.inr (Or.inl ⟨ok, hcall⟩)
    · exact Or.inr (Or.inr ⟨hcalls, hended⟩)
  · intro hlisted
    have hsettled : (∃ a ∈ h.manager.list, a.serial = n ∧ a.status = .pending) ∨
        Settled kind params_json (events h.log n) := by
      obtain ⟨a, ha, rfl⟩ | hsettled := hlisted
      · obtain ⟨hown, hpast⟩ := hacc.listed a ha
        rw [hown, Option.some.injEq, Prod.mk.injEq] at hsub
        obtain ⟨rfl, rfl⟩ := hsub
        by_cases hstatus : a.status = .pending
        · exact Or.inl ⟨a, ha, by simp, hstatus⟩
        · rw [hpast]
          exact Or.inr (settled_of_past a hstatus)
      · exact Or.inr hsettled
    obtain ⟨a, ha, rfl, hstatus⟩ | ⟨ok, hcall⟩ | ⟨hcalls, hended⟩ := hsettled
    · left
      refine ⟨⟨a, ha, by simp, hstatus⟩, ?_⟩
      rw [calls_listed hacc ha, past_pending hstatus, List.filter_nil]
    · right; left
      refine ⟨ok, hcall, ?_⟩
      intro a ha hn
      rw [← hn, (hacc.listed a ha).2] at hcall
      exact status_of_calls hcall
    · right; right
      refine ⟨hended, hcalls, ?_⟩
      intro a ha hn
      rw [← hn, (hacc.listed a ha).2] at hcalls hended
      exact status_of_ended hcalls hended

/-- The pending entry that a submission displaces is lost. -/
theorem displaced_lost (hacc : h.Account) {op : op_t ω} (hdisplaces : h.displaces op = true) :
    ∃ n kind params_json, (h.apply op).submissions[n]? = some (kind, params_json) ∧
      ¬ (h.apply op).Accounted n kind params_json := by
  cases op with
  | submit kind params_json =>
    rw [history_t.displaces, Bool.and_eq_true, decide_eq_true_eq] at hdisplaces
    obtain ⟨hlen, hhead⟩ := hdisplaces
    obtain ⟨added, hserial, _, _, _, ⟨hroom, _⟩ | ⟨oldest, rest, hold, _, hactions⟩⟩ :=
      submit_cases hacc kind params_json
    · omega
    · have hpending : oldest.status = .pending := by simpa [hold] using hhead
      obtain ⟨hsub, hpast⟩ := hacc.listed oldest (by simp [hold])
      have hbelow := (List.getElem?_eq_some_iff.mp hsub).1
      have hsub' : (h.apply (.submit kind params_json)).submissions[oldest.serial]? =
          some (oldest.kind, oldest.params_json) := by
        rw [history_t.apply, List.getElem?_append_left hbelow]
        exact hsub
      refine ⟨oldest.serial, oldest.kind, oldest.params_json, hsub', ?_⟩
      rw [accounted_iff_listed_or_settled (hacc.apply _) hsub', not_or]
      constructor
      · intro ⟨a, ha, hsame⟩
        have hordered := hacc.ordered
        rw [hold, List.pairwise_cons] at hordered
        rw [hactions] at ha
        obtain ha | ha := List.mem_append.mp ha
        · have hlt := hordered.1 a ha
          omega
        · rw [List.mem_singleton.mp ha] at hsame
          omega
      · have hlog : events (h.apply (.submit kind params_json)).log oldest.serial = [] := by
          rw [history_t.apply, hpast, past_pending hpending]
        rw [hlog]
        simp [Settled]
  | bind_executor kind fn => simp [history_t.displaces] at hdisplaces
  | execute_pending kind => simp [history_t.displaces] at hdisplaces
  | cancel id => simp [history_t.displaces] at hdisplaces
  | clear => simp [history_t.displaces] at hdisplaces

/-- In every run no submission is passed to an executor twice. At every moment of a run all submissions are
accounted for if and only if no submission of the run displaces a pending entry. -/
theorem deferred_actions (w : ω) (ops : List (op_t ω)) :
    (∀ n, ((({ world := w } : history_t ω).run ops).calls n).length ≤ 1) ∧
      ((∀ before after, ops = before ++ after → ∀ n kind params_json,
          (({ world := w } : history_t ω).run before).submissions[n]? = some (kind, params_json) →
            (({ world := w } : history_t ω).run before).Accounted n kind params_json) ↔
        ∀ before op after, ops = before ++ op :: after →
          (({ world := w } : history_t ω).run before).displaces op = false) := by
  refine ⟨?_, ?_, ?_⟩
  · intro n
    apply calls_run (start_account w)
    simp [history_t.calls]
  · intro hall before op after hops
    rw [← Bool.not_eq_true]
    intro hdisplaces
    obtain ⟨n, kind, params_json, hsub, hlost⟩ := displaced_lost ((start_account w).run before) hdisplaces
    have hmoment := hall (before ++ [op]) after (by simp [hops]) n kind params_json
    rw [run_append, run_cons, run_nil] at hmoment
    exact hlost (hmoment hsub)
  · intro hkeeps before after hops n kind params_json hsub
    rw [accounted_iff_listed_or_settled ((start_account w).run before) hsub]
    apply (start_complete w).run (start_account w) before ?_ n kind params_json hsub
    intro first op rest hbefore
    apply hkeeps first op (rest ++ after)
    rw [hops, hbefore, List.append_assoc, List.cons_append]

/-- As long as there is room, all submissions of a run of them are listed as pending. -/
theorem submits_listed (w : ω) (k : Nat) (hroom : k ≤ 256) :
    let h := ({ world := w } : history_t ω).run (List.replicate k (.submit "call" "{}"))
    h.manager.actions.length = k ∧ h.submissions = List.replicate k ("call", "{}") ∧
      ∀ a ∈ h.manager.actions, a.status = .pending := by
  induction k with
  | zero => simp
  | succ k ih =>
    obtain ⟨hlen, hsubs, hpending⟩ := ih (by omega)
    simp only [List.replicate_succ', run_append, run_cons, run_nil]
    obtain ⟨added, _, _, _, hadded, ⟨_, hactions⟩ | ⟨oldest, rest, hold, hfull, hactions⟩⟩ :=
      submit_cases ((start_account w).run (List.replicate k (.submit "call" "{}"))) "call" "{}"
    · refine ⟨by simp [hactions, hlen], by simp [history_t.apply, hsubs], ?_⟩
      intro a ha
      rw [hactions] at ha
      obtain ha | ha := List.mem_append.mp ha
      · exact hpending a ha
      · rw [List.mem_singleton.mp ha]
        exact hadded
    · omega

theorem displaces_of_full (hfull : h.manager.actions.length = 256)
    (hpending : ∀ a ∈ h.manager.actions, a.status = .pending) (kind params_json : String) :
    h.displaces (.submit kind params_json) = true := by
  have hpos : 0 < h.manager.actions.length := by omega
  obtain ⟨oldest, rest, hold⟩ := List.exists_cons_of_length_pos hpos
  have holdest := hpending oldest (by simp [hold])
  rw [history_t.displaces, hfull, hold]
  simp [holdest]

/-- With 256 actions pending, the next submission drops the first of them. -/
theorem first_of_many_lost :
    ¬ ∀ n kind params_json,
      (({ world := () } : history_t Unit).run (List.replicate 257 (.submit "call" "{}"))).submissions[n]? =
          some (kind, params_json) →
        (({ world := () } : history_t Unit).run (List.replicate 257 (.submit "call" "{}"))).Accounted n kind
          params_json := by
  obtain ⟨hlen, _, hpending⟩ := submits_listed () 256 (by omega)
  obtain ⟨n, kind, params_json, hsub, hlost⟩ := displaced_lost ((start_account ()).run _)
    (displaces_of_full hlen hpending "call" "{}")
  intro hall
  rw [show 257 = 256 + 1 by omega, List.replicate_succ', run_append, run_cons, run_nil] at hall
  exact hlost (hall n kind params_json hsub)

end

end slop.core.infra.deferred
