import ReverseSlop.Core.Disasm.HyperionSession

namespace slop.core.disasm.binary_state

open hyperion_session

/-- Where a call that holds `g_mu` stands: before the test of `ready`, before the write to the
database, before `queue_names`, or inside it. -/
inductive call_pc_t where
  | test | write | queue | queued
  deriving DecidableEq

/-- A call that gives names, to one address or to many. -/
structure call_t where
  names : names_t
  pc : call_pc_t

/-- The symbol table of the host, the session, and the call that holds `g_mu`. -/
structure host_t where
  symbols : name_table_t
  hype : pipeline_t := {}
  call : Option call_t := none

/-- `load_file` has started the analysis and is about to queue the symbols it has read. -/
def host_t.loaded (symbols : name_table_t) : host_t :=
  { symbols, hype := { worker := some .analyze }, call := some ⟨symbols.name, .queue⟩ }

inductive host_op_t where
  | set_symbol (va : UInt64) (name : String)
  | symbol_test
  | symbol_write
  | queue_names
  | queue_test
  | reanalyze (parsed : Bool)
  /-- A step of the worker thread. -/
  | worker (op : pipeline_op_t)

def of_worker : pipeline_op_t → Bool
  | .analyzed _ | .set_error | .apply | .publish | .indexed => true
  | .begin _ | .queue_names _ | .queue_test => false

def host_t.step (s : host_t) : host_op_t → Option host_t
  | .set_symbol va name =>
    if s.call.isNone then
      some { s with symbols := s.symbols.update (single va name), call := some ⟨single va name, .test⟩ }
    else none
  | .symbol_test =>
    s.call.bind fun c =>
      if c.pc = .test then some { s with call := some ⟨c.names, if s.hype.ready then .write else .queue⟩ } else none
  | .symbol_write =>
    s.call.bind fun c =>
      if c.pc = .write then some { s with hype := s.hype.rename c.names, call := none } else none
  | .queue_names =>
    s.call.bind fun c =>
      if c.pc = .queue then
        (s.hype.step (.queue_names c.names)).map fun hype => { s with hype, call := some ⟨c.names, .queued⟩ }
      else none
  | .queue_test =>
    s.call.bind fun c =>
      if c.pc = .queued then (s.hype.step .queue_test).map fun hype => { s with hype, call := none } else none
  | .reanalyze parsed =>
    if s.call.isNone then (s.hype.step (.begin parsed)).map fun hype => { s with hype } else none
  | .worker op => if of_worker op then (s.hype.step op).map fun hype => { s with hype } else none

/-- What the user has called an address, as the database has it. -/
def user_name (d : Option db_name_t) : Option String :=
  (d.filter fun d => d.origin = .user).map db_name_t.name

/-- No call is giving the address a name. -/
def host_t.Idle (s : host_t) (va : UInt64) : Prop := ∀ c ∈ s.call, c.names va = none

/-- When the worker applies the pending names, they are the symbols of the host, but for those
that a call is giving. No call of `queue_names` tests `ready_` between that and the worker's
store of `ready_`, unless the database agrees with the names it gives. -/
def Requeued (s : host_t) : host_op_t → Prop
  | .worker .apply => ∀ va, s.Idle va → s.hype.pending_names.name va = s.symbols.name va
  | .queue_test =>
    s.hype.worker = some .publish →
      ∀ names ∈ s.hype.queueing, ∀ va n, names va = some n → user_name (s.hype.names va) = given n
  | _ => True

/-- Once the pending names are applied, the names of the user in the database are the symbols of
the host, but for those that a call is giving. -/
structure Agree (s : host_t) : Prop where
  naming : ∀ c ∈ s.call, ∀ va n, c.names va = some n → s.symbols.name va = given n
  busy : ∀ pc ∈ s.hype.worker, pc ≠ .index → s.hype.ready = false
  writing : ∀ c ∈ s.call, c.pc = .write → ∀ pc ∈ s.hype.worker, pc = .index
  queueing : ∀ names ∈ s.hype.queueing, ∃ c ∈ s.call, c.pc = .queued ∧ c.names = names
  fresh : s.hype.worker = some .apply → ∀ va, user_name (s.hype.names va) = none
  agrees : (s.hype.ready = true ∨ s.hype.worker = some .publish) → ∀ va, s.Idle va →
    user_name (s.hype.names va) = s.symbols.name va

theorem user_name_by_user (name : Option String) : user_name (by_user name) = name := by
  cases name <;> rfl

theorem user_name_rename (s : pipeline_t) (names : names_t) (va : UInt64) :
    user_name ((s.rename names).names va) = (names va).elim (user_name (s.names va)) given := by
  cases hva : names va with
  | none => simp [pipeline_t.rename, hva]
  | some n => simp [pipeline_t.rename, hva, user_name_by_user]

theorem user_name_or {name : Option String} {d : Option db_name_t} (hd : user_name d = none) :
    user_name ((by_user name).or d) = name := by
  cases name with
  | none => exact hd
  | some n => rfl

theorem idle_of_none {s : host_t} (hcall : s.call = none) (va : UInt64) : s.Idle va := by
  intro c hc
  rw [hcall] at hc
  cases hc

theorem idle_of_call {s : host_t} {c : call_t} (hcall : s.call = some c) {va : UInt64} (hva : c.names va = none) :
    s.Idle va := by
  intro c' hc'
  rw [hcall] at hc'
  cases hc'
  exact hva

variable {s s' : host_t}

theorem idle_of_same {c : call_t} {pc : call_pc_t} (hcall : s.call = some c)
    (hcall' : s'.call = some ⟨c.names, pc⟩) {va : UInt64} (hidle : s'.Idle va) : s.Idle va :=
  idle_of_call hcall (hidle ⟨c.names, pc⟩ hcall')

/-- A call that is not inside `queue_names` holds no `pending_mu_`. -/
theorem Agree.not_queueing {s : host_t} {c : call_t} (h : Agree s) (hcall : s.call = some c)
    (hpc : c.pc ≠ .queued) : ∀ names ∈ s.hype.queueing, False := by
  intro names hnames
  obtain ⟨c', hc', hqueued, -⟩ := h.queueing names hnames
  rw [hcall] at hc'
  cases hc'
  exact hpc hqueued

theorem Agree.loaded (symbols : name_table_t) : Agree (host_t.loaded symbols) := by
  constructor
  · intro c hc va n hn
    cases hc
    have hname : symbols.name va = some n := hn
    rw [host_t.loaded, hname, eq_comm, given_eq_some]
    exact ⟨rfl, fun hempty => symbols.nonempty va (hempty ▸ hname)⟩
  · exact fun _ _ _ => rfl
  · intro c hc hpc
    cases hc
    cases hpc
  · nofun
  · nofun
  · rintro (hready | hworker)
    · cases hready
    · cases hworker

/-! The calls. -/

theorem Agree.set_symbol {va : UInt64} {name : String} (h : Agree s)
    (hstep : s.step (.set_symbol va name) = some s') : Agree s' := by
  obtain ⟨hfree, hs'⟩ := Option.ite_none_right_eq_some.mp hstep
  cases hs'
  have hnone : s.call = none := Option.isNone_iff_eq_none.mp hfree
  constructor
  · intro c hc va' n hn
    cases hc
    have hname : single va name va' = some n := hn
    rw [update_name, hname, Option.elim_some]
  · exact h.busy
  · intro c hc hpc
    cases hc
    cases hpc
  · intro names hnames
    obtain ⟨c, hc, -⟩ := h.queueing names hnames
    rw [hnone] at hc
    cases hc
  · exact h.fresh
  · intro happlied va' hidle
    have hother : single va name va' = none := hidle _ rfl
    rw [update_name, hother, Option.elim_none]
    exact h.agrees happlied va' (idle_of_none hnone va')

theorem Agree.symbol_test (h : Agree s) (hstep : s.step .symbol_test = some s') : Agree s' := by
  obtain ⟨c, hcall, hif⟩ := Option.bind_eq_some_iff.mp hstep
  obtain ⟨hpc, hs'⟩ := Option.ite_none_right_eq_some.mp hif
  cases hs'
  constructor
  · intro c' hc'
    cases hc'
    exact h.naming c hcall
  · exact h.busy
  · intro c' hc' hwrite pc hworker
    cases hc'
    refine Decidable.byContradiction fun hne => ?_
    have hready := h.busy pc hworker hne
    simp [hready] at hwrite
  · intro names hnames
    exact absurd hnames (h.not_queueing hcall (by rw [hpc]; nofun) names)
  · exact h.fresh
  · intro happlied va hidle
    exact h.agrees happlied va (idle_of_same hcall rfl hidle)

theorem Agree.symbol_write (h : Agree s) (hstep : s.step .symbol_write = some s') : Agree s' := by
  obtain ⟨c, hcall, hif⟩ := Option.bind_eq_some_iff.mp hstep
  obtain ⟨hpc, hs'⟩ := Option.ite_none_right_eq_some.mp hif
  cases hs'
  constructor
  · nofun
  · exact h.busy
  · nofun
  · intro names hnames
    exact absurd hnames (h.not_queueing hcall (by rw [hpc]; nofun) names)
  · intro hworker
    cases h.writing c hcall hpc .apply hworker
  · intro happlied va _
    rw [user_name_rename]
    cases hva : c.names va with
    | some n => exact (h.naming c hcall va n hva).symm
    | none => exact h.agrees happlied va (idle_of_call hcall hva)

theorem Agree.queue_names (h : Agree s) (hstep : s.step .queue_names = some s') : Agree s' := by
  obtain ⟨c, hcall, hif⟩ := Option.bind_eq_some_iff.mp hstep
  obtain ⟨-, hmap⟩ := Option.ite_none_right_eq_some.mp hif
  obtain ⟨hype, hqueue, rfl⟩ := Option.map_eq_some_iff.mp hmap
  obtain ⟨-, hhype⟩ := Option.ite_none_right_eq_some.mp hqueue
  cases hhype
  constructor
  · intro c' hc'
    cases hc'
    exact h.naming c hcall
  · exact h.busy
  · intro c' hc' hwrite
    cases hc'
    cases hwrite
  · intro names hnames
    cases hnames
    exact ⟨_, rfl, rfl, rfl⟩
  · exact h.fresh
  · intro happlied va hidle
    exact h.agrees happlied va (idle_of_same hcall rfl hidle)

/-- The names of the call are written now, or agree with the database, or are applied later. -/
theorem Agree.queue_test (h : Agree s) (hok : Requeued s .queue_test)
    (hstep : s.step .queue_test = some s') : Agree s' := by
  obtain ⟨c, hcall, hif⟩ := Option.bind_eq_some_iff.mp hstep
  obtain ⟨-, hmap⟩ := Option.ite_none_right_eq_some.mp hif
  obtain ⟨hype, htest, rfl⟩ := Option.map_eq_some_iff.mp hmap
  obtain ⟨names, hnames, rfl⟩ := Option.map_eq_some_iff.mp htest
  have hidle : ∀ va, names va = none → s.Idle va := by
    intro va hva c' hc'
    obtain ⟨c'', hc'', -, rfl⟩ := h.queueing names hnames
    rw [hc''] at hc'
    cases hc'
    exact hva
  have hgiven : ∀ va n, names va = some n → s.symbols.name va = given n := by
    intro va n hva
    obtain ⟨c'', hc'', -, rfl⟩ := h.queueing names hnames
    exact h.naming c'' hc'' va n hva
  cases hready : s.hype.ready with
  | true =>
    refine ⟨nofun, h.busy, nofun, nofun, fun hworker => ?_, fun _ va _ => ?_⟩
    · exact absurd (hready.symm.trans (h.busy .apply hworker nofun)) nofun
    · rw [if_pos rfl, user_name_rename]
      cases hva : names va with
      | some n => exact (hgiven va n hva).symm
      | none => exact h.agrees (Or.inl hready) va (hidle va hva)
  | false =>
    refine ⟨nofun, h.busy, nofun, nofun, h.fresh, ?_⟩
    rintro (hset | hworker) va _
    · exact absurd (hready.symm.trans hset) Bool.false_ne_true
    · cases hva : names va with
      | some n => exact (hok hworker names hnames va n hva).trans (hgiven va n hva).symm
      | none => exact h.agrees (Or.inr hworker) va (hidle va hva)

theorem Agree.reanalyze {parsed : Bool} (h : Agree s)
    (hstep : s.step (.reanalyze parsed) = some s') : Agree s' := by
  obtain ⟨hfree, hmap⟩ := Option.ite_none_right_eq_some.mp hstep
  obtain ⟨hype, hbegin, rfl⟩ := Option.map_eq_some_iff.mp hmap
  obtain ⟨-, hhype⟩ := Option.ite_none_right_eq_some.mp hbegin
  cases hhype
  have hnone : s.call = none := Option.isNone_iff_eq_none.mp hfree
  refine ⟨h.naming, fun _ _ _ => rfl, ?_, h.queueing, ?_, ?_⟩
  · intro c hc
    rw [hnone] at hc
    cases hc
  · intro hworker
    cases parsed <;> cases hworker
  · rintro (hready | hworker)
    · cases hready
    · cases parsed <;> cases hworker

/-! The worker. -/

theorem Agree.analyzed {s : host_t} {hype : pipeline_t} {generated : UInt64 → Option String} (h : Agree s)
    (hstep : s.hype.step (.analyzed generated) = some hype) : Agree { s with hype } := by
  obtain ⟨hworker, hhype⟩ := Option.ite_none_right_eq_some.mp hstep
  cases hhype
  have hready : s.hype.ready = false := h.busy .analyze hworker nofun
  refine ⟨h.naming, fun _ _ _ => hready, ?_, h.queueing, fun _ va => ?_, ?_⟩
  · intro c hc hpc
    cases h.writing c hc hpc .analyze hworker
  · cases hva : generated va <;> simp [user_name, hva]
  · rintro (hset | hpublish)
    · exact absurd (hready.symm.trans hset) Bool.false_ne_true
    · cases hpublish

theorem Agree.set_error {s : host_t} {hype : pipeline_t} (h : Agree s)
    (hstep : s.hype.step .set_error = some hype) : Agree { s with hype } := by
  obtain ⟨-, hhype⟩ := Option.ite_none_left_eq_some.mp hstep
  cases hhype
  refine ⟨h.naming, nofun, fun _ _ _ => nofun, h.queueing, nofun, ?_⟩
  rintro (hready | hworker)
  · cases hready
  · cases hworker

theorem Agree.apply {s : host_t} {hype : pipeline_t} (h : Agree s) (hok : Requeued s (.worker .apply))
    (hstep : s.hype.step .apply = some hype) : Agree { s with hype } := by
  obtain ⟨⟨hworker, -⟩, hhype⟩ := Option.ite_none_right_eq_some.mp hstep
  cases hhype
  have hready : s.hype.ready = false := h.busy .apply hworker nofun
  refine ⟨h.naming, fun _ _ _ => hready, ?_, h.queueing, nofun, fun _ va hidle => ?_⟩
  · intro c hc hpc
    cases h.writing c hc hpc .apply hworker
  · exact (user_name_or (h.fresh hworker va)).trans (hok va hidle)

theorem Agree.publish {s : host_t} {hype : pipeline_t} (h : Agree s)
    (hstep : s.hype.step .publish = some hype) : Agree { s with hype } := by
  obtain ⟨hworker, hhype⟩ := Option.ite_none_right_eq_some.mp hstep
  cases hhype
  refine ⟨h.naming, ?_, ?_, h.queueing, nofun, fun _ => h.agrees (Or.inr hworker)⟩
  · intro pc hpc hne
    exact absurd (Option.some.inj hpc).symm hne
  · intro _ _ _ pc hpc
    exact (Option.some.inj hpc).symm

theorem Agree.indexed {s : host_t} {hype : pipeline_t} (h : Agree s)
    (hstep : s.hype.step .indexed = some hype) : Agree { s with hype } := by
  obtain ⟨-, hhype⟩ := Option.ite_none_right_eq_some.mp hstep
  cases hhype
  refine ⟨h.naming, nofun, fun _ _ _ => nofun, h.queueing, nofun, ?_⟩
  rintro (hready | hworker)
  · exact h.agrees (Or.inl hready)
  · cases hworker

theorem Agree.worker {op : pipeline_op_t} (h : Agree s) (hok : Requeued s (.worker op))
    (hstep : s.step (.worker op) = some s') : Agree s' := by
  obtain ⟨hworker, hmap⟩ := Option.ite_none_right_eq_some.mp hstep
  obtain ⟨hype, hop, rfl⟩ := Option.map_eq_some_iff.mp hmap
  cases op with
  | analyzed generated => exact h.analyzed hop
  | set_error => exact h.set_error hop
  | apply => exact h.apply hok hop
  | publish => exact h.publish hop
  | indexed => exact h.indexed hop
  | begin parsed => cases hworker
  | queue_names names => cases hworker
  | queue_test => cases hworker

theorem Agree.step {op : host_op_t} (h : Agree s) (hok : Requeued s op)
    (hstep : s.step op = some s') : Agree s' := by
  cases op with
  | set_symbol va name => exact h.set_symbol hstep
  | symbol_test => exact h.symbol_test hstep
  | symbol_write => exact h.symbol_write hstep
  | queue_names => exact h.queue_names hstep
  | queue_test => exact h.queue_test hok hstep
  | reanalyze parsed => exact h.reanalyze hstep
  | worker op => exact h.worker hok hstep

/-- The session is ready and nothing is being named: the database has the symbols of the host,
and no other name of the user. -/
def host_t.Agreement (s : host_t) : Prop :=
  s.hype.ready = true → s.call = none → ∀ va,
    (∀ n, s.symbols.name va = some n → (s.hype.names va).map db_name_t.name = some n) ∧
      (s.symbols.name va = none → ∀ d ∈ s.hype.names va, d.origin ≠ .user)

theorem Agree.agreement {s : host_t} (h : Agree s) : s.Agreement := by
  intro hready hcall va
  have hagrees := h.agrees (Or.inl hready) va (idle_of_none hcall va)
  constructor
  · intro n hn
    rw [hn, user_name, Option.map_eq_some_iff] at hagrees
    obtain ⟨d, hd, hname⟩ := hagrees
    rw [(Option.filter_eq_some_iff.mp hd).1, Option.map_some, hname]
  · intro hnone d hd horigin
    rw [Option.mem_def] at hd
    rw [hnone, user_name, hd] at hagrees
    simp [horigin] at hagrees

/-- As long as the names that the worker applies are the symbols of the host, and no call falls
between that and its store of `ready_`, a ready session and the host agree on all names. -/
theorem renames_agree {symbols : name_table_t} {s : host_t}
    (hreach : Relation.ReflTransGen (Transition.Step Requeued host_t.step) (host_t.loaded symbols) s) : s.Agreement := by
  have hagree : Agree s :=
    Transition.invariant (Agree.loaded symbols) (fun _ _ _ h hok hstep => h.step hok hstep) hreach
  exact hagree.agreement

/-- A symbol that is set while the analysis runs survives it and a second analysis. -/
theorem early_rename_survives_reanalyze :
    ∃ s : host_t, Relation.ReflTransGen (Transition.Step Requeued host_t.step) (host_t.loaded {}) s ∧
      s.hype.ready = true ∧ s.symbols.name 0x401000 = some "main" ∧ s.Agreement := by
  have hreach : Relation.ReflTransGen (Transition.Step Requeued host_t.step) (host_t.loaded {}) _ :=
    .head ⟨.queue_names, trivial, rfl⟩ <| .head ⟨.queue_test, nofun, rfl⟩ <|
      .head ⟨.set_symbol 0x401000 "main", trivial, rfl⟩ <| .head ⟨.symbol_test, trivial, rfl⟩ <|
      .head ⟨.queue_names, trivial, rfl⟩ <| .head ⟨.queue_test, nofun, rfl⟩ <|
      .head ⟨.worker (.analyzed fun _ => none), trivial, rfl⟩ <| .head ⟨.worker .apply, fun _ _ => rfl, rfl⟩ <|
      .head ⟨.worker .publish, trivial, rfl⟩ <| .head ⟨.worker .indexed, trivial, rfl⟩ <|
      .head ⟨.reanalyze true, trivial, rfl⟩ <| .head ⟨.worker (.analyzed fun _ => none), trivial, rfl⟩ <|
      .head ⟨.worker .apply, fun _ _ => rfl, rfl⟩ <| .head ⟨.worker .publish, trivial, rfl⟩ .refl
  exact ⟨_, hreach, rfl, rfl, renames_agree hreach⟩

/-- A symbol that is set while the session is ready is lost by the next analysis. -/
theorem late_rename_is_lost :
    ¬ ∀ (symbols : name_table_t) (s : host_t),
      Relation.ReflTransGen (Transition.Step (fun _ _ => True) host_t.step) (host_t.loaded symbols) s → s.Agreement := by
  have hreach : Relation.ReflTransGen (Transition.Step (fun (_ : host_t) _ => True) host_t.step) (host_t.loaded {}) _ :=
    .head ⟨.queue_names, trivial, rfl⟩ <| .head ⟨.queue_test, trivial, rfl⟩ <|
      .head ⟨.worker (.analyzed fun _ => none), trivial, rfl⟩ <| .head ⟨.worker .apply, trivial, rfl⟩ <|
      .head ⟨.worker .publish, trivial, rfl⟩ <| .head ⟨.worker .indexed, trivial, rfl⟩ <|
      .head ⟨.set_symbol 0x401000 "main", trivial, rfl⟩ <| .head ⟨.symbol_test, trivial, rfl⟩ <|
      .head ⟨.symbol_write, trivial, rfl⟩ <| .head ⟨.reanalyze true, trivial, rfl⟩ <|
      .head ⟨.worker (.analyzed fun _ => none), trivial, rfl⟩ <| .head ⟨.worker .apply, trivial, rfl⟩ <|
      .head ⟨.worker .publish, trivial, rfl⟩ .refl
  intro hlaw
  have hname := (hlaw {} _ hreach rfl rfl 0x401000).1 "main" rfl
  cases hname

end slop.core.disasm.binary_state
