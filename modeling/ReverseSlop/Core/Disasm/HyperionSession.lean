import ReverseSlop.Core.Disasm.BinaryState
import ReverseSlop.Library.Transition

namespace slop.core.disasm.hyperion_session

/-- Names for some addresses; the empty name clears an address. -/
abbrev names_t := UInt64 → Option String

/-- A name for one address. -/
def single (va : UInt64) (name : String) : names_t := fun va' => if va' = va then some name else none

/-- What an address is called after a name was given to it. -/
def given (name : String) : Option String := if name = "" then none else some name

/-- A table that holds no empty name. -/
structure name_table_t where
  name : UInt64 → Option String := fun _ => none
  nonempty : ∀ va, name va ≠ some "" := by nofun

/-- Give some addresses new names, or none. -/
def name_table_t.update (t : name_table_t) (names : names_t) : name_table_t where
  name va := (names va).elim (t.name va) given
  nonempty va := by
    cases hva : names va with
    | none => exact t.nonempty va
    | some n =>
      rw [Option.elim_some, given]
      split
      · nofun
      · simpa using ‹¬ n = ""›

/-- Who a name in the database of the analysis comes from. -/
inductive origin_t where
  | analysis | user
  deriving DecidableEq

/-- A name in the database; its origin is not in the program. -/
structure db_name_t where
  name : String
  origin : origin_t
  deriving DecidableEq

/-- Where the worker stands in `run_pipeline`. -/
inductive pc_t where
  | analyze | apply | publish | index
  deriving DecidableEq

/-- The session as far as names go: the database, the names still to be applied, and the
call of `queue_names` that holds `pending_mu_`. `queued`, the names of all calls, is not in
the program. -/
structure pipeline_t where
  names : UInt64 → Option db_name_t := fun _ => none
  pending_names : name_table_t := {}
  ready : Bool := false
  worker : Option pc_t := none
  queueing : Option names_t := none
  queued : List names_t := []

/-- What a user calls an address, as an entry of the database. -/
def by_user (name : Option String) : Option db_name_t := name.map fun n => ⟨n, .user⟩

/-- Write names of the user to the database, erasing those that are empty. -/
def pipeline_t.rename (s : pipeline_t) (names : names_t) : pipeline_t :=
  { s with names := fun va => (names va).elim (s.names va) fun n => by_user (given n) }

inductive pipeline_op_t where
  /-- `begin`, for `start` or `reanalyze`, once the worker is joined. -/
  | begin (parsed : Bool)
  /-- The analysis ends with names of its own. -/
  | analyzed (generated : UInt64 → Option String)
  /-- The analysis is cancelled, or a step throws. -/
  | set_error
  | apply
  | publish
  | indexed
  /-- `queue_names` up to its test of `ready_`, then the rest. -/
  | queue_names (names : names_t)
  | queue_test

def pipeline_t.step (s : pipeline_t) : pipeline_op_t → Option pipeline_t
  | .begin parsed =>
    if s.worker = none then
      some
        { s with
          ready := false
          names := if parsed then fun _ => none else s.names
          worker := if parsed then some .analyze else none }
    else none
  | .analyzed generated =>
    if s.worker = some .analyze then
      some { s with names := fun va => (generated va).map fun n => ⟨n, .analysis⟩, worker := some .apply }
    else none
  | .set_error =>
    if s.worker = none ∨ s.worker = some .publish then none else some { s with ready := false, worker := none }
  | .apply =>
    if s.worker = some .apply ∧ s.queueing.isNone then
      some
        { s with
          names := fun va => (by_user (s.pending_names.name va)).or (s.names va)
          worker := some .publish }
    else none
  | .publish => if s.worker = some .publish then some { s with ready := true, worker := some .index } else none
  | .indexed => if s.worker = some .index then some { s with worker := none } else none
  | .queue_names names =>
    if s.queueing.isNone then
      some
        { s with
          pending_names := s.pending_names.update names
          queueing := some names
          queued := s.queued ++ [names] }
    else none
  | .queue_test =>
    s.queueing.map fun names => { (if s.ready then s.rename names else s) with queueing := none }

/-- The session as the patch operations see it. -/
def pipeline_t.session (s : pipeline_t) : session_t := { running := s.worker.isSome }

/-- The name that was queued last for an address. -/
def last_queued (queued : List names_t) (va : UInt64) : Option String := queued.reverse.findSome? fun names => names va

/-- No call of `queue_names` tests `ready_` between the worker's last look at the pending names
and its store of `ready_`, unless the names it gives are in the database. -/
def HandsOver (s : pipeline_t) : pipeline_op_t → Prop
  | .queue_test =>
    s.worker = some .publish →
      ∀ names ∈ s.queueing, ∀ va n, names va = some n → n ≠ "" → (s.names va).map db_name_t.name = some n
  | _ => True

/-- The database holds the pending names, but for those of a call that is still to write
them there. -/
structure HandedOver (s : pipeline_t) : Prop where
  busy : ∀ pc ∈ s.worker, pc ≠ .index → s.ready = false
  queueing : ∀ names ∈ s.queueing, ∀ va n, names va = some n → s.pending_names.name va = given n
  pending : ∀ va, s.pending_names.name va = (last_queued s.queued va).bind given
  applied : (s.ready = true ∨ s.worker = some .publish) → ∀ va n, s.pending_names.name va = some n →
    (s.names va).map db_name_t.name = some n ∨ ∃ names ∈ s.queueing, names va ≠ none

theorem given_eq_some {name n : String} : given name = some n ↔ name = n ∧ n ≠ "" := by
  rw [given]
  split
  · rename_i hempty
    refine iff_of_false nofun ?_
    rintro ⟨hname, hne⟩
    exact hne (hname.symm.trans hempty)
  · rename_i hne
    rw [Option.some.injEq]
    refine ⟨fun h => ⟨h, h ▸ hne⟩, And.left⟩

theorem last_queued_append (queued : List names_t) (names : names_t) (va : UInt64) :
    last_queued (queued ++ [names]) va = (names va).or (last_queued queued va) := by
  rw [last_queued, List.reverse_append, List.reverse_singleton, List.singleton_append, List.findSome?_cons]
  cases names va <;> rfl

theorem HandedOver.init : HandedOver {} :=
  ⟨nofun, nofun, fun _ => rfl, fun _ va n hn => by cases hn⟩

variable {s s' : pipeline_t}

theorem HandedOver.begin {parsed : Bool} (h : HandedOver s)
    (hstep : s.step (.begin parsed) = some s') : HandedOver s' := by
  obtain ⟨-, hs'⟩ := Option.ite_none_right_eq_some.mp hstep
  cases hs'
  refine ⟨fun _ _ _ => rfl, h.queueing, h.pending, ?_⟩
  rintro (hready | hworker)
  · cases hready
  · cases parsed <;> cases hworker

theorem HandedOver.analyzed {generated : UInt64 → Option String} (h : HandedOver s)
    (hstep : s.step (.analyzed generated) = some s') : HandedOver s' := by
  obtain ⟨hworker, hs'⟩ := Option.ite_none_right_eq_some.mp hstep
  cases hs'
  have hready : s.ready = false := h.busy .analyze hworker nofun
  refine ⟨fun _ _ _ => hready, h.queueing, h.pending, ?_⟩
  rintro (hset | hpublish)
  · exact absurd (hready.symm.trans hset) Bool.false_ne_true
  · cases hpublish

theorem HandedOver.set_error (h : HandedOver s) (hstep : s.step .set_error = some s') :
    HandedOver s' := by
  obtain ⟨-, hs'⟩ := Option.ite_none_left_eq_some.mp hstep
  cases hs'
  refine ⟨nofun, h.queueing, h.pending, ?_⟩
  rintro (hready | hworker)
  · cases hready
  · cases hworker

theorem HandedOver.apply (h : HandedOver s) (hstep : s.step .apply = some s') : HandedOver s' := by
  obtain ⟨⟨hworker, -⟩, hs'⟩ := Option.ite_none_right_eq_some.mp hstep
  cases hs'
  have hready : s.ready = false := h.busy .apply hworker nofun
  refine ⟨fun _ _ _ => hready, h.queueing, h.pending, fun _ va n hn => Or.inl ?_⟩
  have hpending : s.pending_names.name va = some n := hn
  simp [by_user, hpending]

theorem HandedOver.publish (h : HandedOver s) (hstep : s.step .publish = some s') :
    HandedOver s' := by
  obtain ⟨hworker, hs'⟩ := Option.ite_none_right_eq_some.mp hstep
  cases hs'
  refine ⟨?_, h.queueing, h.pending, fun _ => h.applied (Or.inr hworker)⟩
  intro pc hpc hne
  exact absurd (Option.some.inj hpc).symm hne

theorem HandedOver.indexed (h : HandedOver s) (hstep : s.step .indexed = some s') :
    HandedOver s' := by
  obtain ⟨-, hs'⟩ := Option.ite_none_right_eq_some.mp hstep
  cases hs'
  refine ⟨nofun, h.queueing, h.pending, ?_⟩
  rintro (hready | hworker)
  · exact h.applied (Or.inl hready)
  · cases hworker

theorem update_name (t : name_table_t) (names : names_t) (va : UInt64) :
    (t.update names).name va = (names va).elim (t.name va) given := rfl

theorem HandedOver.queue_names {names : names_t} (h : HandedOver s)
    (hstep : s.step (.queue_names names) = some s') : HandedOver s' := by
  obtain ⟨hfree, hs'⟩ := Option.ite_none_right_eq_some.mp hstep
  cases hs'
  have hnone : s.queueing = none := Option.isNone_iff_eq_none.mp hfree
  constructor
  · exact h.busy
  · intro names' hnames va n hn
    cases hnames
    rw [update_name, hn, Option.elim_some]
  · intro va
    rw [update_name, last_queued_append, h.pending va]
    cases names va <;> rfl
  · intro happlied va n hn
    rw [update_name] at hn
    cases hva : names va with
    | some name => exact Or.inr ⟨names, rfl, by rw [hva]; nofun⟩
    | none =>
      rw [hva, Option.elim_none] at hn
      obtain hdb | ⟨names', hnames', -⟩ := h.applied happlied va n hn
      · exact Or.inl hdb
      · rw [hnone] at hnames'
        cases hnames'

/-- The rest of a call writes its names, if the session is ready; if it is not, they are in the
database or the worker is still to apply them. -/
theorem HandedOver.queue_test (h : HandedOver s) (hok : HandsOver s .queue_test)
    (hstep : s.step .queue_test = some s') : HandedOver s' := by
  obtain ⟨names, hnames, rfl⟩ := Option.map_eq_some_iff.mp hstep
  have hqueueing := h.queueing names hnames
  cases hready : s.ready with
  | true =>
    refine ⟨fun pc hpc hne => ?_, nofun, h.pending, fun _ va n hn => Or.inl ?_⟩
    · exact absurd (hready.symm.trans (h.busy pc hpc hne)) nofun
    · cases hva : names va with
      | some name =>
        have hgiven : given name = some n := (hqueueing va name hva).symm.trans hn
        simp [pipeline_t.rename, hva, hgiven, by_user]
      | none =>
        obtain hdb | ⟨names', hnames', hne⟩ := h.applied (Or.inl hready) va n hn
        · simpa [pipeline_t.rename, hva] using hdb
        · rw [hnames] at hnames'
          cases hnames'
          exact absurd hva hne
  | false =>
    refine ⟨fun _ _ _ => hready, nofun, h.pending, ?_⟩
    rintro (hset | hworker) va n hn
    · exact absurd (hready.symm.trans hset) Bool.false_ne_true
    · refine Or.inl ?_
      obtain hdb | ⟨names', hnames', hne⟩ := h.applied (Or.inr hworker) va n hn
      · exact hdb
      · rw [hnames] at hnames'
        cases hnames'
        obtain ⟨name, hname⟩ := Option.ne_none_iff_exists'.mp hne
        have hgiven : given name = some n := (hqueueing va name hname).symm.trans hn
        obtain ⟨rfl, hne'⟩ := given_eq_some.mp hgiven
        exact hok hworker names hnames va name hname hne'

theorem HandedOver.step {op : pipeline_op_t} (h : HandedOver s) (hok : HandsOver s op)
    (hstep : s.step op = some s') : HandedOver s' := by
  cases op with
  | begin parsed => exact h.begin hstep
  | analyzed generated => exact h.analyzed hstep
  | set_error => exact h.set_error hstep
  | apply => exact h.apply hstep
  | publish => exact h.publish hstep
  | indexed => exact h.indexed hstep
  | queue_names names => exact h.queue_names hstep
  | queue_test => exact h.queue_test hok hstep

/-- As long as no call falls between the worker's last look at the pending names and its store
of `ready_`, the database of a ready session has every name that was queued. -/
theorem queued_names_applied {s : pipeline_t}
    (hreach : Relation.ReflTransGen (Transition.Step HandsOver pipeline_t.step) {} s) (hready : s.ready = true)
    (hqueueing : s.queueing = none) {va : UInt64} {name : String} (hlast : last_queued s.queued va = some name)
    (hname : name ≠ "") : (s.names va).map db_name_t.name = some name := by
  have hover : HandedOver s :=
    Transition.invariant HandedOver.init (fun _ _ _ h hok hstep => h.step hok hstep) hreach
  have hpending : s.pending_names.name va = some name := by
    rw [hover.pending va, hlast, Option.bind_some, given_eq_some]
    exact ⟨rfl, hname⟩
  obtain hdb | ⟨names, hnames, -⟩ := hover.applied (Or.inl hready) va name hpending
  · exact hdb
  · rw [hqueueing] at hnames
    cases hnames

/-- A name is queued while the analysis runs. -/
theorem name_queued_early_is_applied :
    ∃ s : pipeline_t, Relation.ReflTransGen (Transition.Step HandsOver pipeline_t.step) {} s ∧ s.ready = true ∧
      (s.names 0x401000).map db_name_t.name = some "main" := by
  have hreach : Relation.ReflTransGen (Transition.Step HandsOver pipeline_t.step) {} _ :=
    .head ⟨.begin true, trivial, rfl⟩ <| .head ⟨.queue_names (single 0x401000 "main"), trivial, rfl⟩ <|
      .head ⟨.queue_test, nofun, rfl⟩ <| .head ⟨.analyzed fun _ => none, trivial, rfl⟩ <|
      .head ⟨.apply, trivial, rfl⟩ <| .head ⟨.publish, trivial, rfl⟩ .refl
  exact ⟨_, hreach, rfl, queued_names_applied hreach rfl rfl rfl (by decide)⟩

/-- A name is queued after the worker has applied the pending names and before the session is
ready: it never reaches the database. -/
theorem name_queued_late_is_lost :
    ¬ ∀ s : pipeline_t, Relation.ReflTransGen (Transition.Step (fun _ _ => True) pipeline_t.step) {} s →
      s.ready = true → s.queueing = none → ∀ va name, last_queued s.queued va = some name → name ≠ "" →
        (s.names va).map db_name_t.name = some name := by
  have hreach : Relation.ReflTransGen (Transition.Step (fun (_ : pipeline_t) _ => True) pipeline_t.step) {} _ :=
    .head ⟨.begin true, trivial, rfl⟩ <| .head ⟨.analyzed fun _ => none, trivial, rfl⟩ <|
      .head ⟨.apply, trivial, rfl⟩ <| .head ⟨.queue_names (single 0x401000 "main"), trivial, rfl⟩ <|
      .head ⟨.queue_test, trivial, rfl⟩ <| .head ⟨.publish, trivial, rfl⟩ <| .head ⟨.indexed, trivial, rfl⟩ .refl
  intro hlaw
  have hname := hlaw _ hreach rfl rfl 0x401000 "main" rfl (by decide)
  cases hname

end slop.core.disasm.hyperion_session
