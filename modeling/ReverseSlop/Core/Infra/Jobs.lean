import ReverseSlop.Core.Infra.Limits
import ReverseSlop.Library.Keyed
import ReverseSlop.Library.Transition
import Mathlib.Logic.Function.Iterate

namespace slop.core.infra.jobs

inductive job_state_t where
  | queued | running | succeeded | cancelled | failed
  deriving DecidableEq

/-- What is published of a job. The progress is the bits of a float, at first those of -1. -/
structure job_snapshot_t where
  id : Nat
  label : String
  owner : String
  stage : String := ""
  error : String := ""
  progress : UInt32 := 0xBF800000
  state : job_state_t := .queued
  cancellable : Bool
  started_ms : Int := 0
  finished_ms : Int := 0

/-- Where the thread of a job stands: before its first lock section, in the body, behind its
last lock section, or gone. -/
inductive pc_t where
  | start | body | left | exited
  deriving DecidableEq

structure job_t extends job_snapshot_t where
  /-- A cancel was requested. -/
  requested : Bool := false
  pc : pc_t := .start
  joined : Bool := false

/-- A pass of `reap`, which holds `g_mu`: the jobs still to be visited, and whether it joins the
first of them, whose mutex it then holds too. -/
structure reap_t where
  rest : List Nat
  joining : Bool := false
  changed : Bool := false

structure jobs_t where
  g_jobs : List job_t := []
  next_id : Nat := 1
  published : List job_snapshot_t := []
  reaping : Option reap_t := none

def job_t.live (j : job_t) : Bool := j.state = .queued || j.state = .running

/-- Change the job with an id. -/
def update (jobs : List job_t) (id : Nat) (f : job_t → job_t) : List job_t :=
  jobs.map fun j => if j.id = id then f j else j

def jobs_t.rebuild_snapshot (s : jobs_t) : jobs_t := { s with published := s.g_jobs.map job_t.tojob_snapshot_t }

/-- Append a job unless too many are live; the id 0 is a rejection. -/
def submit (s : jobs_t) (label owner : String) (cancellable : Bool) : Nat × jobs_t :=
  if s.g_jobs.countP job_t.live ≥ limits.max_live_jobs then (0, s)
  else
    let job : job_t := { id := s.next_id, label, owner, cancellable }
    (s.next_id, { s with g_jobs := s.g_jobs ++ [job], next_id := s.next_id + 1 }.rebuild_snapshot)

def cancel (s : jobs_t) (id : Nat) : Bool × jobs_t :=
  if s.g_jobs.any fun j => j.id = id && j.cancellable then
    (true, { s with g_jobs := update s.g_jobs id fun j => { j with requested := j.requested || j.cancellable } })
  else (false, s)

/-- The job that `reap` is joining. -/
def jobs_t.joining (s : jobs_t) : Option Nat := s.reaping.bind fun r => if r.joining then r.rest.head? else none

/-- The job that `reap` visits next. -/
def jobs_t.visiting (s : jobs_t) : Option Nat := s.reaping.bind fun r => if r.joining then none else r.rest.head?

/-- The job has finished by its state and was not joined yet. -/
def job_t.finished (j : job_t) : Bool := !j.joined && !j.live

/-- Keep the last 32 finished jobs: as often as there are more jobs, drop the first that was
joined. -/
def trim (jobs : List job_t) : List job_t := (List.eraseP job_t.joined)^[jobs.length - 32] jobs

/-- The end of a pass. -/
def jobs_t.reap_end (s : jobs_t) (changed : Bool) : jobs_t :=
  let jobs := trim s.g_jobs
  let s' := { s with g_jobs := jobs, reaping := none }
  if changed || jobs.length < s.g_jobs.length then s'.rebuild_snapshot else s'

/-- A thread that stands at `pc` changes its job; with its own mutex if `locked`. -/
def jobs_t.thread (s : jobs_t) (id : Nat) (pc : pc_t) (locked : Bool) (f : job_t → job_t) : Option jobs_t :=
  if (locked = true → s.joining ≠ some id) ∧ (s.g_jobs.any fun j => j.id = id && j.pc = pc) = true then
    some { s with g_jobs := update s.g_jobs id f }
  else none

inductive op_t where
  | submit (label owner : String) (cancellable : Bool)
  | cancel (id : Nat)
  /-- A call of `alive`, which only reads. -/
  | alive (id : Nat)
  | reap_begin
  | reap_visit
  | reap_join
  | reap_end
  | start (id : Nat) (now : Int)
  | set_stage (id : Nat) (stage : String)
  | set_progress (id : Nat) (progress : UInt32)
  | fail (id : Nat) (message : String)
  /-- The body returns, and the thread takes its mutex for the last time. -/
  | finish (id : Nat) (now : Int)
  | exit (id : Nat)

/-- The last lock section of a thread. -/
def job_t.finish (now : Int) (j : job_t) : job_t :=
  let state := if j.state = .running then (if j.requested then .cancelled else .succeeded) else j.state
  { j with state, finished_ms := now, pc := .left }

/-- One lock section of a thread or of a call; a pass of `reap` locks the mutex of one job
after the other. -/
def jobs_t.step (s : jobs_t) : op_t → Option jobs_t
  | .submit label owner cancellable => if s.reaping.isNone then some (submit s label owner cancellable).2 else none
  | .cancel id => if s.reaping.isNone then some (cancel s id).2 else none
  | .alive _ => if s.reaping.isNone then some s else none
  | .reap_begin => if s.reaping.isNone then some { s with reaping := some ⟨s.g_jobs.map (·.id), false, false⟩ } else none
  | .reap_visit =>
    s.reaping.bind fun r => s.visiting.map fun id =>
      if s.g_jobs.any fun j => j.id = id && j.finished then { s with reaping := some { r with joining := true } }
      else { s with reaping := some { r with rest := r.rest.tail } }
  | .reap_join =>
    s.reaping.bind fun r => s.joining.bind fun id =>
      if s.g_jobs.any fun j => j.id = id && j.pc = .exited then
        some
          { s with
            g_jobs := update s.g_jobs id fun j => { j with joined := true }
            reaping := some ⟨r.rest.tail, false, true⟩ }
      else none
  | .reap_end => s.reaping.bind fun r => if r.rest = [] then some (s.reap_end r.changed) else none
  | .start id now => s.thread id .start true fun j => { j with state := .running, started_ms := now, pc := .body }
  | .set_stage id stage => s.thread id .body true fun j => { j with stage }
  | .set_progress id progress => s.thread id .body false fun j => { j with progress }
  | .fail id message => s.thread id .body true fun j => { j with error := message, state := .failed }
  | .finish id now => s.thread id .body true (job_t.finish now)
  | .exit id => s.thread id .left false fun j => { j with pc := .exited }

/-- The thread needs no mutex any more. -/
def job_t.Left (j : job_t) : Prop := j.pc = .left ∨ j.pc = .exited

instance (j : job_t) : Decidable j.Left := inferInstanceAs (Decidable (_ ∨ _))

/-- No pass of `reap` visits a job that has called `fail` before its thread has left its last
lock section. -/
def Waits (s : jobs_t) : op_t → Prop
  | .reap_visit => ∀ j ∈ s.g_jobs, s.visiting = some j.id → j.state = .failed → j.Left
  | _ => True

instance (s : jobs_t) : ∀ op, Decidable (Waits s op)
  | .reap_visit => inferInstanceAs (Decidable (∀ j ∈ s.g_jobs, _))
  | .submit _ _ _ | .cancel _ | .alive _ | .reap_begin | .reap_join | .reap_end | .start _ _ | .set_stage _ _
  | .set_progress _ _ | .fail _ _ | .finish _ _ | .exit _ => instDecidableTrue

/-- The jobs have ids of their own, those that have ended by themselves have left their last
lock section, and so has the one that `reap` joins. -/
structure Sound (s : jobs_t) : Prop where
  distinct : Keyed.Distinct (fun j : job_t => j.id) s.g_jobs
  fresh : ∀ j ∈ s.g_jobs, j.id < s.next_id
  ended : ∀ j ∈ s.g_jobs, j.live = false → j.state ≠ .failed → j.Left
  visited : ∀ r ∈ s.reaping, ∀ id ∈ r.rest, ∃ j ∈ s.g_jobs, j.id = id
  joining : ∀ j ∈ s.g_jobs, s.joining = some j.id → j.Left

theorem mem_update {jobs : List job_t} {id : Nat} {f : job_t → job_t} {j : job_t} (hj : j ∈ update jobs id f) :
    j ∈ jobs ∨ ∃ j' ∈ jobs, j'.id = id ∧ j = f j' := by
  obtain ⟨j', hj', rfl⟩ := List.mem_map.mp hj
  by_cases hid : j'.id = id
  · rw [if_pos hid]
    exact Or.inr ⟨j', hj', hid, rfl⟩
  · rw [if_neg hid]
    exact Or.inl hj'

theorem update_ids {jobs : List job_t} {id : Nat} {f : job_t → job_t} (hf : ∀ j, (f j).id = j.id) :
    (update jobs id f).map (fun j => j.id) = jobs.map fun j => j.id := by
  rw [update, List.map_map]
  apply List.map_congr_left
  intro j _
  rw [Function.comp_apply]
  split
  · exact hf j
  · rfl

theorem exists_id_iff {jobs : List job_t} {id : Nat} : (∃ j ∈ jobs, j.id = id) ↔ id ∈ jobs.map fun j => j.id :=
  List.mem_map.symm

theorem Sound.init : Sound {} :=
  ⟨List.Pairwise.nil, List.forall_mem_nil _, List.forall_mem_nil _, fun _ hr => (by cases hr), List.forall_mem_nil _⟩

variable {s : jobs_t}

/-- Changing a job keeps the invariant if the job keeps its id and has left its last lock
section where it has to. -/
theorem Sound.update {id : Nat} {f : job_t → job_t} (h : Sound s) (hid : ∀ j, (f j).id = j.id)
    (hended : ∀ j ∈ s.g_jobs, j.id = id → (f j).live = false → (f j).state ≠ .failed → (f j).Left)
    (hjoining : ∀ j ∈ s.g_jobs, j.id = id → s.joining = some id → (f j).Left) :
    Sound { s with g_jobs := update s.g_jobs id f } := by
  have hids : (jobs.update s.g_jobs id f).map (fun j => j.id) = s.g_jobs.map fun j => j.id := update_ids hid
  constructor
  · exact h.distinct.congr hids
  · intro j hj
    obtain hold | ⟨j', hj', -, rfl⟩ := mem_update hj
    · exact h.fresh j hold
    · rw [hid]
      exact h.fresh j' hj'
  · intro j hj
    obtain hold | ⟨j', hj', hsame, rfl⟩ := mem_update hj
    · exact h.ended j hold
    · exact hended j' hj' hsame
  · intro r hr id' hid'
    rw [exists_id_iff, hids, ← exists_id_iff]
    exact h.visited r hr id' hid'
  · intro j hj hjoin
    obtain hold | ⟨j', hj', hsame, rfl⟩ := mem_update hj
    · exact h.joining j hold hjoin
    · rw [hid, hsame] at hjoin
      exact hjoining j' hj' hsame hjoin

/-! The calls. -/

theorem joining_of_free (hfree : s.reaping = none) : s.joining = none := by
  rw [jobs_t.joining, hfree, Option.bind_none]

theorem Sound.submit (h : Sound s) (hfree : s.reaping = none) (label owner : String)
    (cancellable : Bool) : Sound (submit s label owner cancellable).2 := by
  rw [jobs.submit]
  split
  · exact h
  · constructor
    · exact h.distinct.append fun j hj => Nat.ne_of_lt (h.fresh j hj)
    · intro j hj
      obtain hold | hnew := List.mem_append.mp hj
      · exact Nat.lt_succ_of_lt (h.fresh j hold)
      · rw [List.mem_singleton.mp hnew]
        exact Nat.lt_succ_self s.next_id
    · intro j hj
      obtain hold | hnew := List.mem_append.mp hj
      · exact h.ended j hold
      · rw [List.mem_singleton.mp hnew]
        nofun
    · intro r hr
      rw [Option.mem_def] at hr
      exact absurd (hfree.symm.trans hr) nofun
    · intro j _ hjoin
      exact absurd ((joining_of_free hfree).symm.trans hjoin) nofun

theorem Sound.cancel (h : Sound s) (hfree : s.reaping = none) (id : Nat) : Sound (cancel s id).2 := by
  rw [jobs.cancel]
  split
  · refine h.update (fun _ => rfl) (fun j hj _ => h.ended j hj) fun j _ _ hjoin => ?_
    exact absurd ((joining_of_free hfree).symm.trans hjoin) nofun
  · exact h

/-! The pass of `reap`. -/

theorem Sound.reap_begin {s s' : jobs_t} (h : Sound s) (hstep : s.step .reap_begin = some s') : Sound s' := by
  obtain ⟨-, hs'⟩ := Option.ite_none_right_eq_some.mp hstep
  cases hs'
  refine ⟨h.distinct, h.fresh, h.ended, ?_, fun _ _ hjoin => by cases hjoin⟩
  intro r hr id hid
  cases hr
  exact exists_id_iff.mpr hid

theorem joining_eq {id : Nat} (hjoin : s.joining = some id) :
    ∃ r, s.reaping = some r ∧ r.joining = true ∧ r.rest.head? = some id := by
  obtain ⟨r, hr, hid⟩ := Option.bind_eq_some_iff.mp hjoin
  exact ⟨r, hr, Option.ite_none_right_eq_some.mp hid⟩

theorem visiting_eq {id : Nat} (hvisit : s.visiting = some id) :
    ∃ r, s.reaping = some r ∧ r.joining = false ∧ r.rest.head? = some id := by
  obtain ⟨r, hr, hid⟩ := Option.bind_eq_some_iff.mp hvisit
  obtain ⟨hnot, hhead⟩ := Option.ite_none_left_eq_some.mp hid
  exact ⟨r, hr, Bool.not_eq_true _ ▸ hnot, hhead⟩

/-- A visit joins a job that has ended by itself, or one that has failed. -/
theorem Sound.reap_visit {s s' : jobs_t} (h : Sound s) (hok : Waits s .reap_visit)
    (hstep : s.step .reap_visit = some s') : Sound s' := by
  obtain ⟨r, hr, hmap⟩ := Option.bind_eq_some_iff.mp hstep
  obtain ⟨id, hvisit, hs'⟩ := Option.map_eq_some_iff.mp hmap
  obtain ⟨r', hr', hidle, hhead⟩ := visiting_eq hvisit
  rw [hr] at hr'
  cases hr'
  by_cases htest : (s.g_jobs.any fun j => j.id = id && j.finished) = true
  · rw [if_pos htest] at hs'
    cases hs'
    refine ⟨h.distinct, h.fresh, h.ended, ?_, ?_⟩
    · intro r' hr'
      cases hr'
      exact h.visited r hr
    · intro j hj hjoin
      obtain ⟨j', hj', htest'⟩ := List.any_eq_true.mp htest
      obtain ⟨hid, hfinished⟩ := Bool.and_eq_true_iff.mp htest'
      have hsame : j = j' := by
        refine h.distinct.eq_of_key hj hj' ?_
        have hjid : some id = some j.id := hhead.symm.trans hjoin
        exact (Option.some.inj hjid).symm.trans (of_decide_eq_true hid).symm
      subst hsame
      by_cases hfailed : j.state = .failed
      · exact hok j hj (hvisit.trans (congrArg some (of_decide_eq_true hid).symm)) hfailed
      · refine h.ended j hj ?_ hfailed
        exact (Bool.not_eq_true' _).mp (Bool.and_eq_true_iff.mp hfinished).2
  · rw [if_neg htest] at hs'
    cases hs'
    refine ⟨h.distinct, h.fresh, h.ended, ?_, ?_⟩
    · intro r' hr' id' hid'
      cases hr'
      exact h.visited r hr id' (List.mem_of_mem_tail hid')
    · intro j _ hjoin
      obtain ⟨r', hr', hjoining, -⟩ := joining_eq hjoin
      cases hr'
      exact absurd (hidle.symm.trans hjoining) Bool.false_ne_true

theorem Sound.reap_join {s s' : jobs_t} (h : Sound s) (hstep : s.step .reap_join = some s') : Sound s' := by
  obtain ⟨r, hr, hbind⟩ := Option.bind_eq_some_iff.mp hstep
  obtain ⟨id, hjoin, hif⟩ := Option.bind_eq_some_iff.mp hbind
  obtain ⟨-, hs'⟩ := Option.ite_none_right_eq_some.mp hif
  cases hs'
  have hupdated : Sound { s with g_jobs := jobs.update s.g_jobs id fun j => { j with joined := true } } :=
    h.update (fun _ => rfl) (fun j hj _ => h.ended j hj) fun j hj hid hjoin' => h.joining j hj (hid ▸ hjoin')
  refine ⟨hupdated.distinct, hupdated.fresh, hupdated.ended, ?_, fun _ _ hjoin' => by cases hjoin'⟩
  intro r' hr' id' hid'
  cases hr'
  exact hupdated.visited r hr id' (List.mem_of_mem_tail hid')

theorem trim_sublist (jobs : List job_t) : (trim jobs).Sublist jobs := by
  rw [trim]
  induction jobs.length - 32 generalizing jobs with
  | zero => exact List.Sublist.refl jobs
  | succ n ih =>
    rw [Function.iterate_succ_apply]
    exact (ih _).trans List.eraseP_sublist

theorem Sound.reap_end (h : Sound s) (changed : Bool) : Sound (s.reap_end changed) := by
  have hsub := trim_sublist s.g_jobs
  have htrimmed : Sound { s with g_jobs := trim s.g_jobs, reaping := none } := by
    refine ⟨h.distinct.sublist hsub, fun j hj => h.fresh j (hsub.subset hj), ?_, ?_, ?_⟩
    · exact fun j hj => h.ended j (hsub.subset hj)
    · intro r hr
      cases hr
    · intro j _ hjoin
      cases hjoin
  rw [jobs_t.reap_end]
  split
  · exact ⟨htrimmed.distinct, htrimmed.fresh, htrimmed.ended, htrimmed.visited, htrimmed.joining⟩
  · exact htrimmed

/-! The threads. -/

/-- A section of a thread keeps the invariant if it leaves the job alive or failed, or is the
last. -/
theorem Sound.thread {s s' : jobs_t} {id : Nat} {pc : pc_t} {locked : Bool} {f : job_t → job_t} (h : Sound s)
    (hstep : s.thread id pc locked f = some s') (hid : ∀ j, (f j).id = j.id)
    (hended : ∀ j ∈ s.g_jobs, (f j).live = false → (f j).state ≠ .failed → (f j).Left)
    (hjoining : locked = true ∨ ∀ j, j.Left → (f j).Left) : Sound s' := by
  obtain ⟨⟨hmutex, -⟩, hs'⟩ := Option.ite_none_right_eq_some.mp hstep
  cases hs'
  refine h.update hid (fun j hj _ => hended j hj) fun j hj hjid hjoin => ?_
  obtain hlocked | hleft := hjoining
  · exact absurd hjoin (hmutex hlocked)
  · exact hleft j (h.joining j hj (hjid ▸ hjoin))

theorem Sound.step {s s' : jobs_t} {op : op_t} (h : Sound s) (hok : Waits s op) (hstep : s.step op = some s') :
    Sound s' := by
  cases op with
  | submit label owner cancellable =>
    obtain ⟨hfree, hs'⟩ := Option.ite_none_right_eq_some.mp hstep
    cases hs'
    exact h.submit (Option.isNone_iff_eq_none.mp hfree) label owner cancellable
  | cancel id =>
    obtain ⟨hfree, hs'⟩ := Option.ite_none_right_eq_some.mp hstep
    cases hs'
    exact h.cancel (Option.isNone_iff_eq_none.mp hfree) id
  | alive id =>
    obtain ⟨-, hs'⟩ := Option.ite_none_right_eq_some.mp hstep
    cases hs'
    exact h
  | reap_begin => exact h.reap_begin hstep
  | reap_visit => exact h.reap_visit hok hstep
  | reap_join => exact h.reap_join hstep
  | reap_end =>
    obtain ⟨r, -, hif⟩ := Option.bind_eq_some_iff.mp hstep
    obtain ⟨-, hs'⟩ := Option.ite_none_right_eq_some.mp hif
    cases hs'
    exact h.reap_end r.changed
  | start id now =>
    apply h.thread hstep (fun _ => rfl) ?_ (Or.inl rfl)
    intro j _ hlive
    cases hlive
  | set_stage id stage => exact h.thread hstep (fun _ => rfl) h.ended (Or.inl rfl)
  | set_progress id progress => exact h.thread hstep (fun _ => rfl) h.ended (Or.inr fun _ hleft => hleft)
  | fail id message =>
    apply h.thread hstep (fun _ => rfl) ?_ (Or.inl rfl)
    intro j _ _ hfailed
    exact absurd rfl hfailed
  | finish id now => exact h.thread hstep (fun _ => rfl) (fun _ _ _ _ => Or.inl rfl) (Or.inl rfl)
  | exit id => exact h.thread hstep (fun _ => rfl) (fun _ _ _ _ => Or.inr rfl) (Or.inr fun _ _ => Or.inr rfl)

/-- The job that `reap` joins has left its last lock section, so its thread exits or has done so,
whatever mutexes are held. -/
def jobs_t.JoinsFinished (s : jobs_t) : Prop :=
  ∀ id, s.joining = some id → (∀ j ∈ s.g_jobs, j.id = id → j.Left) ∧
    ((s.step (.exit id)).isSome = true ∨ (s.step .reap_join).isSome = true)

theorem Sound.joins_finished (h : Sound s) : s.JoinsFinished := by
  intro id hjoin
  have hleft : ∀ j ∈ s.g_jobs, j.id = id → j.Left := fun j hj hid => h.joining j hj (hid ▸ hjoin)
  refine ⟨hleft, ?_⟩
  obtain ⟨r, hr, -, hhead⟩ := joining_eq hjoin
  obtain ⟨j, hj, hid⟩ := h.visited r hr id (List.mem_of_mem_head? hhead)
  obtain hpc | hpc := hleft j hj hid
  · have hthread : (s.g_jobs.any fun j => j.id = id && j.pc = .left) = true :=
      List.any_eq_true.mpr ⟨j, hj, by rw [hid, hpc]; simp⟩
    refine Or.inl ?_
    rw [jobs_t.step, jobs_t.thread, if_pos ⟨nofun, hthread⟩, Option.isSome_some]
  · have hthread : (s.g_jobs.any fun j => j.id = id && j.pc = .exited) = true :=
      List.any_eq_true.mpr ⟨j, hj, by rw [hid, hpc]; simp⟩
    refine Or.inr ?_
    rw [jobs_t.step, hr, Option.bind_some, hjoin, Option.bind_some, if_pos hthread, Option.isSome_some]

/-- As long as no pass visits a failed job whose thread still needs its mutex, every job that
`reap` joins has left its last lock section, and the join comes to an end. -/
theorem reap_joins_finished (hreach : Relation.ReflTransGen (Transition.Step Waits jobs_t.step) {} s) :
    s.JoinsFinished := by
  have hsound : Sound s := Transition.invariant Sound.init (fun _ _ _ h hok hstep => h.step hok hstep) hreach
  exact hsound.joins_finished

/-- A job fails, returns, and is then joined. -/
theorem failed_job_is_joined :
    ∃ s : jobs_t, s.joining = some 1 ∧ s.JoinsFinished := by
  have hrun : (Transition.run Waits jobs_t.step {}
      [.submit "scan" "ui" true, .start 1 0, .fail 1 "no target", .finish 1 5, .reap_begin, .reap_visit]).any
      (fun s => s.joining = some 1) = true := by
    decide
  obtain ⟨s, hreach, hjoin⟩ := Transition.run_any hrun
  exact ⟨s, of_decide_eq_true hjoin, reap_joins_finished hreach⟩

/-- A pass visits a job between its `fail` and its last lock section. It joins the thread
while it holds the mutex that the thread waits for. -/
theorem failed_job_is_joined_early :
    ¬ ∀ s : jobs_t, Relation.ReflTransGen (Transition.Step (fun _ _ => True) jobs_t.step) {} s → s.JoinsFinished := by
  have hrun : (Transition.run (fun (_ : jobs_t) _ => True) jobs_t.step {}
      [.submit "scan" "ui" true, .start 1 0, .fail 1 "no target", .reap_begin, .reap_visit]).any
      (fun s => s.joining = some 1 && s.g_jobs.any fun j => j.id = 1 && j.pc = .body) = true := by
    decide
  obtain ⟨s, hreach, htest⟩ := Transition.run_any hrun
  obtain ⟨hjoin, hbody⟩ := Bool.and_eq_true_iff.mp htest
  obtain ⟨j, hj, hj'⟩ := List.any_eq_true.mp hbody
  obtain ⟨hid, hpc⟩ := Bool.and_eq_true_iff.mp hj'
  intro hlaw
  have hleft := (hlaw s hreach 1 (of_decide_eq_true hjoin)).1 j hj (of_decide_eq_true hid)
  rw [job_t.Left, of_decide_eq_true hpc] at hleft
  obtain hfalse | hfalse := hleft
  · cases hfalse
  · cases hfalse

end slop.core.infra.jobs
