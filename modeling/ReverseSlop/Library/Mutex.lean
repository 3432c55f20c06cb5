import Mathlib.Control.Basic
import Mathlib.Data.List.Basic

namespace Mutex

/-- The shape of a piece of code around one mutex: where it is locked, and by which
branches and loops it gets there. -/
inductive Code where
  | skip
  /-- A scope that holds a guard. -/
  | guarded (body : Code)
  /-- Inside a guard, a stretch between `unlock` and `lock`. -/
  | unguarded (body : Code)
  /-- Inside a guard, a wait on a condition variable. -/
  | wait
  | seq (first second : Code)
  | choice (left right : Code)
  /-- A loop of any number of rounds. -/
  | loop (body : Code)

inductive Event where
  | acquire | release
  deriving DecidableEq

/-- What a path through the code does to the mutex. -/
inductive Path : Code → List Event → Prop
  | skip : Path .skip []
  | guarded {body : Code} {t : List Event} (h : Path body t) : Path (.guarded body) (.acquire :: (t ++ [.release]))
  | unguarded {body : Code} {t : List Event} (h : Path body t) :
    Path (.unguarded body) (.release :: (t ++ [.acquire]))
  | wait : Path .wait [.release, .acquire]
  | seq {first second : Code} {t t' : List Event} (h : Path first t) (h' : Path second t') :
    Path (.seq first second) (t ++ t')
  | left {left right : Code} {t : List Event} (h : Path left t) : Path (.choice left right) t
  | right {left right : Code} {t : List Event} (h : Path right t) : Path (.choice left right) t
  | stop {body : Code} : Path (.loop body) []
  | again {body : Code} {t t' : List Event} (h : Path body t) (h' : Path (.loop body) t') :
    Path (.loop body) (t ++ t')

/-- The thread acquires the mutex while it holds it. -/
def Deadlocks : Bool → List Event → Prop
  | _, [] => False
  | true, .acquire :: _ => True
  | false, .acquire :: t => Deadlocks true t
  | _, .release :: t => Deadlocks false t

/-- Every stretch of the code finds the mutex as it needs it. -/
def Code.safe : Bool → Code → Bool
  | _, .skip => true
  | held, .guarded body => !held && body.safe true
  | held, .unguarded body => held && body.safe false
  | held, .wait => held
  | held, .seq first second => first.safe held && second.safe held
  | held, .choice left right => left.safe held && right.safe held
  | held, .loop body => body.safe held

theorem deadlocks_release (held : Bool) (t : List Event) : Deadlocks held (.release :: t) = Deadlocks false t := by
  cases held <;> rfl

/-- A path of safe code does not deadlock and gives the mutex back as it found it. -/
theorem deadlocks_append {held : Bool} {c : Code} {t : List Event} (hsafe : c.safe held = true) (hpath : Path c t)
    (rest : List Event) : Deadlocks held (t ++ rest) = Deadlocks held rest := by
  induction hpath generalizing held rest with
  | skip => rfl
  | guarded _ ih =>
    obtain ⟨hfree, hbody⟩ := Bool.and_eq_true_iff.mp hsafe
    cases held with
    | true => cases hfree
    | false =>
      rw [List.cons_append, List.append_assoc, Deadlocks, ih hbody, List.singleton_append, deadlocks_release]
  | unguarded _ ih =>
    obtain ⟨hheld, hbody⟩ := Bool.and_eq_true_iff.mp hsafe
    cases held with
    | false => cases hheld
    | true =>
      rw [List.cons_append, List.append_assoc, deadlocks_release, ih hbody, List.singleton_append, Deadlocks]
  | wait =>
    cases held with
    | false => cases hsafe
    | true => rfl
  | seq _ _ ih ih' =>
    obtain ⟨hfirst, hsecond⟩ := Bool.and_eq_true_iff.mp hsafe
    rw [List.append_assoc, ih hfirst, ih' hsecond]
  | left _ ih => exact ih (Bool.and_eq_true_iff.mp hsafe).1 rest
  | right _ ih => exact ih (Bool.and_eq_true_iff.mp hsafe).2 rest
  | stop => rfl
  | again _ _ ih ih' => rw [List.append_assoc, ih hsafe, ih' hsafe]

theorem not_deadlocks_of_safe {c : Code} {t : List Event} (hsafe : c.safe false = true) (hpath : Path c t) :
    ¬ Deadlocks false t := by
  have happend := deadlocks_append hsafe hpath []
  rw [List.append_nil] at happend
  rw [happend]
  exact id

end Mutex

/-! Programs of one thread over a state and a mutex that must not be locked twice. -/
namespace Guard

/-- Why a program does not return. -/
inductive Stop where
  /-- It waits for the mutex that it holds. -/
  | blocked
  | thrown
  deriving DecidableEq

structure World (σ : Type) where
  state : σ
  held : Bool

def Prog (σ α : Type) : Type := World σ → Except Stop α × World σ

instance {σ : Type} : Monad (Prog σ) where
  pure a w := (.ok a, w)
  bind x f w :=
    match x w with
    | (.ok a, w) => f a w
    | (.error e, w) => (.error e, w)

def read {σ : Type} : Prog σ σ := fun w => (.ok w.state, w)

def update {σ : Type} (f : σ → σ) : Prog σ Unit := fun w => (.ok (), { w with state := f w.state })

/-- A scope that holds the mutex. A thread that is blocked never leaves it. -/
def guarded {σ α : Type} (body : Prog σ α) : Prog σ α := fun w =>
  if w.held then (.error .blocked, w)
  else
    match body { w with held := true } with
    | (.error .blocked, w) => (.error .blocked, w)
    | (r, w) => (r, { w with held := false })

section

variable {σ α β : Type} {x : Prog σ α} {f : α → Prog σ β} {w w' : World σ} {a : α}

@[simp]
theorem run_pure (a : α) (w : World σ) : (pure a : Prog σ α) w = (.ok a, w) := rfl

@[simp]
theorem run_read (w : World σ) : (read : Prog σ σ) w = (.ok w.state, w) := rfl

@[simp]
theorem run_update (g : σ → σ) (w : World σ) : update g w = (.ok (), { w with state := g w.state }) := rfl

theorem run_bind_ok (hx : x w = (.ok a, w')) : (x >>= f) w = f a w' := by
  change (match x w with | (.ok a, w) => f a w | (.error e, w) => (.error e, w)) = _
  rw [hx]

theorem run_bind_error {e : Stop} (hx : x w = (.error e, w')) : (x >>= f) w = (.error e, w') := by
  change (match x w with | (.ok a, w) => f a w | (.error e, w) => (.error e, w)) = _
  rw [hx]

@[simp]
theorem run_read_bind (k : σ → Prog σ β) (w : World σ) : (read >>= k) w = k w.state w := rfl

@[simp]
theorem run_update_bind (g : σ → σ) (k : Unit → Prog σ β) (w : World σ) :
    (update g >>= k) w = k () { w with state := g w.state } := rfl

instance : LawfulMonad (Prog σ) :=
  LawfulMonad.mk' (Prog σ)
    (by
      intro α x
      funext w
      change (match x w with | (.ok a, w) => (.ok a, w) | (.error e, w) => (.error e, w)) = x w
      rcases x w with ⟨_ | a, w'⟩ <;> rfl)
    (by
      intro α β a f
      rfl)
    (by
      intro α β γ x f g
      funext w
      change (match (match x w with | (.ok a, w) => f a w | (.error e, w) => (.error e, w)) with
          | (.ok b, w) => g b w | (.error e, w) => (.error e, w)) =
        (match x w with
          | (.ok a, w) => (match f a w with | (.ok b, w) => g b w | (.error e, w) => (.error e, w))
          | (.error e, w) => (.error e, w))
      rcases x w with ⟨_ | a, w'⟩ <;> rfl)

theorem guarded_held (hheld : w.held = true) : guarded x w = (.error .blocked, w) := if_pos hheld

/-- What a scope returned is what was returned in it. -/
theorem ok_of_guarded (hx : guarded x w = (.ok a, w')) : ∃ w'', x { w with held := true } = (.ok a, w'') := by
  rw [guarded] at hx
  split at hx
  · cases hx
  · rcases hrun : x { w with held := true } with ⟨(_ | _) | b, w''⟩
    · rw [hrun] at hx
      cases hx
    · rw [hrun] at hx
      cases hx
    · rw [hrun] at hx
      cases hx
      exact ⟨w'', rfl⟩

/-- A scope that returns gives the mutex back. -/
theorem guarded_ok (hfree : w.held = false) (hx : x { w with held := true } = (.ok a, w')) :
    guarded x w = (.ok a, { w' with held := false }) := by
  rw [guarded, hfree, if_neg Bool.false_ne_true, hx]

theorem guarded_congr {y : Prog σ α} (hsame : x { w with held := true } = y { w with held := true }) :
    guarded x w = guarded y w := by
  rw [guarded, guarded, hsame]

/-- A scope is blocked if what is in it is. -/
theorem guarded_blocked_iff (hfree : w.held = false) :
    (guarded x w).1 = .error .blocked ↔ (x { w with held := true }).1 = .error .blocked := by
  rw [guarded, hfree, if_neg Bool.false_ne_true]
  rcases x { w with held := true } with ⟨(_ | _) | a, w'⟩ <;> simp

/-- A loop whose rounds only read. -/
theorem run_mapM_ok {f : α → Prog σ β} {g : α → β} {l : List α} (hf : ∀ a ∈ l, f a w = (.ok (g a), w)) :
    l.mapM f w = (.ok (l.map g), w) := by
  induction l with
  | nil => rfl
  | cons a l ih =>
    obtain ⟨ha, hl⟩ := List.forall_mem_cons.mp hf
    rw [List.mapM_cons, run_bind_ok ha, run_bind_ok (ih hl)]
    rfl

/-- A loop is blocked in its first round that is. -/
theorem run_mapM_blocked {f : α → Prog σ β} {g : α → β} {l : List α}
    (hf : ∀ a ∈ l, f a w = (.ok (g a), w) ∨ f a w = (.error .blocked, w))
    (hblocked : ∃ a ∈ l, f a w = (.error .blocked, w)) : l.mapM f w = (.error .blocked, w) := by
  induction l with
  | nil =>
    obtain ⟨a, ha, -⟩ := hblocked
    cases ha
  | cons a l ih =>
    obtain ⟨ha, hl⟩ := List.forall_mem_cons.mp hf
    rw [List.mapM_cons]
    rcases ha with ha | ha
    · rw [run_bind_ok ha]
      refine run_bind_error (ih hl ?_)
      obtain ⟨b, hb, hblocked⟩ := hblocked
      rcases List.mem_cons.mp hb with rfl | hb
      · rw [ha] at hblocked
        cases hblocked
      · exact ⟨b, hb, hblocked⟩
    · exact run_bind_error ha

end

end Guard
