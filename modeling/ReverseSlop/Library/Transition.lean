import Mathlib.Logic.Relation
import Mathlib.Data.List.Basic

namespace Transition

section

variable {σ α : Type}

/-- A step that its guard allows and that has an outcome. -/
def Step (guard : σ → α → Prop) (step : σ → α → Option σ) (s s' : σ) : Prop :=
  ∃ a, guard s a ∧ step s a = some s'

variable {guard : σ → α → Prop} {step : σ → α → Option σ}

/-- What holds at the start and is kept by every step holds in every state reached. -/
theorem invariant {I : σ → Prop} {s s' : σ} (hstart : I s)
    (hkeeps : ∀ s a s', I s → guard s a → step s a = some s' → I s')
    (hreach : Relation.ReflTransGen (Step guard step) s s') : I s' := by
  induction hreach with
  | refl => exact hstart
  | tail _ hstep ih =>
    obtain ⟨a, hguard, hnext⟩ := hstep
    exact hkeeps _ a _ ih hguard hnext

/-- Take the steps of a list while their guards allow them. -/
def run (guard : σ → α → Prop) [∀ s a, Decidable (guard s a)] (step : σ → α → Option σ) : σ → List α → Option σ
  | s, [] => some s
  | s, a :: rest => if guard s a then (step s a).bind fun s' => run guard step s' rest else none

theorem run_reaches [∀ s a, Decidable (guard s a)] {s s' : σ} {l : List α} (hrun : run guard step s l = some s') :
    Relation.ReflTransGen (Step guard step) s s' := by
  induction l generalizing s with
  | nil =>
    rw [run, Option.some.injEq] at hrun
    rw [hrun]
  | cons a l ih =>
    rw [run] at hrun
    by_cases hguard : guard s a
    · rw [if_pos hguard] at hrun
      obtain ⟨t, hstep, hrest⟩ := Option.bind_eq_some_iff.mp hrun
      exact Relation.ReflTransGen.head ⟨a, hguard, hstep⟩ (ih hrest)
    · rw [if_neg hguard] at hrun
      cases hrun

theorem run_any [∀ s a, Decidable (guard s a)] {s : σ} {l : List α} {test : σ → Bool}
    (hrun : (run guard step s l).any test = true) :
    ∃ s', Relation.ReflTransGen (Step guard step) s s' ∧ test s' = true := by
  obtain ⟨s', hs', htest⟩ := (Option.any_eq_true test _).mp hrun
  exact ⟨s', run_reaches hs', htest⟩

/-- Every step of one system is a step of the other. -/
theorem reaches_mono {β : Type} {guard' : σ → β → Prop} {step' : σ → β → Option σ} {s s' : σ}
    (hsim : ∀ s a, guard s a → ∃ b, guard' s b ∧ step' s b = step s a)
    (hreach : Relation.ReflTransGen (Step guard step) s s') : Relation.ReflTransGen (Step guard' step') s s' := by
  refine Relation.ReflTransGen.mono ?_ _ _ hreach
  rintro t t' ⟨a, hguard, hstep⟩
  obtain ⟨b, hb, hsame⟩ := hsim t a hguard
  exact ⟨b, hb, hsame.trans hstep⟩

end

end Transition

namespace Trace

section

variable {α : Type} (guard act : α → Prop)

/-- Every acting event of a trace has a guarding event before it. -/
def Guarded (trace : List α) : Prop :=
  ∀ before event after, trace = before ++ event :: after → act event → ∃ e ∈ before, guard e

variable {guard act}

theorem Guarded.of_no_act {trace : List α} (hnone : ∀ e ∈ trace, ¬ act e) : Guarded guard act trace := by
  rintro before event after rfl hact
  exact absurd hact (hnone event (List.mem_append_right before List.mem_cons_self))

/-- Behind a guarding event anything may happen. -/
theorem Guarded.of_head {e : α} {trace : List α} (hguard : guard e) (hidle : ¬ act e) :
    Guarded guard act (e :: trace) := by
  intro before event after hsplit hact
  cases before with
  | nil =>
    rw [List.nil_append, List.cons.injEq] at hsplit
    rw [hsplit.1] at hidle
    exact absurd hact hidle
  | cons first before =>
    rw [List.cons_append, List.cons.injEq] at hsplit
    exact ⟨first, List.mem_cons_self, hsplit.1 ▸ hguard⟩

theorem Guarded.append {l l' : List α} (h : Guarded guard act l) (h' : Guarded guard act l') :
    Guarded guard act (l ++ l') := by
  intro before event after hsplit hact
  obtain ⟨rest, hbefore, htail⟩ | ⟨rest, hl, htail⟩ := List.append_eq_append_iff.mp hsplit
  · obtain ⟨e, he, hguard⟩ := h' rest event after htail hact
    exact ⟨e, hbefore ▸ List.mem_append_right l he, hguard⟩
  · cases rest with
    | nil =>
      rw [List.nil_append] at htail
      obtain ⟨e, he, -⟩ := h' [] event after htail.symm hact
      cases he
    | cons first rest =>
      rw [List.cons_append, List.cons.injEq] at htail
      rw [← htail.1] at hl
      exact h before event rest hl hact

theorem Guarded.not_of_head {e : α} {trace : List α} (hact : act e) : ¬ Guarded guard act (e :: trace) := by
  intro h
  obtain ⟨f, hf, -⟩ := h [] e trace rfl hact
  cases hf

variable {τ : Type} (log : τ → List α) (P : List α → Prop)

/-- The second state has added a trace with a property to the log of the first. -/
def Adds (t t' : τ) : Prop := ∃ trace, log t' = log t ++ trace ∧ P trace

variable {log P}

theorem Adds.trans {t t' t'' : τ} (happend : ∀ l l', P l → P l' → P (l ++ l')) (h : Adds log P t t')
    (h' : Adds log P t' t'') : Adds log P t t'' := by
  obtain ⟨trace, hlog, htrace⟩ := h
  obtain ⟨trace', hlog', htrace'⟩ := h'
  refine ⟨trace ++ trace', ?_, happend trace trace' htrace htrace'⟩
  rw [hlog', hlog, List.append_assoc]

/-- A loop adds such a trace if its body does. -/
theorem Adds.foldl {β γ : Type} (get : β → τ) {f : β → γ → β} (hnil : P [])
    (happend : ∀ l l', P l → P l' → P (l ++ l')) (hbody : ∀ b a, Adds log P (get b) (get (f b a)))
    (items : List γ) (b : β) : Adds log P (get b) (get (items.foldl f b)) := by
  induction items generalizing b with
  | nil => exact ⟨[], (List.append_nil _).symm, hnil⟩
  | cons a items ih =>
    rw [List.foldl_cons]
    exact (hbody b a).trans happend (ih (f b a))

/-- What a state has added to a log is determined by the two states. -/
theorem Adds.of_eq {t t' : τ} {trace : List α} (hlog : log t' = log t ++ trace) :
    Adds log P t t' ↔ P trace := by
  constructor
  · rintro ⟨trace', hlog', htrace'⟩
    rw [hlog] at hlog'
    rw [List.append_cancel_left hlog']
    exact htrace'
  · exact fun h => ⟨trace, hlog, h⟩

end

end Trace
