import Mathlib.Data.List.Basic
import Mathlib.Logic.Function.Basic

namespace Journal

section

variable {σ ρ : Type} (undo : ρ → σ → σ)

/-- Undo the records of a log, the newest first. -/
def rollback (log : List ρ) (s : σ) : σ := log.foldr undo s

theorem rollback_append (log recs : List ρ) (s : σ) :
    rollback undo (log ++ recs) s = rollback undo log (rollback undo recs s) := List.foldr_append

variable {τ : Type} (store : τ → σ) (log : τ → List ρ)

/-- The second state has logged all that was done to the store since the first. -/
def Advances (t t' : τ) : Prop :=
  ∃ recs, log t' = log t ++ recs ∧ rollback undo recs (store t') = store t

variable {undo store log}

theorem Advances.refl (t : τ) : Advances undo store log t t := ⟨[], (List.append_nil _).symm, rfl⟩

/-- Neither the store nor the log changed. -/
theorem Advances.of_eq {t t' : τ} (hstore : store t' = store t) (hlog : log t' = log t) :
    Advances undo store log t t' := ⟨[], by rw [hlog, List.append_nil], hstore⟩

theorem Advances.trans {t t' t'' : τ} (h : Advances undo store log t t') (h' : Advances undo store log t' t'') :
    Advances undo store log t t'' := by
  obtain ⟨recs, hlog, hundo⟩ := h
  obtain ⟨recs', hlog', hundo'⟩ := h'
  refine ⟨recs ++ recs', ?_, ?_⟩
  · rw [hlog', hlog, List.append_assoc]
  · rw [rollback_append, hundo', hundo]

/-- One change with its record. -/
theorem Advances.record {t t' : τ} {r : ρ} (hlog : log t' = log t ++ [r]) (hundo : undo r (store t') = store t) :
    Advances undo store log t t' := ⟨[r], hlog, hundo⟩

/-- A loop logs all its changes if its body does. -/
theorem Advances.foldl {β α : Type} (get : β → τ) {f : β → α → β}
    (hbody : ∀ b a, Advances undo store log (get b) (get (f b a))) (l : List α) (b : β) :
    Advances undo store log (get b) (get (l.foldl f b)) := by
  induction l generalizing b with
  | nil => exact Advances.refl _
  | cons a l ih =>
    rw [List.foldl_cons]
    exact (hbody b a).trans (ih (f b a))

variable (undo store log) in
/-- Undoing the whole log gives the origin. -/
def Restores (origin : σ) (t : τ) : Prop := rollback undo (log t) (store t) = origin

/-- At an empty log the origin is what the store holds. -/
theorem Restores.start {t : τ} (hlog : log t = []) : Restores undo store log (store t) t := by
  rw [Restores, hlog]
  rfl

theorem Restores.advance {origin : σ} {t t' : τ} (h : Restores undo store log origin t)
    (hadvances : Advances undo store log t t') : Restores undo store log origin t' := by
  obtain ⟨recs, hlog, hundo⟩ := hadvances
  rw [Restores, hlog, rollback_append, hundo]
  exact h

end

end Journal

namespace Disk

/-- Files by their paths, which of them can be opened for writing, and how many bytes the disk still takes. -/
structure State where
  files : List UInt8 → Option (List UInt8)
  opens : List UInt8 → Bool
  room : Nat

/-- Open a file with `trunc` and write a text to it, unless the text cannot be had; by then the file
is empty. -/
def State.rewrite (d : State) (path : List UInt8) (text : Option (List UInt8)) : State :=
  if d.opens path then { d with files := Function.update d.files path (some ((text.getD []).take d.room)) } else d

/-- The file is opened and the whole text is written. -/
def State.Completes (d : State) (path : List UInt8) (text : Option (List UInt8)) : Prop :=
  d.opens path = true ∧ ∃ t ∈ text, t.length ≤ d.room

section

variable {d : State} {path : List UInt8} {text : Option (List UInt8)}

theorem rewrite_closed (hclosed : d.opens path = false) : d.rewrite path text = d := by
  simp [State.rewrite, hclosed]

theorem rewrite_files (hopens : d.opens path = true) :
    (d.rewrite path text).files = Function.update d.files path (some ((text.getD []).take d.room)) := by
  simp [State.rewrite, hopens]

/-- What was written completely is the file. -/
theorem State.Completes.files_eq {t : List UInt8} (h : d.Completes path (some t)) :
    (d.rewrite path (some t)).files path = some t := by
  obtain ⟨hopens, t', ht', hfits⟩ := h
  obtain rfl : t = t' := by simpa using ht'
  simp [rewrite_files hopens, List.take_of_length_le hfits]

/-- Nothing is lost exactly if the write completes, or does not begin, or leaves what was there. -/
theorem completes_or_same_iff :
    (d.Completes path text ∨ (d.rewrite path text).files = d.files) ↔
      d.opens path = false ∨ (∃ t ∈ text, t.length ≤ d.room) ∨
        d.files path = some ((text.getD []).take d.room) := by
  cases hopens : d.opens path with
  | false => simp [rewrite_closed hopens]
  | true =>
    have hsame : (d.rewrite path text).files = d.files ↔ d.files path = some ((text.getD []).take d.room) := by
      rw [rewrite_files hopens]
      exact Function.update_eq_self_iff.trans eq_comm
    simp [State.Completes, hopens, hsame]

end

end Disk
