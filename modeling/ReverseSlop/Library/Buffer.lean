import Mathlib.Data.List.Basic
import Mathlib.Data.List.Range

namespace Buffer

/-- How a full vector grows. -/
structure Growth where
  next : Nat → Nat
  next_gt : ∀ n, n < next n

/-- A contiguous vector, with the room it has and the number of times its
elements have moved to a new buffer. -/
structure Vec (α : Type) where
  elems : List α
  capacity : Nat
  generation : Nat
  fits : elems.length ≤ capacity

/-- A pointer to an element: a position in the buffer of one generation. -/
structure Ptr where
  generation : Nat
  index : Nat
  deriving DecidableEq

namespace Vec

variable {α : Type}

def empty : Vec α := ⟨[], 0, 0, Nat.le_refl 0⟩

/-- What a pointer reads, unless it is dead. -/
def deref (v : Vec α) (p : Ptr) : Option α := if p.generation = v.generation then v.elems[p.index]? else none

def HasRoom (v : Vec α) : Prop := v.elems.length < v.capacity

instance (v : Vec α) : Decidable v.HasRoom := inferInstanceAs (Decidable (_ < _))

theorem fits_push {v : Vec α} (hroom : v.HasRoom) (a : α) : (v.elems ++ [a]).length ≤ v.capacity := by
  rw [List.length_append, List.length_singleton]
  exact hroom

theorem fits_grow (grow : Growth) (v : Vec α) (a : α) : (v.elems ++ [a]).length ≤ grow.next v.capacity := by
  have hfits := v.fits
  have hgrow := grow.next_gt v.capacity
  rw [List.length_append, List.length_singleton]
  omega

/-- Append an element; a full vector moves to a new buffer. -/
def push_back (grow : Growth) (v : Vec α) (a : α) : Vec α :=
  if hroom : v.HasRoom then ⟨v.elems ++ [a], v.capacity, v.generation, fits_push hroom a⟩
  else ⟨v.elems ++ [a], grow.next v.capacity, v.generation + 1, fits_grow grow v a⟩

theorem fits_filter (v : Vec α) (keep : α → Bool) : (v.elems.filter keep).length ≤ v.capacity :=
  (List.length_filter_le keep v.elems).trans v.fits

/-- `erase(remove_if(..))`: the elements behind move forward in the same buffer. -/
def erase_if (v : Vec α) (drop : α → Bool) : Vec α :=
  ⟨v.elems.filter fun a => !drop a, v.capacity, v.generation, fits_filter v _⟩

theorem fits_modify (v : Vec α) (i : Nat) (f : α → α) : (v.elems.modify i f).length ≤ v.capacity := by
  rw [List.length_modify]
  exact v.fits

/-- Write through a pointer or a reference. -/
def modify (v : Vec α) (i : Nat) (f : α → α) : Vec α :=
  ⟨v.elems.modify i f, v.capacity, v.generation, fits_modify v i f⟩

/-- Destroy the elements and keep the buffer. -/
def clear (v : Vec α) : Vec α := ⟨[], v.capacity, v.generation, Nat.zero_le _⟩

/-- The position of the first element that satisfies a test. -/
def find (v : Vec α) (test : α → Bool) : Option Nat := v.elems.findIdx? test

def ptr (v : Vec α) (i : Nat) : Ptr := ⟨v.generation, i⟩

@[simp] theorem elems_push_back (grow : Growth) (v : Vec α) (a : α) :
    (v.push_back grow a).elems = v.elems ++ [a] := by
  unfold push_back
  split <;> rfl

@[simp] theorem elems_erase_if (v : Vec α) (drop : α → Bool) :
    (v.erase_if drop).elems = v.elems.filter fun a => !drop a := rfl

@[simp] theorem elems_modify (v : Vec α) (i : Nat) (f : α → α) : (v.modify i f).elems = v.elems.modify i f := rfl

/-- Writing back what is there changes nothing. -/
theorem modify_self {v : Vec α} {i : Nat} {a : α} (hget : v.elems[i]? = some a) : v.modify i (fun _ => a) = v := by
  have helems : v.elems.modify i (fun _ => a) = v.elems := by
    refine List.ext_getElem? fun j => ?_
    by_cases hj : i = j
    · rw [← hj, List.getElem?_modify_eq, hget]
      rfl
    · rw [List.getElem?_modify_ne _ _ hj]
  cases v with
  | mk elems capacity generation hfits =>
    unfold modify
    simp only [helems]

theorem generation_push_back {v : Vec α} (hroom : v.HasRoom) (grow : Growth) (a : α) :
    (v.push_back grow a).generation = v.generation := by
  unfold push_back
  rw [dif_pos hroom]

theorem deref_eq_some {v : Vec α} {p : Ptr} {a : α} :
    v.deref p = some a ↔ p.generation = v.generation ∧ v.elems[p.index]? = some a := by
  unfold deref
  by_cases h : p.generation = v.generation <;> simp [h]

theorem deref_ptr (v : Vec α) (i : Nat) : v.deref (v.ptr i) = v.elems[i]? := if_pos rfl

/-- A pointer outlives an append that has room. -/
theorem deref_push_back {v : Vec α} {p : Ptr} {a : α} (hroom : v.HasRoom) (grow : Growth) (b : α)
    (hp : v.deref p = some a) : (v.push_back grow b).deref p = some a := by
  obtain ⟨hgeneration, hget⟩ := deref_eq_some.mp hp
  refine deref_eq_some.mpr ⟨by rw [generation_push_back hroom, hgeneration], ?_⟩
  obtain ⟨hlt, -⟩ := List.getElem?_eq_some_iff.mp hget
  rw [elems_push_back, List.getElem?_append_left hlt, hget]

/-- Positions before the first erased element keep their element. -/
theorem getElem?_filter_of_kept {l : List α} {keep : α → Bool} {i : Nat}
    (hkept : ∀ j ≤ i, ∀ b, l[j]? = some b → keep b = true) : (l.filter keep)[i]? = l[i]? := by
  induction l generalizing i with
  | nil => rfl
  | cons b l ih =>
    have hb : keep b = true := hkept 0 (Nat.zero_le i) b rfl
    rw [List.filter_cons_of_pos hb]
    cases i with
    | zero => rfl
    | succ i =>
      rw [List.getElem?_cons_succ, List.getElem?_cons_succ]
      exact ih fun j hj c hc => hkept (j + 1) (Nat.succ_le_succ hj) c (by simpa using hc)

/-- A pointer outlives an erase of elements that all lie behind it. -/
theorem deref_erase_if {v : Vec α} {p : Ptr} {a : α} {drop : α → Bool} (hp : v.deref p = some a)
    (hbehind : ∀ j ≤ p.index, ∀ b, v.elems[j]? = some b → drop b = false) :
    (v.erase_if drop).deref p = some a := by
  obtain ⟨hgeneration, hget⟩ := deref_eq_some.mp hp
  refine deref_eq_some.mpr ⟨hgeneration, ?_⟩
  rw [elems_erase_if, getElem?_filter_of_kept, hget]
  intro j hj b hb
  rw [hbehind j hj b hb]
  rfl

/-- A pointer still points to its element after a write. -/
theorem deref_modify {v : Vec α} {p : Ptr} {a : α} (hp : v.deref p = some a) (i : Nat) (f : α → α) :
    (v.modify i f).deref p = some (if i = p.index then f a else a) := by
  obtain ⟨hgeneration, hget⟩ := deref_eq_some.mp hp
  refine deref_eq_some.mpr ⟨hgeneration, ?_⟩
  rw [elems_modify]
  by_cases h : i = p.index
  · rw [h, List.getElem?_modify_eq, hget, if_pos rfl]
    rfl
  · rw [List.getElem?_modify_ne f _ h, hget, if_neg h]

theorem find_eq_some {v : Vec α} {test : α → Bool} {i : Nat} (hfind : v.find test = some i) :
    ∃ a, v.elems[i]? = some a ∧ test a = true := by
  obtain ⟨hlt, htest, -⟩ := List.findIdx?_eq_some_iff_getElem.mp hfind
  exact ⟨v.elems[i], List.getElem?_eq_getElem hlt, htest⟩

theorem find_before {v : Vec α} {test : α → Bool} {i j : Nat} {a : α} (hfind : v.find test = some i) (hj : j < i)
    (hget : v.elems[j]? = some a) : test a = false := by
  obtain ⟨hlt, -, hbefore⟩ := List.findIdx?_eq_some_iff_getElem.mp hfind
  obtain ⟨_, rfl⟩ := List.getElem?_eq_some_iff.mp hget
  exact Bool.eq_false_iff.mpr (hbefore j hj)

theorem find_eq_none {v : Vec α} {test : α → Bool} (hfind : v.find test = none) :
    ∀ (i : Nat) (a : α), v.elems[i]? = some a → test a = false := by
  intro i a hget
  rw [find, List.findIdx?_eq_none_iff] at hfind
  exact hfind a (List.mem_of_getElem? hget)

end Vec

end Buffer
