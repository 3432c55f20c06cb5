import Mathlib.Algebra.Group.Nat.Defs
import Mathlib.Data.List.Basic

namespace Bytes

/-- The bytes of a number, the low one first. -/
def le : Nat → Nat → List UInt8
  | 0, _ => []
  | n + 1, v => (v % 256).toUInt8 :: le n (v / 256)

def of_le : List UInt8 → Nat
  | [] => 0
  | b :: s => b.toNat + 256 * of_le s

def of_be (s : List UInt8) : Nat := of_le s.reverse

/-- The first bytes and the others, if there are enough. -/
def split (n : Nat) (s : List UInt8) : Option (List UInt8 × List UInt8) :=
  if n ≤ s.length then some (s.take n, s.drop n) else none

/-- The number of `n` bytes at an offset, if they are all there. -/
def read (n : Nat) (d : List UInt8) (off : Nat) : Option Nat :=
  if off + n ≤ d.length then some (of_le ((d.drop off).take n)) else none

/-- The `n` bytes at an offset, if they are all there. -/
def slice (n : Nat) (d : List UInt8) (off : Nat) : Option (List UInt8) :=
  if off + n ≤ d.length then some ((d.drop off).take n) else none

/-- All reads are inside, and the result has a property. -/
def Returns {α : Type} (P : α → Prop) (x : Option α) : Prop := ∃ a, x = some a ∧ P a

/-- Some bytes are at an offset. -/
def At (d : List UInt8) (off : Nat) (s : List UInt8) : Prop := s <+: d.drop off

instance (d : List UInt8) (off : Nat) (s : List UInt8) : Decidable (At d off s) := inferInstanceAs (Decidable (s <+: _))

/-- Bytes that replace those at an offset. -/
def overwrite (d : List UInt8) (off : Nat) (s : List UInt8) : List UInt8 := d.take off ++ s ++ d.drop (off + s.length)

section

variable {n v off : Nat} {d s xs : List UInt8}

@[simp]
theorem length_le (n v : Nat) : (le n v).length = n := by
  induction n generalizing v with
  | zero => rfl
  | succ n ih => simp [le, ih]

theorem of_le_le (hv : v < 256 ^ n) : of_le (le n v) = v := by
  induction n generalizing v with
  | zero =>
    have hzero : v = 0 := by simpa using hv
    simp [le, of_le, hzero]
  | succ n ih =>
    rw [Nat.pow_succ] at hv
    have hrest : of_le (le n (v / 256)) = v / 256 := ih (by omega)
    simp only [le, of_le, hrest]
    rw [Nat.toUInt8_eq, UInt8.toNat_ofNat']
    omega

theorem le_of_le (s : List UInt8) : le s.length (of_le s) = s := by
  induction s with
  | nil => rfl
  | cons b s ih =>
    have hb := b.toNat_lt
    have hlow : (b.toNat + 256 * of_le s) % 256 = b.toNat := by omega
    have hrest : (b.toNat + 256 * of_le s) / 256 = of_le s := by omega
    rw [of_le, List.length_cons, le, hlow, hrest, ih]
    simp

theorem split_append (hlength : xs.length = n) : split n (xs ++ s) = some (xs, s) := by
  simp [split, ← hlength]

theorem read_isSome : (read n d off).isSome ↔ off + n ≤ d.length := by
  rw [read]
  split <;> simp_all

theorem slice_isSome : (slice n d off).isSome ↔ off + n ≤ d.length := by
  rw [slice]
  split <;> simp_all

theorem length_of_slice (hs : slice n d off = some s) : s.length = n := by
  rw [slice] at hs
  split at hs
  · obtain rfl := Option.some.inj hs
    rw [List.length_take, List.length_drop]
    omega
  · cases hs

/-- A chain of reads stays inside when each of them does. -/
theorem isSome_bind {α β : Type} {x : Option α} {f : α → Option β} (hx : x.isSome)
    (hf : ∀ a, x = some a → (f a).isSome) : (x >>= f).isSome := by
  obtain ⟨a, ha⟩ := Option.isSome_iff_exists.mp hx
  rw [ha]
  exact hf a ha

theorem Returns.bind {α β : Type} {P : α → Prop} {Q : β → Prop} {x : Option α} {f : α → Option β} (hx : Returns P x)
    (hf : ∀ a, P a → Returns Q (f a)) : Returns Q (x >>= f) := by
  obtain ⟨a, rfl, ha⟩ := hx
  exact hf a ha

theorem Returns.map {α β : Type} {P : α → Prop} {Q : β → Prop} {x : Option α} {f : α → β} (hx : Returns P x)
    (hf : ∀ a, P a → Q (f a)) : Returns Q (x.map f) := by
  obtain ⟨a, rfl, ha⟩ := hx
  exact ⟨f a, rfl, hf a ha⟩

theorem of_le_lt (s : List UInt8) : of_le s < 256 ^ s.length := by
  induction s with
  | nil => simp [of_le]
  | cons b s ih =>
    have hb := b.toNat_lt
    rw [of_le, List.length_cons, Nat.pow_succ]
    omega

theorem At.length_le (h : At d off s) (hs : s ≠ []) : off + s.length ≤ d.length := by
  have hlength := List.IsPrefix.length_le h
  have hpos := List.length_pos_iff.mpr hs
  rw [List.length_drop] at hlength
  omega

theorem at_append : At d off (xs ++ s) ↔ At d off xs ∧ At d (off + xs.length) s := by
  constructor
  · rintro ⟨rest, hrest⟩
    refine ⟨⟨s ++ rest, by rw [← hrest, List.append_assoc]⟩, rest, ?_⟩
    rw [← List.drop_drop, ← hrest, List.append_assoc, List.drop_left]
  · rintro ⟨⟨rest, hrest⟩, rest', hrest'⟩
    refine ⟨rest', ?_⟩
    rw [← List.drop_drop, ← hrest, List.drop_left] at hrest'
    rw [← hrest, List.append_assoc, hrest']

theorem at_cons {c : UInt8} : At d off (c :: s) ↔ d[off]? = some c ∧ At d (off + 1) s := by
  rw [← List.singleton_append, at_append]
  refine and_congr_left fun _ => ?_
  rw [At, ← List.head?_drop]
  cases d.drop off with
  | nil => simp
  | cons b rest => simp [eq_comm]

/-- What is at an offset is read from it. -/
theorem At.read (h : At d off (le n v)) (hn : 0 < n) (hv : v < 256 ^ n) : read n d off = some v := by
  have hsome : le n v ≠ [] := by
    rw [← List.length_pos_iff, Bytes.length_le]
    exact hn
  have hin := h.length_le hsome
  rw [Bytes.length_le] at hin
  obtain ⟨rest, hrest⟩ := h
  rw [Bytes.read, if_pos hin, ← hrest, List.take_left' (Bytes.length_le n v), of_le_le hv]

theorem At.slice (h : At d off s) (hs : s.length = n) (hn : 0 < n) : slice n d off = some s := by
  have hin := h.length_le (List.ne_nil_of_length_pos (by omega))
  obtain ⟨rest, hrest⟩ := h
  rw [Bytes.slice, if_pos (by omega), ← hrest, List.take_left' hs]

theorem at_iff : At d off s ↔ ∀ i < s.length, d[off + i]? = s[i]? := by
  rw [At, List.prefix_iff_getElem?]
  refine forall_congr' fun i => forall_congr' fun hi => ?_
  rw [List.getElem?_drop, List.getElem?_eq_getElem hi]

/-- What is read from an offset is at it. -/
theorem at_of_read (h : read n d off = some v) : At d off (le n v) := by
  rw [read] at h
  split at h
  · rename_i hin
    cases h
    have hlength : ((d.drop off).take n).length = n := by
      rw [List.length_take, List.length_drop]
      omega
    have hbytes := le_of_le ((d.drop off).take n)
    rw [hlength] at hbytes
    rw [hbytes, At]
    exact List.take_prefix n (d.drop off)
  · cases h

theorem read_lt (h : read n d off = some v) : v < 256 ^ n := by
  rw [read] at h
  split at h
  · cases h
    have hlength : ((d.drop off).take n).length = n := by
      rw [List.length_take, List.length_drop]
      omega
    have hlt := of_le_lt ((d.drop off).take n)
    rwa [hlength] at hlt
  · cases h

/-- Bytes are read in a file that has them as they are read on their own. -/
theorem At.read_add {k : Nat} (h : At d off s) (hn : 0 < n) (hin : k + n ≤ s.length) :
    Bytes.read n d (off + k) = Bytes.read n s k := by
  have hfile := h.length_le (List.ne_nil_of_length_pos (by omega))
  obtain ⟨rest, hrest⟩ := h
  have htake : (d.drop (off + k)).take n = (s.drop k).take n := by
    rw [← List.drop_drop, ← hrest, List.drop_append_of_le_length (by omega), List.take_append_of_le_length]
    rw [List.length_drop]
    omega
  rw [Bytes.read, Bytes.read, if_pos (by omega), if_pos hin, htake]

theorem length_overwrite (h : off + s.length ≤ d.length) : (overwrite d off s).length = d.length := by
  simp only [overwrite, List.length_append, List.length_take, List.length_drop]
  omega

theorem overwrite_inside {i : Nat} (h : off + s.length ≤ d.length) (hi : i < s.length) :
    (overwrite d off s)[off + i]? = s[i]? := by
  have htake : (d.take off).length = off := by
    rw [List.length_take]
    omega
  rw [overwrite, List.append_assoc, List.getElem?_append_right (by omega), htake, Nat.add_sub_cancel_left,
    List.getElem?_append_left hi]

theorem overwrite_outside {i : Nat} (h : off + s.length ≤ d.length) (hi : i < off ∨ off + s.length ≤ i) :
    (overwrite d off s)[i]? = d[i]? := by
  have htake : (d.take off).length = off := by
    rw [List.length_take]
    omega
  rcases hi with hi | hi
  · rw [overwrite, List.append_assoc, List.getElem?_append_left (by omega), List.getElem?_take_of_lt hi]
  · rw [overwrite, List.getElem?_append_right (by rw [List.length_append]; omega), List.length_append, htake,
      List.getElem?_drop, Nat.add_sub_cancel' hi]

end

end Bytes
