import Mathlib.Algebra.Group.Nat.Defs
import ReverseSlop.Core.Disasm.HyperionSession
import ReverseSlop.Library.Keyed
import ReverseSlop.Library.Positions

namespace slop.core.disasm.hyperion_session

open Search (upper_bound Ascending mem_take_upper_bound)

/-- An `unordered_map` by address, in the order in which it is walked. -/
structure va_map_t (α : Type) where
  entries : List (UInt64 × α) := []
  distinct : Keyed.Distinct Prod.fst entries := by exact List.Pairwise.nil

def va_map_t.find {α : Type} (m : va_map_t α) (va : UInt64) : Option (UInt64 × α) := m.entries.find? fun e => e.1 = va

/-- A block of a function, under its start. -/
structure BasicBlock where
  «end» : UInt64

structure Function where
  blocks : va_map_t BasicBlock := {}

abbrev funcs_t := va_map_t Function

/-- A range of the index; a function is named by its key. -/
structure BlockRange where
  start : UInt64
  «end» : UInt64
  func : UInt64
  deriving DecidableEq

def Function.block_ranges (entry : UInt64) (f : Function) : List BlockRange :=
  (f.blocks.entries.filter fun b => ¬ b.2.end ≤ b.1).map fun b => ⟨b.1, b.2.end, entry⟩

/-- What `build_interval_index` collects, before it sorts. -/
def collect (funcs : funcs_t) : List BlockRange := funcs.entries.flatMap fun e => e.2.block_ranges e.1

/-- The walk back from the range in front of the upper bound. -/
def walk_back (va : UInt64) : List BlockRange → Option UInt64
  | [] => none
  | r :: rest => if va < r.end then some r.func else if va - r.start > (1 : UInt64) <<< 20 then none else walk_back va rest

def search (block_ranges : List BlockRange) (va : UInt64) : Option UInt64 :=
  walk_back va (block_ranges.take (upper_bound (fun r => va < r.start) block_ranges)).reverse

/-- The index: a sorted list, or one that the worker has begun to write. -/
inductive index_t where
  | built (block_ranges : List BlockRange)
  | writing
  deriving DecidableEq

/-- The session as far as function lookup goes. -/
structure lookup_t where
  pipeline : pipeline_t := {}
  funcs : funcs_t := {}
  index : index_t := .built []

def lookup_t.ready (s : lookup_t) : Bool := s.pipeline.ready

def lookup_t.function_entry (s : lookup_t) (va : UInt64) : Option UInt64 :=
  if s.ready then (s.funcs.find va).map Prod.fst else none

/-- `none` is a read of the index while the worker writes it. -/
def lookup_t.function_at (s : lookup_t) (va : UInt64) : Option (Option UInt64) :=
  if s.ready then
    match s.function_entry va with
    | some exact => some (some exact)
    | none =>
      match s.index with
      | .built block_ranges => some (search block_ranges va)
      | .writing => none
  else some none

inductive lookup_op_t where
  | begin (parsed : Bool)
  | analyzed (generated : UInt64 → Option String) (funcs : funcs_t)
  | set_error
  | apply
  | publish
  /-- `build_interval_index` up to its first write, then the rest: `std::sort` leaves ranges with one
  start in any order. -/
  | build
  | indexed (block_ranges : List BlockRange)
  | queue_names (names : names_t)
  | queue_test

/-- The step of the pipeline that goes with a step. -/
def lookup_op_t.pipeline : lookup_op_t → Option pipeline_op_t
  | .begin parsed => some (.begin parsed)
  | .analyzed generated _ => some (.analyzed generated)
  | .set_error => some .set_error
  | .apply => some .apply
  | .publish => some .publish
  | .build => none
  | .indexed _ => some .indexed
  | .queue_names names => some (.queue_names names)
  | .queue_test => some .queue_test

/-- A list of ranges in the order that the sort leaves. -/
def SortedFrom (block_ranges collected : List BlockRange) : Prop :=
  block_ranges.Perm collected ∧ block_ranges.Pairwise fun a b => a.start ≤ b.start

/-- The index is built in its place in the pipeline. -/
def lookup_t.Enabled (s : lookup_t) : lookup_op_t → Prop
  | .build => s.pipeline.worker = some .index ∧ s.index ≠ .writing
  | .indexed block_ranges => s.index = .writing ∧ SortedFrom block_ranges (collect s.funcs)
  | _ => True

/-- The database and the index after a step. -/
def lookup_t.write (s : lookup_t) : lookup_op_t → lookup_t
  | .begin parsed => { s with funcs := if parsed then {} else s.funcs, index := .built [] }
  | .analyzed _ funcs => { s with funcs }
  | .build => { s with index := .writing }
  | .indexed block_ranges => { s with index := .built block_ranges }
  | _ => s

def lookup_t.step (s : lookup_t) (op : lookup_op_t) : Option lookup_t :=
  match op.pipeline with
  | none => some (s.write op)
  | some op' => (s.pipeline.step op').map fun pipeline => { s.write op with pipeline }

/-- No block is longer than one MiB. -/
def Bounded (funcs : funcs_t) : Prop :=
  ∀ e ∈ funcs.entries, ∀ b ∈ e.2.blocks.entries, b.2.end.toNat ≤ b.1.toNat + 2 ^ 20

/-- The steps that can come, of analyses without longer blocks. -/
def Looks (s : lookup_t) (op : lookup_op_t) : Prop :=
  s.Enabled op ∧ ∀ generated funcs, op = .analyzed generated funcs → Bounded funcs

/-- The address is in a block of the function. -/
def Function.Holds (f : Function) (va : UInt64) : Prop := ∃ b ∈ f.blocks.entries, b.1 ≤ va ∧ va < b.2.end

def IsEntry (funcs : funcs_t) (va : UInt64) : Prop := ∃ e ∈ funcs.entries, e.1 = va

def InBlock (funcs : funcs_t) (va : UInt64) : Prop := ∃ e ∈ funcs.entries, e.2.Holds va

/-- The lookup finds a function exactly for the entries and for what is in a block, and the function
found contains the address. -/
def lookup_t.Exact (s : lookup_t) (va : UInt64) : Prop :=
  ∃ found, s.function_at va = some found ∧ (found.isSome = true ↔ IsEntry s.funcs va ∨ InBlock s.funcs va) ∧
    ∀ entry ∈ found, ∃ f, (entry, f) ∈ s.funcs.entries ∧ (entry = va ∨ f.Holds va)

theorem mem_collect {funcs : funcs_t} {r : BlockRange} : r ∈ collect funcs ↔
    ∃ f, (r.func, f) ∈ funcs.entries ∧ ∃ b ∈ f.blocks.entries, b.1 = r.start ∧ b.2.end = r.end ∧ r.start < r.end := by
  rw [collect, List.mem_flatMap]
  constructor
  · rintro ⟨⟨entry, f⟩, he, hr⟩
    obtain ⟨b, hb, rfl⟩ := List.mem_map.mp hr
    obtain ⟨hmem, hkept⟩ := List.mem_filter.mp hb
    exact ⟨f, he, b, hmem, rfl, rfl, UInt64.not_le.mp (of_decide_eq_true hkept)⟩
  · rintro ⟨f, he, b, hb, hstart, hend, hlt⟩
    refine ⟨(r.func, f), he, List.mem_map.mpr ⟨b, List.mem_filter.mpr ⟨hb, ?_⟩, ?_⟩⟩
    · rw [hstart, hend]
      exact decide_eq_true (UInt64.not_le.mpr hlt)
    · rw [hstart, hend]

/-- An address is in a block exactly when it is in a range that is collected. -/
theorem inBlock_iff {funcs : funcs_t} {va : UInt64} :
    InBlock funcs va ↔ ∃ r ∈ collect funcs, r.start ≤ va ∧ va < r.end := by
  constructor
  · rintro ⟨e, he, b, hb, hle, hlt⟩
    refine ⟨⟨b.1, b.2.end, e.1⟩, mem_collect.mpr ⟨e.2, he, b, hb, rfl, rfl, ?_⟩, hle, hlt⟩
    exact UInt64.lt_of_le_of_lt hle hlt
  · rintro ⟨r, hr, hle, hlt⟩
    obtain ⟨f, he, b, hb, hstart, hend, -⟩ := mem_collect.mp hr
    exact ⟨_, he, b, hb, hstart ▸ hle, hend ▸ hlt⟩

theorem walk_back_eq_some {l : List BlockRange} {va entry : UInt64} (hfound : walk_back va l = some entry) :
    ∃ r ∈ l, va < r.end ∧ r.func = entry := by
  induction l with
  | nil => cases hfound
  | cons r rest ih =>
    rw [walk_back] at hfound
    split at hfound
    case isTrue hlt => exact ⟨r, List.mem_cons_self, hlt, Option.some.inj hfound⟩
    case isFalse =>
      split at hfound
      · cases hfound
      · obtain ⟨r', hr', hspec⟩ := ih hfound
        exact ⟨r', List.mem_cons_of_mem r hr', hspec⟩

/-- The walk back gives up only past the ranges that could hold the address. -/
theorem walk_back_eq_none {l : List BlockRange} {va : UInt64} (hdesc : l.Pairwise fun a b => b.start ≤ a.start)
    (hle : ∀ r ∈ l, r.start ≤ va) (hlen : ∀ r ∈ l, r.end.toNat ≤ r.start.toNat + 2 ^ 20)
    (hnone : walk_back va l = none) : ∀ r ∈ l, ¬ va < r.end := by
  induction l with
  | nil => exact fun r hr => nomatch hr
  | cons r rest ih =>
    obtain ⟨hfirst, hdesc⟩ := List.pairwise_cons.mp hdesc
    obtain ⟨hler, hle⟩ := List.forall_mem_cons.mp hle
    obtain ⟨-, hlen⟩ := List.forall_mem_cons.mp hlen
    rw [walk_back] at hnone
    split at hnone
    · cases hnone
    case isFalse hout =>
      split at hnone
      case isTrue hfar =>
        have hlimit : ((1 : UInt64) <<< 20).toNat = 2 ^ 20 := rfl
        rw [gt_iff_lt, UInt64.lt_iff_toNat_lt, hlimit, UInt64.toNat_sub_of_le _ _ hler] at hfar
        refine List.forall_mem_cons.mpr ⟨hout, fun r' hr' hlt => ?_⟩
        have hstart := UInt64.le_iff_toNat_le.mp (hfirst r' hr')
        have hend := hlen r' hr'
        rw [UInt64.lt_iff_toNat_lt] at hlt
        omega
      · exact List.forall_mem_cons.mpr ⟨hout, ih hdesc hle hlen hnone⟩

variable {block_ranges : List BlockRange}

/-- The lookup in a sorted index of short ranges. -/
theorem search_spec {va : UInt64}
    (hsorted : block_ranges.Pairwise fun a b => a.start ≤ b.start)
    (hlen : ∀ r ∈ block_ranges, r.end.toNat ≤ r.start.toNat + 2 ^ 20) :
    ((search block_ranges va).isSome = true ↔ ∃ r ∈ block_ranges, r.start ≤ va ∧ va < r.end) ∧
      ∀ entry ∈ search block_ranges va, ∃ r ∈ block_ranges, r.start ≤ va ∧ va < r.end ∧ r.func = entry := by
  have hascending : Ascending (fun r : BlockRange => decide (va < r.start)) block_ranges :=
    hsorted.imp fun hab habove => decide_eq_true (UInt64.lt_of_lt_of_le (of_decide_eq_true habove) hab)
  have hmem : ∀ r, r ∈ (block_ranges.take (upper_bound (fun r => va < r.start) block_ranges)).reverse ↔
      r ∈ block_ranges ∧ r.start ≤ va := by
    intro r
    rw [List.mem_reverse, mem_take_upper_bound hascending, decide_eq_false_iff_not, UInt64.not_lt]
  have hsome : ∀ entry ∈ search block_ranges va, ∃ r ∈ block_ranges, r.start ≤ va ∧ va < r.end ∧ r.func = entry := by
    intro entry hentry
    obtain ⟨r, hr, hlt, hfunc⟩ := walk_back_eq_some hentry
    obtain ⟨hr, hle⟩ := (hmem r).mp hr
    exact ⟨r, hr, hle, hlt, hfunc⟩
  refine ⟨⟨fun hfound => ?_, ?_⟩, hsome⟩
  · obtain ⟨entry, hentry⟩ := Option.isSome_iff_exists.mp hfound
    obtain ⟨r, hr, hle, hlt, -⟩ := hsome entry hentry
    exact ⟨r, hr, hle, hlt⟩
  · rintro ⟨r, hr, hle, hlt⟩
    by_contra hnone
    have hnone : search block_ranges va = none := by simpa using hnone
    refine walk_back_eq_none ?_ (fun r hr => ((hmem r).mp hr).2) (fun r hr => hlen r ((hmem r).mp hr).1) hnone r
      ((hmem r).mpr ⟨hr, hle⟩) hlt
    exact List.pairwise_reverse.mpr (hsorted.sublist (List.take_sublist _ _))

/-- What holds of the index at each point of the pipeline. -/
structure Published (s : lookup_t) : Prop where
  bounded : Bounded s.funcs
  ready : s.ready = true → s.pipeline.worker = none ∨ s.pipeline.worker = some .index
  pending : ∀ pc ∈ s.pipeline.worker, s.index = .built [] ∨ pc = .index ∧ s.index = .writing
  done : s.ready = true → s.pipeline.worker = none →
    ∃ block_ranges, s.index = .built block_ranges ∧ SortedFrom block_ranges (collect s.funcs)

section

variable {s s' : lookup_t}

theorem Published.init : Published {} := ⟨nofun, nofun, nofun, nofun⟩

/-- A step of the pipeline that goes on from a point before the session is ready. -/
theorem Published.not_ready (h : Published s) {pc : pc_t} (hworker : s.pipeline.worker = some pc) (hpc : pc ≠ .index) :
    s.pipeline.ready = false ∧ s.index = .built [] := by
  refine ⟨?_, ?_⟩
  · by_contra hready
    rcases h.ready (Bool.not_eq_false _ ▸ hready) with hnone | hindex
    · rw [hworker] at hnone
      cases hnone
    · rw [hworker] at hindex
      exact hpc (Option.some.inj hindex)
  · rcases h.pending pc hworker with hbuilt | ⟨hindex, -⟩
    · exact hbuilt
    · exact absurd hindex hpc

theorem Published.begin {parsed : Bool} (h : Published s) (hstep : s.step (.begin parsed) = some s') :
    Published s' := by
  obtain ⟨p, hp, rfl⟩ := Option.map_eq_some_iff.mp hstep
  obtain ⟨-, hp⟩ := Option.ite_none_right_eq_some.mp hp
  cases hp
  refine ⟨?_, nofun, fun pc _ => Or.inl rfl, nofun⟩
  cases parsed with
  | false => exact h.bounded
  | true => exact nofun

theorem Published.analyzed {generated : UInt64 → Option String} {funcs : funcs_t} (h : Published s)
    (hbounded : Bounded funcs) (hstep : s.step (.analyzed generated funcs) = some s') : Published s' := by
  obtain ⟨p, hp, rfl⟩ := Option.map_eq_some_iff.mp hstep
  obtain ⟨hworker, hp⟩ := Option.ite_none_right_eq_some.mp hp
  cases hp
  obtain ⟨hready, hindex⟩ := h.not_ready hworker nofun
  refine ⟨hbounded, fun hset => ?_, fun _ _ => Or.inl hindex, nofun⟩
  exact absurd (hready.symm.trans hset) Bool.false_ne_true

theorem Published.set_error (h : Published s) (hstep : s.step .set_error = some s') : Published s' := by
  obtain ⟨p, hp, rfl⟩ := Option.map_eq_some_iff.mp hstep
  obtain ⟨-, hp⟩ := Option.ite_none_left_eq_some.mp hp
  cases hp
  exact ⟨h.bounded, nofun, nofun, nofun⟩

theorem Published.apply (h : Published s) (hstep : s.step .apply = some s') : Published s' := by
  obtain ⟨p, hp, rfl⟩ := Option.map_eq_some_iff.mp hstep
  obtain ⟨⟨hworker, -⟩, hp⟩ := Option.ite_none_right_eq_some.mp hp
  cases hp
  obtain ⟨hready, hindex⟩ := h.not_ready hworker nofun
  refine ⟨h.bounded, fun hset => ?_, fun _ _ => Or.inl hindex, nofun⟩
  exact absurd (hready.symm.trans hset) Bool.false_ne_true

theorem Published.publish (h : Published s) (hstep : s.step .publish = some s') : Published s' := by
  obtain ⟨p, hp, rfl⟩ := Option.map_eq_some_iff.mp hstep
  obtain ⟨hworker, hp⟩ := Option.ite_none_right_eq_some.mp hp
  cases hp
  obtain ⟨-, hindex⟩ := h.not_ready hworker nofun
  exact ⟨h.bounded, fun _ => Or.inr rfl, fun _ _ => Or.inl hindex, nofun⟩

theorem Published.build (h : Published s) (henabled : s.Enabled .build) (hstep : s.step .build = some s') :
    Published s' := by
  obtain rfl := Option.some.inj hstep
  obtain ⟨hworker, -⟩ := henabled
  refine ⟨h.bounded, h.ready, fun pc hpc => Or.inr ⟨?_, rfl⟩, fun _ hnone => ?_⟩
  · exact Option.some.inj (hpc.symm.trans hworker)
  · exact absurd (hnone.symm.trans hworker) nofun

theorem Published.indexed (h : Published s) (henabled : s.Enabled (.indexed block_ranges))
    (hstep : s.step (.indexed block_ranges) = some s') : Published s' := by
  obtain ⟨p, hp, rfl⟩ := Option.map_eq_some_iff.mp hstep
  obtain ⟨-, hp⟩ := Option.ite_none_right_eq_some.mp hp
  cases hp
  obtain ⟨-, hsorted⟩ := henabled
  exact ⟨h.bounded, fun _ => Or.inl rfl, nofun, fun _ _ => ⟨block_ranges, rfl, hsorted⟩⟩

/-- Queueing names leaves the worker, the flag and the index alone. -/
theorem Published.queue_names {names : names_t} (h : Published s) (hstep : s.step (.queue_names names) = some s') :
    Published s' := by
  obtain ⟨p, hp, rfl⟩ := Option.map_eq_some_iff.mp hstep
  obtain ⟨-, hp⟩ := Option.ite_none_right_eq_some.mp hp
  cases hp
  exact ⟨h.bounded, h.ready, h.pending, h.done⟩

theorem Published.queue_test (h : Published s) (hstep : s.step .queue_test = some s') : Published s' := by
  obtain ⟨p, hp, rfl⟩ := Option.map_eq_some_iff.mp hstep
  obtain ⟨names, -, rfl⟩ := Option.map_eq_some_iff.mp hp
  by_cases hready : s.pipeline.ready = true
  · rw [if_pos hready]
    exact ⟨h.bounded, h.ready, h.pending, h.done⟩
  · rw [if_neg hready]
    exact ⟨h.bounded, h.ready, h.pending, h.done⟩

theorem Published.step {op : lookup_op_t} (h : Published s) (hlooks : Looks s op) (hstep : s.step op = some s') :
    Published s' := by
  obtain ⟨henabled, hbounded⟩ := hlooks
  cases op with
  | begin parsed => exact h.begin hstep
  | analyzed generated funcs => exact h.analyzed (hbounded generated funcs rfl) hstep
  | set_error => exact h.set_error hstep
  | apply => exact h.apply hstep
  | publish => exact h.publish hstep
  | build => exact h.build henabled hstep
  | indexed block_ranges => exact h.indexed henabled hstep
  | queue_names names => exact h.queue_names hstep
  | queue_test => exact h.queue_test hstep

variable {va : UInt64}

theorem find_eq_none {funcs : funcs_t} (hnot : ¬ IsEntry funcs va) : funcs.find va = none :=
  List.find?_eq_none.mpr fun e he hkey => hnot ⟨e, he, of_decide_eq_true hkey⟩

theorem find_eq_some {funcs : funcs_t} {e : UInt64 × Function} (hfind : funcs.find va = some e) :
    e ∈ funcs.entries ∧ e.1 = va := by
  rw [va_map_t.find] at hfind
  have hkey := List.find?_some hfind
  exact ⟨List.mem_of_find?_eq_some hfind, of_decide_eq_true hkey⟩

/-- An entry is found whatever the index holds. -/
theorem entry_exact (hready : s.ready = true) (hentry : IsEntry s.funcs va) : s.Exact va := by
  obtain ⟨e, he, hkey⟩ := hentry
  cases hfind : s.funcs.find va with
  | none => exact absurd (decide_eq_true hkey) (List.find?_eq_none.mp hfind e he)
  | some e' =>
    obtain ⟨va', f⟩ := e'
    obtain ⟨hmem, rfl⟩ := find_eq_some hfind
    refine ⟨some va', ?_, ?_, ?_⟩
    · rw [lookup_t.function_at, if_pos hready, lookup_t.function_entry, if_pos hready, hfind]
      rfl
    · exact iff_of_true rfl (Or.inl ⟨_, hmem, rfl⟩)
    · intro entry hentry
      cases hentry
      exact ⟨f, hmem, Or.inl rfl⟩

theorem function_at_writing (hready : s.ready = true) (hnot : ¬ IsEntry s.funcs va) (hindex : s.index = .writing) :
    s.function_at va = none := by
  rw [lookup_t.function_at, if_pos hready, lookup_t.function_entry, if_pos hready, find_eq_none hnot, hindex]
  rfl

theorem function_at_built (hready : s.ready = true) (hnot : ¬ IsEntry s.funcs va)
    (hindex : s.index = .built block_ranges) : s.function_at va = some (search block_ranges va) := by
  rw [lookup_t.function_at, if_pos hready, lookup_t.function_entry, if_pos hready, find_eq_none hnot, hindex]
  rfl

/-- The finished index finds what is in a block. -/
theorem indexed_exact (hbounded : Bounded s.funcs) (hready : s.ready = true)
    (hindex : s.index = .built block_ranges) (hsorted : SortedFrom block_ranges (collect s.funcs)) : s.Exact va := by
  by_cases hentry : IsEntry s.funcs va
  · exact entry_exact hready hentry
  · obtain ⟨hperm, hsorted⟩ := hsorted
    have hlen : ∀ r ∈ block_ranges, r.end.toNat ≤ r.start.toNat + 2 ^ 20 := by
      intro r hr
      obtain ⟨f, hf, b, hb, hstart, hend, -⟩ := mem_collect.mp (hperm.mem_iff.mp hr)
      rw [← hstart, ← hend]
      exact hbounded _ hf b hb
    obtain ⟨hsome, hcontains⟩ := @search_spec block_ranges va hsorted hlen
    refine ⟨search block_ranges va, function_at_built hready hentry hindex, ?_, fun entry hfound => ?_⟩
    · rw [hsome, or_iff_right hentry, inBlock_iff]
      exact ⟨fun ⟨r, hr, h⟩ => ⟨r, hperm.mem_iff.mp hr, h⟩, fun ⟨r, hr, h⟩ => ⟨r, hperm.mem_iff.mpr hr, h⟩⟩
    · obtain ⟨r, hr, hle, hlt, rfl⟩ := hcontains entry hfound
      obtain ⟨f, hf, b, hb, hstart, hend, -⟩ := mem_collect.mp (hperm.mem_iff.mp hr)
      exact ⟨f, hf, Or.inr ⟨b, hb, hstart ▸ hle, hend ▸ hlt⟩⟩

/-- Before it is written the index is empty. -/
theorem unindexed_exact_iff (hready : s.ready = true) (hentry : ¬ IsEntry s.funcs va) (hindex : s.index = .built []) :
    s.Exact va ↔ ¬ InBlock s.funcs va := by
  have hnone : s.function_at va = some none := function_at_built hready hentry hindex
  constructor
  · rintro ⟨found, hfound, hiff, -⟩ hblock
    obtain rfl := Option.some.inj (hnone.symm.trans hfound)
    cases hiff.mpr (Or.inr hblock)
  · intro hblock
    exact ⟨none, hnone, iff_of_false nofun (by tauto), nofun⟩

end

/-- In a session that is ready the lookup is exact once the worker is through with the index. Until
then it is exact for the entries, and for what is in no block as long as the worker has not begun to
write the index. -/
theorem function_at_exact_iff {s : lookup_t}
    (hreach : Relation.ReflTransGen (Transition.Step Looks lookup_t.step) {} s) (hready : s.ready = true) (va : UInt64) :
    s.Exact va ↔ (s.pipeline.worker = some .index →
      IsEntry s.funcs va ∨ s.index ≠ .writing ∧ ¬ InBlock s.funcs va) := by
  have hpublished : Published s := Transition.invariant Published.init (fun _ _ _ h hlooks hstep => h.step hlooks hstep) hreach
  rcases hpublished.ready hready with hworker | hworker
  · refine iff_of_true ?_ fun hbusy => ?_
    · obtain ⟨block_ranges, hindex, hsorted⟩ := hpublished.done hready hworker
      exact indexed_exact hpublished.bounded hready hindex hsorted
    · rw [hworker] at hbusy
      cases hbusy
  · rw [hworker, imp_iff_right rfl]
    by_cases hentry : IsEntry s.funcs va
    · exact iff_of_true (entry_exact hready hentry) (Or.inl hentry)
    · rw [or_iff_right hentry]
      rcases hpublished.pending .index hworker with hindex | ⟨-, hindex⟩
      · rw [unindexed_exact_iff hready hentry hindex, hindex, and_iff_right nofun]
      · refine iff_of_false ?_ fun ⟨hne, _⟩ => hne hindex
        rintro ⟨found, hfound, -⟩
        rw [function_at_writing hready hentry hindex] at hfound
        cases hfound

/-- One function of sixteen bytes. -/
def one_func : funcs_t where
  entries := [(0x401000, { blocks := ⟨[(0x401000, ⟨0x401010⟩)], List.pairwise_singleton _ _⟩ })]
  distinct := List.pairwise_singleton _ _

theorem one_func_bounded : Bounded one_func := by
  intro e he b hb
  obtain rfl := List.mem_singleton.mp he
  obtain rfl := List.mem_singleton.mp hb
  decide

theorem one_func_holds : InBlock one_func 0x401004 := by
  refine ⟨_, List.mem_singleton.mpr rfl, _, List.mem_singleton.mpr rfl, ?_, ?_⟩
  · decide
  · decide

theorem one_func_entry : ¬ IsEntry one_func 0x401004 := by
  rintro ⟨e, he, hkey⟩
  obtain rfl := List.mem_singleton.mp he
  exact absurd hkey (by decide)

theorem Looks.of_enabled {s : lookup_t} {op : lookup_op_t} (henabled : s.Enabled op)
    (hop : ∀ generated funcs, op ≠ .analyzed generated funcs) : Looks s op :=
  ⟨henabled, fun generated funcs hsame => absurd hsame (hop generated funcs)⟩

/-- A session that is ready and whose index is still to be built. -/
theorem published_session_reached : ∃ s : lookup_t, Relation.ReflTransGen (Transition.Step Looks lookup_t.step) {} s ∧
    s.ready = true ∧ s.pipeline.worker = some .index ∧ s.funcs = one_func ∧ s.index = .built [] := by
  have hanalyzed : ∀ s : lookup_t, Looks s (.analyzed (fun _ => none) one_func) := by
    refine fun s => ⟨trivial, ?_⟩
    rintro generated funcs ⟨⟩
    exact one_func_bounded
  have hreach : Relation.ReflTransGen (Transition.Step Looks lookup_t.step) {} _ :=
    .head ⟨.begin true, .of_enabled trivial nofun, rfl⟩ <| .head ⟨.analyzed _ _, hanalyzed _, rfl⟩ <|
      .head ⟨.apply, .of_enabled trivial nofun, rfl⟩ <| .head ⟨.publish, .of_enabled trivial nofun, rfl⟩ .refl
  exact ⟨_, hreach, rfl, rfl, rfl, rfl⟩

theorem indexed_session_reached : ∃ s : lookup_t, Relation.ReflTransGen (Transition.Step Looks lookup_t.step) {} s ∧
    s.ready = true ∧ s.pipeline.worker = none ∧ s.funcs = one_func := by
  obtain ⟨s, hreach, hready, hworker, hfuncs, hindex⟩ := published_session_reached
  have hsorted : SortedFrom [⟨0x401000, 0x401010, 0x401000⟩] (collect s.funcs) := by
    rw [hfuncs]
    exact ⟨List.Perm.refl _, List.pairwise_singleton _ _⟩
  have hbuild : s.Enabled .build := ⟨hworker, by rw [hindex]; nofun⟩
  have hindexed : s.pipeline.step .indexed = some { s.pipeline with worker := none } := if_pos hworker
  refine ⟨_, (hreach.tail ⟨.build, .of_enabled hbuild nofun, rfl⟩).tail
    ⟨.indexed _, .of_enabled ⟨rfl, hsorted⟩ nofun, congrArg (Option.map _) hindexed⟩, hready, rfl, hfuncs⟩

/-- An address in the middle of a function is found once the index is built. -/
theorem indexed_session_exact : ∃ s : lookup_t, s.ready = true ∧ InBlock s.funcs 0x401004 ∧ s.Exact 0x401004 := by
  obtain ⟨s, hreach, hready, hworker, hfuncs⟩ := indexed_session_reached
  refine ⟨s, hready, hfuncs ▸ one_func_holds, (function_at_exact_iff hreach hready 0x401004).mpr fun hbusy => ?_⟩
  rw [hworker] at hbusy
  cases hbusy

/-- The address is not found between the store of the flag and the making of the index. -/
theorem published_session_inexact :
    ¬ ∀ s : lookup_t, Relation.ReflTransGen (Transition.Step Looks lookup_t.step) {} s → s.ready = true →
      ∀ va, s.Exact va := by
  intro hlaw
  obtain ⟨s, hreach, hready, -, hfuncs, hindex⟩ := published_session_reached
  have hexact := hlaw s hreach hready 0x401004
  rw [unindexed_exact_iff hready (hfuncs ▸ one_func_entry) hindex, hfuncs] at hexact
  exact hexact one_func_holds

end slop.core.disasm.hyperion_session
