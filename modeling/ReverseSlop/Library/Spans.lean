import Mathlib.Data.List.Pairwise
import Mathlib.Data.List.Sort
import Mathlib.Data.Set.Card

/-! Half-open intervals of numbers, as the list that a scan over marked numbers gives. -/
namespace Spans

/-- The maximal intervals of a set, in order: between two of them there is a gap. -/
structure Maximal (P : Nat → Prop) (l : List (Nat × Nat)) : Prop where
  separated : l.Pairwise fun x y => x.2 < y.1
  nonempty : ∀ x ∈ l, x.1 < x.2
  covers : ∀ a, P a ↔ ∃ x ∈ l, x.1 ≤ a ∧ a < x.2

/-- The numbers where an interval of a set begins. -/
def starts (P : Nat → Prop) : Set Nat := {a | P a ∧ ∀ b, a = b + 1 → ¬ P b}

/-- The intervals that are closed by an unmarked number. An open one may come from before. -/
def closed : Option Nat → List (Nat × Bool) → List (Nat × Nat)
  | _, [] => []
  | none, (a, t) :: l => closed (if t then some a else none) l
  | some s, (a, t) :: l => if t then closed (some s) l else (s, a) :: closed none l

/-- The start of the interval that is still open at the end. -/
def last : Option Nat → List (Nat × Bool) → Option Nat
  | r, [] => r
  | none, (a, t) :: l => last (if t then some a else none) l
  | some s, (_, t) :: l => if t then last (some s) l else last none l

section

variable {P : Nat → Prop} {l pre : List (Nat × Nat)} {a m : Nat} {r : Option Nat} {marks : List (Nat × Bool)}

/-- Two intervals of a list are apart. -/
theorem apart {x y : Nat × Nat} (hl : l.Pairwise fun x y => x.2 < y.1) (hx : x ∈ l) (hy : y ∈ l) (hne : x ≠ y) :
    x.2 < y.1 ∨ y.2 < x.1 := by
  induction l with
  | nil => exact absurd hx List.not_mem_nil
  | cons z l ih =>
    obtain ⟨hz, hl⟩ := List.pairwise_cons.mp hl
    rcases List.mem_cons.mp hx with hxz | hx
    · rcases List.mem_cons.mp hy with hyz | hy
      · exact absurd (hxz.trans hyz.symm) hne
      · exact .inl (hxz ▸ hz y hy)
    · rcases List.mem_cons.mp hy with hyz | hy
      · exact .inr (hyz ▸ hz x hx)
      · exact ih hl hx hy

/-- Intervals begin where they are reported to. -/
theorem Maximal.mem_starts (h : Maximal P l) : a ∈ starts P ↔ ∃ x ∈ l, x.1 = a := by
  constructor
  · rintro ⟨ha, hbefore⟩
    obtain ⟨x, hx, hlow, hhigh⟩ := (h.covers a).mp ha
    refine ⟨x, hx, ?_⟩
    by_contra hne
    obtain ⟨b, rfl⟩ : ∃ b, a = b + 1 := ⟨a - 1, by omega⟩
    exact hbefore b rfl ((h.covers b).mpr ⟨x, hx, by omega, by omega⟩)
  · rintro ⟨x, hx, rfl⟩
    refine ⟨(h.covers _).mpr ⟨x, hx, Nat.le_refl _, h.nonempty x hx⟩, ?_⟩
    rintro b hb hP
    obtain ⟨y, hy, hlow, hhigh⟩ := (h.covers b).mp hP
    have hne : x ≠ y := by
      rintro rfl
      omega
    have hpos := h.nonempty x hx
    rcases apart h.separated hx hy hne with hlt | hlt <;> omega

/-- As many intervals are reported as there are. -/
theorem Maximal.encard_starts (h : Maximal P l) : (starts P).encard = l.length := by
  have hnodup : (l.map Prod.fst).Nodup := by
    refine List.pairwise_map.mpr ?_
    refine (List.Pairwise.and_mem.mp h.separated).imp fun {x y} hxy hsame => ?_
    have hpos := h.nonempty x hxy.1
    omega
  have hset : starts P = ((l.map Prod.fst).toFinset : Set Nat) := by
    ext a
    rw [h.mem_starts, List.coe_toFinset, Set.mem_ofPred_eq, List.mem_map]
  rw [hset, Set.encard_coe_eq_coe_finsetCard, List.toFinset_card_of_nodup hnodup, List.length_map]

/-- A list of intervals that is cut is not one of all. -/
theorem Maximal.length_le (h : Maximal P (l.take m)) (hl : l.Pairwise fun x y => x.2 < y.1) (hstart : ∀ x ∈ l, P x.1) :
    l.length ≤ m := by
  by_contra hlong
  have hlt : m < l.length := by omega
  obtain ⟨y, hy, hlow, hhigh⟩ := (h.covers _).mp (hstart l[m] (List.getElem_mem hlt))
  rw [← List.take_append_drop m l] at hl
  have hmem : l[m] ∈ l.drop m := by
    rw [List.drop_eq_getElem_cons hlt]
    exact List.mem_cons_self
  have hapart := (List.pairwise_append.mp hl).2.2 y hy _ hmem
  omega

theorem Maximal.nil (h : ∀ a, ¬ P a) : Maximal P [] :=
  ⟨.nil, fun _ hx => absurd hx List.not_mem_nil, fun a => iff_of_false (h a) fun ⟨_, hx, _⟩ => List.not_mem_nil hx⟩

/-- An interval is put before those of the numbers that are behind it. -/
theorem Maximal.cons {Q : Nat → Prop} {s e : Nat} (h : Maximal Q l) (hse : s < e) (hbehind : ∀ a, Q a → e < a)
    (hP : ∀ a, P a ↔ (s ≤ a ∧ a < e) ∨ Q a) : Maximal P ((s, e) :: l) := by
  refine ⟨List.pairwise_cons.mpr ⟨fun x hx => ?_, h.separated⟩, List.forall_mem_cons.mpr ⟨hse, h.nonempty⟩, fun a => ?_⟩
  · exact hbehind _ ((h.covers _).mpr ⟨x, hx, Nat.le_refl _, h.nonempty x hx⟩)
  · rw [hP, h.covers, List.exists_mem_cons_iff]

/-- What a scan over increasing numbers leaves: closed intervals, and one that is open. -/
structure Scanned (r : Option Nat) (marks : List (Nat × Bool)) (l : List (Nat × Nat)) (fin : Option Nat) : Prop where
  separated : l.Pairwise fun x y => x.2 < y.1
  start : ∀ x ∈ l, x.1 < x.2 ∧ (r = some x.1 ∨ (x.1, true) ∈ marks)
  stop : ∀ x ∈ l, (x.2, false) ∈ marks
  inside : ∀ x ∈ l, ∀ e ∈ marks, x.1 ≤ e.1 → e.1 < x.2 → e.2 = true
  marked : ∀ e ∈ marks, e.2 = true → (∃ x ∈ l, x.1 ≤ e.1 ∧ e.1 < x.2) ∨ ∃ s, fin = some s ∧ s ≤ e.1
  kept : ∀ s, r = some s → (∃ x ∈ l, x.1 = s) ∨ fin = some s
  start_fin : ∀ s, fin = some s → r = some s ∨ (s, true) ∈ marks
  behind : ∀ s, fin = some s → (∀ x ∈ l, x.2 < s) ∧ ∀ e ∈ marks, s ≤ e.1 → e.2 = true

/-- An unmarked number changes nothing while no interval is open. -/
theorem Scanned.skip {fin : Option Nat} (h : Scanned none marks l fin) (ha : ∀ e ∈ marks, a < e.1) :
    Scanned none ((a, false) :: marks) l fin := by
  have hbehind : ∀ {s}, (s, true) ∈ marks → a < s := fun hs => ha _ hs
  refine ⟨h.separated, fun x hx => ?_, fun x hx => List.mem_cons_of_mem _ (h.stop x hx), fun x hx => ?_, ?_, h.kept,
    fun s hs => ?_, fun s hs => ?_⟩
  · exact ⟨(h.start x hx).1, (h.start x hx).2.imp_right (List.mem_cons_of_mem _)⟩
  · refine List.forall_mem_cons.mpr ⟨fun hlow _ => ?_, h.inside x hx⟩
    rcases (h.start x hx).2 with hnone | hmem
    · cases hnone
    · exact absurd (hbehind hmem) (Nat.not_lt.mpr hlow)
  · exact List.forall_mem_cons.mpr ⟨fun hfalse => absurd hfalse Bool.false_ne_true, h.marked⟩
  · exact (h.start_fin s hs).imp_right (List.mem_cons_of_mem _)
  · refine ⟨(h.behind s hs).1, List.forall_mem_cons.mpr ⟨fun hlow => ?_, (h.behind s hs).2⟩⟩
    rcases h.start_fin s hs with hnone | hmem
    · cases hnone
    · exact absurd (hbehind hmem) (Nat.not_lt.mpr hlow)

/-- A marked number belongs to the interval that is open. -/
theorem Scanned.extend {fin : Option Nat} {s : Nat} (h : Scanned (some s) marks l fin) (ha : ∀ e ∈ marks, a < e.1) (hs : s ≤ a)
    (hr : r = some s ∨ s = a ∧ r = none) : Scanned r ((a, true) :: marks) l fin := by
  have hopen : ∀ {x}, some s = some x → r = some x ∨ (x, true) ∈ (a, true) :: marks := by
    intro x hx
    cases hx
    rcases hr with hr | ⟨rfl, -⟩
    · exact .inl hr
    · exact .inr List.mem_cons_self
  refine ⟨h.separated, fun x hx => ?_, fun x hx => List.mem_cons_of_mem _ (h.stop x hx), fun x hx => ?_, ?_, fun s' hs' => ?_,
    fun s' hs' => ?_, fun s' hs' => ?_⟩
  · exact ⟨(h.start x hx).1, (h.start x hx).2.elim hopen fun hmem => .inr (List.mem_cons_of_mem _ hmem)⟩
  · exact List.forall_mem_cons.mpr ⟨fun _ _ => rfl, h.inside x hx⟩
  · refine List.forall_mem_cons.mpr ⟨fun _ => ?_, h.marked⟩
    rcases h.kept s rfl with ⟨x, hx, hxs⟩ | hfin
    · exact .inl ⟨x, hx, by rw [hxs]; exact hs, ha _ (h.stop x hx)⟩
    · exact .inr ⟨s, hfin, hs⟩
  · rcases hr with hr | ⟨-, hr⟩
    · exact h.kept s' (hr.symm.trans hs')
    · rw [hr] at hs'
      cases hs'
  · exact (h.start_fin s' hs').elim hopen fun hmem => .inr (List.mem_cons_of_mem _ hmem)
  · exact ⟨(h.behind s' hs').1, List.forall_mem_cons.mpr ⟨fun _ => rfl, (h.behind s' hs').2⟩⟩

/-- An unmarked number closes the interval that is open. -/
theorem Scanned.close {fin : Option Nat} {s : Nat} (h : Scanned none marks l fin) (ha : ∀ e ∈ marks, a < e.1) (hs : s < a) :
    Scanned (some s) ((a, false) :: marks) ((s, a) :: l) fin := by
  have hskip := h.skip ha
  have hbehind : ∀ x ∈ l, a < x.1 := by
    intro x hx
    rcases (h.start x hx).2 with hnone | hmem
    · cases hnone
    · exact ha _ hmem
  refine ⟨List.pairwise_cons.mpr ⟨hbehind, h.separated⟩, ?_, ?_, ?_, fun e he ht => ?_, fun s' hs' => ?_, fun s' hs' => ?_,
    fun s' hs' => ?_⟩
  · exact List.forall_mem_cons.mpr ⟨⟨hs, .inl rfl⟩, fun x hx =>
      ⟨(hskip.start x hx).1, .inr ((hskip.start x hx).2.resolve_left (Option.some_ne_none _).symm)⟩⟩
  · exact List.forall_mem_cons.mpr ⟨List.mem_cons_self, hskip.stop⟩
  · refine List.forall_mem_cons.mpr ⟨fun e he _ hlt => ?_, hskip.inside⟩
    rcases List.mem_cons.mp he with rfl | he
    · exact absurd hlt (Nat.lt_irrefl _)
    · exact absurd (ha e he) (Nat.not_lt.mpr (Nat.le_of_lt hlt))
  · exact (hskip.marked e he ht).imp_left fun ⟨x, hx, hin⟩ => ⟨x, List.mem_cons_of_mem _ hx, hin⟩
  · cases hs'
    exact .inl ⟨_, List.mem_cons_self, rfl⟩
  · exact .inr ((hskip.start_fin s' hs').resolve_left (Option.some_ne_none _).symm)
  · refine ⟨List.forall_mem_cons.mpr ⟨?_, (hskip.behind s' hs').1⟩, (hskip.behind s' hs').2⟩
    rcases h.start_fin s' hs' with hnone | hmem
    · cases hnone
    · exact ha _ hmem

theorem scanned (hmarks : marks.Pairwise fun e e' => e.1 < e'.1) (hr : ∀ s, r = some s → ∀ e ∈ marks, s < e.1) :
    Scanned r marks (closed r marks) (last r marks) := by
  induction marks generalizing r with
  | nil =>
    have hnil : ∀ {α : Type} {x : α}, x ∉ ([] : List α) := List.not_mem_nil
    rw [closed, last]
    refine ⟨.nil, ?_, ?_, ?_, ?_, ?_, ?_, ?_⟩
    · exact fun x hx => absurd hx hnil
    · exact fun x hx => absurd hx hnil
    · exact fun x hx => absurd hx hnil
    · exact fun e he => absurd he hnil
    · exact fun s hs => .inr hs
    · exact fun s hs => .inl hs
    · exact fun s _ => ⟨fun x hx => absurd hx hnil, fun e he => absurd he hnil⟩
  | cons e marks ih =>
    obtain ⟨a, t⟩ := e
    obtain ⟨ha, hsorted⟩ := List.pairwise_cons.mp hmarks
    have hnone : Scanned none marks (closed none marks) (last none marks) := ih hsorted fun s hs => by cases hs
    cases r with
    | none =>
      cases t with
      | false => exact hnone.skip ha
      | true =>
        have hopen : Scanned (some a) marks (closed (some a) marks) (last (some a) marks) :=
          ih hsorted fun s hs => by cases hs; exact ha
        exact hopen.extend ha (Nat.le_refl a) (.inr ⟨rfl, rfl⟩)
    | some s =>
      obtain ⟨hs, hrest⟩ := List.forall_mem_cons.mp (hr s rfl)
      cases t with
      | false => exact hnone.close ha hs
      | true =>
        have hopen : Scanned (some s) marks (closed (some s) marks) (last (some s) marks) :=
          ih hsorted fun s' hs' => by cases hs'; exact hrest
        exact hopen.extend ha (Nat.le_of_lt hs) (.inl rfl)

/-- A set that has an upper bound has maximal intervals. -/
theorem exists_maximal {n : Nat} (hbound : ∀ a, P a → a < n) : ∃ l, Maximal P l := by
  classical
  set marks := (List.range (n + 1)).map fun a => (a, decide (P a)) with hmarks
  have hmem : ∀ {a : Nat} {t : Bool}, (a, t) ∈ marks ↔ a ≤ n ∧ t = decide (P a) := by
    intro a t
    simp only [hmarks, List.mem_map, List.mem_range, Prod.mk.injEq]
    constructor
    · rintro ⟨a, ha, rfl, rfl⟩
      exact ⟨Nat.lt_succ_iff.mp ha, rfl⟩
    · rintro ⟨ha, rfl⟩
      exact ⟨a, Nat.lt_succ_iff.mpr ha, rfl, rfl⟩
  have hsorted : marks.Pairwise fun e e' => e.1 < e'.1 := List.pairwise_map.mpr List.pairwise_lt_range
  have hscan : Scanned none marks (closed none marks) (last none marks) := scanned hsorted fun s hs => by cases hs
  have hlast : ∀ s, last none marks = some s → False := by
    intro s hs
    have hstart := (hscan.start_fin s hs).resolve_left (Option.some_ne_none s).symm
    have hend := (hscan.behind s hs).2 (n, decide (P n)) (hmem.mpr ⟨Nat.le_refl n, rfl⟩) (hmem.mp hstart).1
    exact Nat.lt_irrefl n (hbound n (of_decide_eq_true hend))
  refine ⟨closed none marks, hscan.separated, fun x hx => (hscan.start x hx).1, fun a => ⟨fun ha => ?_, ?_⟩⟩
  · have hin : (a, true) ∈ marks := hmem.mpr ⟨Nat.le_of_lt (hbound a ha), (decide_eq_true ha).symm⟩
    exact (hscan.marked _ hin rfl).resolve_right fun ⟨s, hs, _⟩ => hlast s hs
  · rintro ⟨x, hx, hlo, hhi⟩
    have hstop := (hmem.mp (hscan.stop x hx)).1
    have hmark := hscan.inside x hx (a, decide (P a)) (hmem.mpr ⟨by omega, rfl⟩) hlo hhi
    exact of_decide_eq_true hmark

end

end Spans

namespace Pieces

variable {α : Type} [LinearOrder α]

/-- The intervals between points in their order, the last of them up to an end. -/
def pieces (e : α) : List α → List (α × α)
  | [] => []
  | a :: s => if a < s.headD e then (a, s.headD e) :: pieces e s else pieces e s

section

variable {a e x : α} {s : List α} {p q : α × α}

theorem headD_spec (hle : ∀ a ∈ s, a ≤ e) (hs : s.Pairwise (· < ·)) :
    (s.headD e ∈ s ∨ s.headD e = e) ∧ s.headD e ≤ e ∧ ∀ c ∈ s, s.headD e ≤ c := by
  cases s with
  | nil => simp
  | cons b s =>
    have hb := (List.pairwise_cons.mp hs).1
    refine ⟨Or.inl List.mem_cons_self, hle b List.mem_cons_self, fun c hc => ?_⟩
    rcases List.mem_cons.mp hc with rfl | hc
    · exact le_rfl
    · exact (hb c hc).le

theorem mem_pieces_cons : p ∈ pieces e (a :: s) ↔ (a < s.headD e ∧ p = (a, s.headD e)) ∨ p ∈ pieces e s := by
  rw [pieces]
  split
  · rename_i hlt
    rw [List.mem_cons, and_iff_right hlt]
  · rename_i hnot
    exact (or_iff_right fun h => hnot h.1).symm

/-- A piece is from a point to the next one, or to the end. -/
theorem mem_pieces (hle : ∀ a ∈ s, a ≤ e) (hs : s.Pairwise (· < ·)) :
    p ∈ pieces e s ↔ p.1 ∈ s ∧ p.1 < p.2 ∧ (p.2 ∈ s ∨ p.2 = e) ∧ ∀ c ∈ s, p.1 < c → p.2 ≤ c := by
  induction s with
  | nil => simp [pieces]
  | cons a s ih =>
    obtain ⟨hfirst, hrest⟩ := List.pairwise_cons.mp hs
    obtain ⟨ha, hles⟩ := List.forall_mem_cons.mp hle
    obtain ⟨hnext, hend, hleast⟩ := headD_spec hles hrest
    rw [mem_pieces_cons, ih hles hrest]
    constructor
    · rintro (⟨hlt, rfl⟩ | ⟨hmem, hlt, hstop, hmin⟩)
      · refine ⟨List.mem_cons_self, hlt, hnext.imp_left (List.mem_cons_of_mem a), fun c hc hac => ?_⟩
        exact hleast c ((List.mem_cons.mp hc).resolve_left hac.ne')
      · refine ⟨List.mem_cons_of_mem a hmem, hlt, hstop.imp_left (List.mem_cons_of_mem a), fun c hc hpc => ?_⟩
        refine hmin c ((List.mem_cons.mp hc).resolve_left ?_) hpc
        rintro rfl
        exact absurd (hfirst p.1 hmem) hpc.asymm
    · rintro ⟨hmem, hlt, hstop, hmin⟩
      rcases List.mem_cons.mp hmem with hpa | hlater
      · have hle : p.2 ≤ s.headD e := by
          rcases hnext with hnext | hnext
          · exact hmin _ (List.mem_cons_of_mem a hnext) (hpa ▸ hfirst _ hnext)
          · rw [hnext]
            rcases hstop with hstop | hstop
            · exact hle _ hstop
            · exact hstop.le
        have hge : s.headD e ≤ p.2 := by
          rcases hstop with hstop | hstop
          · exact hleast _ ((List.mem_cons.mp hstop).resolve_left (hpa ▸ hlt.ne'))
          · exact hend.trans hstop.ge
        have heq : p.2 = s.headD e := le_antisymm hle hge
        exact Or.inl ⟨by rw [← heq, ← hpa]; exact hlt, Prod.ext hpa heq⟩
      · refine Or.inr ⟨hlater, hlt, hstop.imp_left fun hstop => ?_, fun c hc => hmin c (List.mem_cons_of_mem a hc)⟩
        refine (List.mem_cons.mp hstop).resolve_left ?_
        rintro rfl
        exact absurd (hfirst p.1 hlater) hlt.asymm

theorem pairwise_pieces (hle : ∀ a ∈ s, a ≤ e) (hs : s.Pairwise (· < ·)) :
    (pieces e s).Pairwise fun p q => p.2 ≤ q.1 := by
  induction s with
  | nil => exact List.Pairwise.nil
  | cons a s ih =>
    have hrest := (List.pairwise_cons.mp hs).2
    have hles := (List.forall_mem_cons.mp hle).2
    rw [pieces]
    split
    · refine List.pairwise_cons.mpr ⟨fun q hq => ?_, ih hles hrest⟩
      exact (headD_spec hles hrest).2.2 _ ((mem_pieces hles hrest).mp hq).1
    · exact ih hles hrest

/-- What is between the first point and the end is in a piece. -/
theorem exists_piece (hle : ∀ a ∈ s, a ≤ e) (hs : s.Pairwise (· < ·)) (hfirst : ∃ a ∈ s, a ≤ x) (hx : x < e) :
    ∃ p ∈ pieces e s, p.1 ≤ x ∧ x < p.2 := by
  induction s with
  | nil =>
    obtain ⟨a, ha, -⟩ := hfirst
    cases ha
  | cons a s ih =>
    have hrest := (List.pairwise_cons.mp hs).2
    have hles := (List.forall_mem_cons.mp hle).2
    by_cases hmore : ∃ b ∈ s, b ≤ x
    · obtain ⟨p, hp, hin⟩ := ih hles hrest hmore
      exact ⟨p, mem_pieces_cons.mpr (Or.inr hp), hin⟩
    · push Not at hmore
      have hax : a ≤ x := by
        obtain ⟨b, hb, hbx⟩ := hfirst
        rcases List.mem_cons.mp hb with rfl | hb
        · exact hbx
        · exact absurd hbx (hmore b hb).not_ge
      have hxs : x < s.headD e := by
        rcases (headD_spec hles hrest).1 with hnext | hnext
        · exact hmore _ hnext
        · rwa [hnext]
      exact ⟨(a, s.headD e), mem_pieces_cons.mpr (Or.inl ⟨hax.trans_lt hxs, rfl⟩), hax, hxs⟩

end

end Pieces
