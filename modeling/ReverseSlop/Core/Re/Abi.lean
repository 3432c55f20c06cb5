import ReverseSlop.Core.Re.TypeCatalog
import ReverseSlop.Library.Arithmetic

namespace slop.core.re.type_catalog

open Numeral (ascii)
open Alignment (Member Placed last_end max_align)

/-- The natural alignment of a type. A base type, a pointer and an enum have their size, a struct that was
defined has that of its most aligned member, and a packed one has none. -/
inductive HasAlignment (c : catalog_t) : List UInt8 → Nat → Prop
  | base {type : List UInt8} (hbase : base_type_size type ≠ 0) : HasAlignment c type (base_type_size type).toNat
  | enum {type : List UInt8} {en : enum_def_t} (hbase : base_type_size type = 0) (hnone : c.find_struct type = none)
    (hfind : c.find_enum type = some en) (hunderlying : base_type_size en.underlying ≠ 0) :
    HasAlignment c type (base_type_size en.underlying).toNat
  | struct {type : List UInt8} {s : struct_def_t} {align : field_t → Nat} (hbase : base_type_size type = 0)
    (hfind : c.find_struct type = some s) (hmembers : ∀ f ∈ s.fields, HasAlignment c f.type (align f)) :
    HasAlignment c type (if s.packed then 1 else s.fields.foldr (fun f most => max (align f) most) 1)

def field_t.count (f : field_t) : Nat := if f.array_count = 0 then 1 else f.array_count.toNat

section

variable (c : catalog_t) (align : field_t → Nat) (packed : Bool)

/-- A member as the ABI sees it: a packed struct aligns none of its members. -/
def catalog_t.member (f : field_t) : Member where
  size := (c.element_size f).toNat * f.count
  align := if packed then 1 else align f

/-- A struct is laid out as the ABI says. -/
def FollowsAbi (d laid : struct_def_t) : Prop :=
  ∃ stop, Placed 0 (d.fields.map (c.member align d.packed)) (laid.fields.map fun f => f.offset.toNat) stop ∧
    IsLeast {x | stop ≤ x ∧ max_align (d.fields.map (c.member align d.packed)) ∣ x} laid.size.toNat

/-- The alignment that a size stands for. -/
def by_size (size : Nat) : Nat := if packed ∨ size = 0 then 1 else min size 8

/-- Rounding up within 64 bits. -/
def round64 (n align : Nat) : Nat := (n + align - 1) % 2 ^ 64 / align * align

/-- Where the ABI puts the members, their sizes stand for the alignments that they have. -/
def AlikeFrom : Nat → List Member → Prop
  | _, [] => True
  | start, m :: members =>
    round64 start (by_size packed m.size) = Alignment.round_up start m.align ∧
      AlikeFrom (Alignment.round_up start m.align + m.size) members

def most_by_size (members : List Member) : Nat := members.foldr (fun m most => max (by_size packed m.size) most) 1

/-- In a struct, rounding up to the sizes leads to the offsets and the size of the ABI. -/
def Alike (members : List Member) : Prop :=
  AlikeFrom packed 0 members ∧
    round64 (last_end 0 members) (most_by_size packed members) = Alignment.round_up (last_end 0 members) (max_align members)

end

section

variable {c : catalog_t} {align : field_t → Nat} {packed : Bool}

theorem HasAlignment.pos {type : List UInt8} {n : Nat} (h : HasAlignment c type n) : 0 < n := by
  cases h with
  | base hbase => exact Nat.pos_of_ne_zero fun hzero => hbase (UInt64.toNat_inj.mp hzero)
  | enum _ _ _ hunderlying => exact Nat.pos_of_ne_zero fun hzero => hunderlying (UInt64.toNat_inj.mp hzero)
  | @struct _ s align =>
    split
    · exact Nat.one_pos
    · induction s.fields with
      | nil => exact Nat.one_pos
      | cons f fields ih => exact Nat.lt_of_lt_of_le ih (Nat.le_max_right _ _)

theorem toNat_round_up {off a : UInt64} (ha : a ≠ 0) : (round_up off a).toNat = round64 off.toNat a.toNat := by
  have hpos : 0 < a.toNat := Nat.pos_of_ne_zero fun hzero => ha (UInt64.toNat_inj.mp hzero)
  have hoff := off.toNat_lt
  have hlt := a.toNat_lt
  have hsum : (off + a - 1).toNat = (off.toNat + a.toNat - 1) % 2 ^ 64 := by
    rw [UInt64.toNat_sub, UInt64.toNat_add, UInt64.toNat_one]
    omega
  have hle : (off.toNat + a.toNat - 1) % 2 ^ 64 / a.toNat * a.toNat ≤ (off.toNat + a.toNat - 1) % 2 ^ 64 :=
    Nat.div_mul_le_self _ _
  rw [round_up, UInt64.toNat_mul, UInt64.toNat_div, hsum, round64]
  omega

theorem round64_lt {n a : Nat} : round64 n a < 2 ^ 64 :=
  Nat.lt_of_le_of_lt (Nat.div_mul_le_self _ _) (Nat.mod_lt _ (by decide))

theorem round64_one {n : Nat} (hn : n < 2 ^ 64) : round64 n 1 = n := by
  rw [round64, Nat.add_sub_cancel, Nat.mod_eq_of_lt hn, Nat.div_one, Nat.mul_one]

theorem toNat_align_of {sz : UInt64} (hsz : sz ≠ 0) : (align_of packed sz).toNat = by_size packed sz.toNat := by
  have hpos : sz.toNat ≠ 0 := fun hzero => hsz (UInt64.toNat_inj.mp hzero)
  cases packed with
  | true => rfl
  | false =>
    simp only [align_of, by_size, Bool.false_eq_true, false_or, if_false, if_neg hpos]
    rcases Nat.le_total sz.toNat 8 with hle | hle
    · have hmin : min sz 8 = sz := if_pos (UInt64.le_iff_toNat_le.mpr hle)
      rw [hmin, Nat.min_eq_left hle]
    · have hmin : (min sz 8).toNat = 8 := by
        change (if sz ≤ 8 then sz else 8).toNat = 8
        split
        · rename_i hsmall
          exact Nat.le_antisymm (UInt64.le_iff_toNat_le.mp hsmall) hle
        · rfl
      rw [hmin, Nat.min_eq_right hle]

theorem align_of_ne_zero {sz : UInt64} (hsz : sz ≠ 0) : align_of packed sz ≠ 0 := by
  have hpos : sz.toNat ≠ 0 := fun hzero => hsz (UInt64.toNat_inj.mp hzero)
  intro hzero
  have hsize : (align_of packed sz).toNat = by_size packed sz.toNat := toNat_align_of hsz
  rw [hzero, by_size, UInt64.toNat_zero] at hsize
  split at hsize <;> omega

theorem toNat_max (x y : UInt64) : (max x y).toNat = max x.toNat y.toNat := by
  change (if x ≤ y then y else x).toNat = max x.toNat y.toNat
  split
  · rename_i hle
    rw [Nat.max_eq_right (UInt64.le_iff_toNat_le.mp hle)]
  · rename_i hlt
    have hle : y.toNat ≤ x.toNat := by
      rw [UInt64.le_iff_toNat_le] at hlt
      omega
    rw [Nat.max_eq_left hle]

theorem toNat_total (c : catalog_t) (f : field_t) :
    (f.total (c.element_size f)).toNat = (c.member align packed f).size % 2 ^ 64 := by
  have hlt := (c.element_size f).toNat_lt
  rw [field_t.total, catalog_t.member, field_t.count]
  by_cases hcount : f.array_count = 0
  · simp only [hcount, ne_eq, not_true, if_false, if_true, Nat.mul_one]
    omega
  · rw [if_pos hcount, if_neg hcount, UInt64.toNat_mul, UInt32.toNat_toUInt64]

/-- Members that begin beyond 2^64 are not placed in 64 bits. -/
theorem not_placed_beyond {members : List Member} {offsets : List Nat} {start most : Nat} {size : UInt64}
    (hstart : 2 ^ 64 ≤ start) :
    ¬ ∃ stop, Placed start members offsets stop ∧ IsLeast {x | stop ≤ x ∧ most ∣ x} size.toNat := by
  rintro ⟨stop, hplaced, ⟨hstop, -⟩, -⟩
  have hle := hplaced.le
  have hlt := size.toNat_lt
  omega

theorem round64_ne_beyond {members : List Member} {start most : Nat} (coarse : Nat) (hmembers : ∀ m ∈ members, 0 < m.align)
    (hmost : 0 < most) (hstart : 2 ^ 64 ≤ start) :
    round64 (last_end start members) coarse ≠ Alignment.round_up (last_end start members) most := by
  have hlast := Alignment.le_last_end start hmembers
  have hround : last_end start members ≤ Alignment.round_up (last_end start members) most := Alignment.le_round_up hmost
  have hlt : round64 (last_end start members) coarse < 2 ^ 64 := round64_lt
  omega

/-- What a step does to the offset and the alignment, for a member whose size fits 64 bits. -/
theorem place_spec (align : field_t → Nat) (packed : Bool) (f : field_t) {l : layout_t} (hl : l.max_align ≠ 0) (hfits : (c.member align packed f).size < 2 ^ 64) :
    let step := place packed l f (c.element_size f)
    let coarse := by_size packed (c.member align packed f).size
    step.1.offset.toNat = round64 l.off.toNat coarse ∧
      step.2.off.toNat = (step.1.offset.toNat + (c.member align packed f).size) % 2 ^ 64 ∧
      step.2.max_align.toNat = max l.max_align.toNat coarse ∧ step.2.max_align ≠ 0 := by
  have htotal : (f.total (c.element_size f)).toNat = (c.member align packed f).size := by
    rw [toNat_total, Nat.mod_eq_of_lt hfits]
  have hpos : 1 ≤ l.max_align.toNat := Nat.pos_of_ne_zero fun hzero => hl (UInt64.toNat_inj.mp hzero)
  rw [← htotal]
  by_cases hzero : f.total (c.element_size f) = 0
  · have hplace : place packed l f (c.element_size f) = ({ f with offset := l.off }, l) := if_pos hzero
    have hcoarse : by_size packed (f.total (c.element_size f)).toNat = 1 := by
      rw [hzero]
      exact if_pos (Or.inr rfl)
    have hlt := l.off.toNat_lt
    simp only [hplace, hcoarse, round64_one hlt, Nat.max_eq_left hpos]
    refine ⟨trivial, ?_, trivial, hl⟩
    rw [hzero, UInt64.toNat_zero, Nat.add_zero, Nat.mod_eq_of_lt hlt]
  · have hplace : place packed l f (c.element_size f) =
        ({ f with
            offset := round_up l.off (align_of packed (f.total (c.element_size f)))
            size := f.total (c.element_size f) },
          { off := round_up l.off (align_of packed (f.total (c.element_size f))) + f.total (c.element_size f)
            max_align := max l.max_align (align_of packed (f.total (c.element_size f))) }) := if_neg hzero
    have hmax : (max l.max_align (align_of packed (f.total (c.element_size f)))).toNat =
        max l.max_align.toNat (by_size packed (f.total (c.element_size f)).toNat) := by
      rw [toNat_max, toNat_align_of hzero]
    simp only [hplace]
    refine ⟨?_, UInt64.toNat_add _ _, hmax, ?_⟩
    · rw [toNat_round_up (align_of_ne_zero hzero), toNat_align_of hzero]
    · intro hsame
      rw [hsame, UInt64.toNat_zero] at hmax
      omega

/-- The loop puts the members where the ABI does, and ends where it does, exactly if the roundings agree
along the members of the ABI. -/
theorem placed_iff (packed : Bool) {fields : List field_t} (halign : ∀ f ∈ fields, 0 < align f) {most : Nat} (hmost : 0 < most)
    (l : layout_t) (hl : l.max_align ≠ 0) :
    let result := place_all packed l (fields.map fun f => (f, c.element_size f))
    let members := fields.map (c.member align packed)
    (∃ stop, Placed l.off.toNat members (result.1.map fun f => f.offset.toNat) stop ∧
        IsLeast {x | stop ≤ x ∧ most ∣ x} (round_up result.2.off result.2.max_align).toNat) ↔
      AlikeFrom packed l.off.toNat members ∧
        round64 (last_end l.off.toNat members) (max l.max_align.toNat (most_by_size packed members)) =
          Alignment.round_up (last_end l.off.toNat members) most := by
  induction fields generalizing l with
  | nil =>
    have hpos : 1 ≤ l.max_align.toNat := Nat.pos_of_ne_zero fun hzero => hl (UInt64.toNat_inj.mp hzero)
    simp only [place_all, List.map_nil, Placed, AlikeFrom, last_end, most_by_size, List.foldr_nil, true_and,
      exists_eq_left, toNat_round_up hl, Nat.max_eq_left hpos]
    exact Alignment.isLeast_iff hmost
  | cons f fields ih =>
    obtain ⟨hf, hfields⟩ := List.forall_mem_cons.mp halign
    have hmember : 0 < (c.member align packed f).align := by
      rw [catalog_t.member]
      split
      · exact Nat.one_pos
      · exact hf
    have hmembers : ∀ m ∈ fields.map (c.member align packed), 0 < m.align := by
      intro m hm
      obtain ⟨f, hf, rfl⟩ := List.mem_map.mp hm
      rw [catalog_t.member]
      split
      · exact Nat.one_pos
      · exact hfields f hf
    simp only [place_all, List.map_cons, Placed, AlikeFrom, last_end, most_by_size, List.foldr_cons]
    by_cases hfits : (c.member align packed f).size < 2 ^ 64
    · obtain ⟨hoffset, hoff, hmax, hne⟩ := place_spec align packed f hl hfits
      rw [hoffset] at hoff
      simp only [hoffset, Alignment.isLeast_iff hmember]
      by_cases hround : round64 l.off.toNat (by_size packed (c.member align packed f).size) =
          Alignment.round_up l.off.toNat (c.member align packed f).align
      · rw [hround] at hoff ⊢
        by_cases hend : Alignment.round_up l.off.toNat (c.member align packed f).align + (c.member align packed f).size < 2 ^ 64
        · have hrest := ih hfields _ hne
          dsimp only at hrest
          rw [hoff, Nat.mod_eq_of_lt hend, hmax, Nat.max_assoc] at hrest
          simp only [true_and]
          exact hrest
        · have hbeyond := Nat.not_lt.mp hend
          simp only [true_and]
          exact iff_of_false (not_placed_beyond hbeyond) fun h => round64_ne_beyond _ hmembers hmost hbeyond h.2
      · refine iff_of_false ?_ fun h => hround h.1.1
        rintro ⟨_, ⟨hsame, -⟩, -⟩
        exact hround hsame
    · -- a member that is too large ends too far out wherever it begins
      have hbeyond : ∀ start, 2 ^ 64 ≤ start + (c.member align packed f).size := fun start => by omega
      refine iff_of_false ?_ fun h => round64_ne_beyond _ hmembers hmost (hbeyond _) h.2
      rintro ⟨stop, ⟨-, hplaced⟩, hleast⟩
      exact not_placed_beyond (hbeyond _) ⟨stop, hplaced, hleast⟩

/-- The loop of a packed struct aligns nothing. -/
theorem place_packed {l : layout_t} (hl : l.max_align = 1) (f : field_t) (sz : UInt64) :
    (place true l f sz).2.max_align = 1 := by
  unfold place
  dsimp only
  split
  · exact hl
  · rw [hl]
    rfl

theorem place_all_packed {l : layout_t} (hl : l.max_align = 1) (fields : List (field_t × UInt64)) :
    (place_all true l fields).2.max_align = 1 := by
  induction fields generalizing l with
  | nil => exact hl
  | cons e fields ih => exact ih (place_packed hl e.1 e.2)

/-- A struct is laid out as the ABI says exactly if its members' sizes stand for their alignments wherever
the ABI puts them. -/
theorem layout_follows_abi_iff {d : struct_def_t} (halign : ∀ f ∈ d.fields, HasAlignment c f.type (align f)) :
    FollowsAbi c align d (c.layout d) ↔ Alike d.packed (d.fields.map (c.member align d.packed)) := by
  have hzip : d.fields.zip (d.fields.map c.element_size) = d.fields.map fun f => (f, c.element_size f) :=
    List.map_prod_left_eq_zip.symm
  have hsize : (c.layout d).size = round_up (place_all d.packed {} (d.fields.map fun f => (f, c.element_size f))).2.off
      (place_all d.packed {} (d.fields.map fun f => (f, c.element_size f))).2.max_align := by
    rw [layout_eq, struct_def_t.laid_out, hzip]
    cases hpacked : d.packed with
    | false => rfl
    | true =>
      simp only [if_true]
      rw [place_all_packed rfl]
      apply UInt64.toNat_inj.mp
      rw [toNat_round_up (by decide), UInt64.toNat_one, round64_one (UInt64.toNat_lt _)]
  have hfields : (c.layout d).fields = (place_all d.packed {} (d.fields.map fun f => (f, c.element_size f))).1 := by
    rw [layout_eq, struct_def_t.laid_out, hzip]
  have hpos : 0 < max_align (d.fields.map (c.member align d.packed)) := Alignment.max_align_pos
  have hplaced := placed_iff (c := c) d.packed (fun f hf => (halign f hf).pos) hpos {} (by decide)
  have hmost : max 1 (most_by_size d.packed (d.fields.map (c.member align d.packed))) =
      most_by_size d.packed (d.fields.map (c.member align d.packed)) := by
    refine Nat.max_eq_right ?_
    rw [most_by_size]
    induction d.fields.map (c.member align d.packed) with
    | nil => exact Nat.le_refl _
    | cons m members ih => exact Nat.le_trans ih (Nat.le_max_right _ _)
  rw [FollowsAbi, hsize, hfields, Alike]
  dsimp only at hplaced
  rw [UInt64.toNat_one, hmost] at hplaced
  exact hplaced

end

/-- A byte and an array of three bytes behind it. -/
def name_after_tag : struct_def_t where
  name := ascii "T"
  fields := [{ name := ascii "tag", type := ascii "u8" }, { name := ascii "name", type := ascii "char", array_count := 3 }]

/-- A byte and a pointer behind it. -/
def link_after_tag : struct_def_t where
  name := ascii "L"
  fields := [{ name := ascii "tag", type := ascii "u8" }, { name := ascii "next", type := ascii "L*" }]

def no_types : catalog_t where
  structs_sorted := no_structs_sorted
  enums_sorted := no_enums_sorted

theorem link_follows_abi :
    FollowsAbi no_types (fun f => (base_type_size f.type).toNat) link_after_tag (no_types.layout link_after_tag) := by
  refine (layout_follows_abi_iff ?_).mpr ⟨⟨by decide, by decide, trivial⟩, by decide⟩
  simp only [link_after_tag, List.forall_mem_cons]
  exact ⟨.base (by decide), .base (by decide), List.forall_mem_nil _⟩

/-- The array is put at offset 3, although its elements need no alignment. -/
theorem array_of_three_is_aligned :
    ¬ ∀ (c : catalog_t) (align : field_t → Nat) (d : struct_def_t),
      (∀ f ∈ d.fields, HasAlignment c f.type (align f)) → FollowsAbi c align d (c.layout d) := by
  intro hlaw
  have halign : ∀ f ∈ name_after_tag.fields, HasAlignment no_types f.type 1 := by
    simp only [name_after_tag, List.forall_mem_cons]
    exact ⟨.base (by decide), .base (by decide), List.forall_mem_nil _⟩
  obtain ⟨stop, ⟨-, ⟨-, hleast⟩, -⟩, -⟩ := hlaw no_types (fun _ => 1) name_after_tag halign
  have hthree : 3 ≤ 1 := hleast ⟨by decide, by decide⟩
  exact absurd hthree (by decide)

end slop.core.re.type_catalog
