import ReverseSlop.Core.Re.Abi
import ReverseSlop.Core.Re.Accepts
import ReverseSlop.Core.Re.Catalog

namespace slop.core.re.type_catalog

open Numeral (ascii)

/-- A member as it was written, without a layout. -/
def field_t.bare (f : field_t) : field_t := { f with offset := 0, size := 0 }

def struct_def_t.bare (d : struct_def_t) : struct_def_t := { d with size := 0, fields := d.fields.map field_t.bare }

def decl_t.bare : decl_t → decl_t
  | .struct d => .struct d.bare
  | .enum e => .enum e

/-- The catalog when a definition was created in it. -/
def catalog_t.created (c : catalog_t) : decl_t → catalog_t
  | .struct d => c.put_struct d.name (c.layout d)
  | .enum e => c.put_enum e.name e

def catalog_t.declare (c : catalog_t) (ds : List decl_t) : catalog_t := ds.foldl catalog_t.created c

/-- The size that is known of a struct behind some definitions. -/
def known_sizes (ds : List decl_t) : List UInt8 → UInt64 := ds.foldl decl_t.known fun _ => 0

section

variable {packed : Bool} {l : layout_t} {fields : List field_t}

/-- A layout only sees how much room the members take. -/
theorem place_all_congr {s t : field_t → UInt64} (htotal : ∀ f ∈ fields, f.total (s f) = f.total (t f)) (l : layout_t) :
    place_all packed l (fields.map fun f => (f, s f)) = place_all packed l (fields.map fun f => (f, t f)) := by
  induction fields generalizing l with
  | nil => rfl
  | cons f fields ih =>
    obtain ⟨hf, hfields⟩ := List.forall_mem_cons.mp htotal
    have hplace : place packed l f (s f) = place packed l f (t f) := by
      unfold place
      rw [hf]
    simp only [List.map_cons, place_all, hplace, ih hfields]

/-- A member that had no size has the room that it takes as its size. -/
theorem size_place {f : field_t} {sz : UInt64} (hf : f.size = 0) : (place packed l f sz).1.size = f.total sz := by
  unfold place
  dsimp only
  split
  · rename_i hzero
    rw [hzero]
    exact hf
  · rfl

theorem sizes_place_all {s : field_t → UInt64} (hfields : ∀ f ∈ fields, f.size = 0) (l : layout_t) :
    (place_all packed l (fields.map fun f => (f, s f))).1.map field_t.size = fields.map fun f => f.total (s f) := by
  induction fields generalizing l with
  | nil => rfl
  | cons f fields ih =>
    obtain ⟨hf, hrest⟩ := List.forall_mem_cons.mp hfields
    simp only [List.map_cons, place_all, size_place hf, ih hrest]

theorem bare_place {f : field_t} {sz : UInt64} : (place packed l f sz).1.bare = f.bare := by
  unfold place
  dsimp only
  split <;> rfl

theorem bare_place_all {s : field_t → UInt64} (l : layout_t) :
    (place_all packed l (fields.map fun f => (f, s f))).1.map field_t.bare = fields.map field_t.bare := by
  induction fields generalizing l with
  | nil => rfl
  | cons f fields ih => simp only [List.map_cons, place_all, bare_place, ih]

theorem place_snd (packed : Bool) (l : layout_t) (f : field_t) (sz : UInt64) :
    (place packed l f sz).2 =
      if f.total sz = 0 then l
      else
        { off := round_up l.off (align_of packed (f.total sz)) + f.total sz
          max_align := max l.max_align (align_of packed (f.total sz)) } := by
  unfold place
  dsimp only
  split <;> rfl

/-- How far a layout gets does not depend on an earlier one. -/
theorem place_all_bare {s : field_t → UInt64} (hs : ∀ f, s f.bare = s f) (l : layout_t) :
    (place_all packed l ((fields.map field_t.bare).map fun f => (f, s f))).2 =
      (place_all packed l (fields.map fun f => (f, s f))).2 := by
  induction fields generalizing l with
  | nil => rfl
  | cons f fields ih =>
    have hplace : (place packed l f.bare (s f.bare)).2 = (place packed l f (s f)).2 := by
      rw [hs, place_snd, place_snd]
      rfl
    simp only [List.map_cons, place_all, hplace, ih]

end

section

variable {c : catalog_t} {d : struct_def_t} {s t : field_t → UInt64}

theorem laid_out_map (d : struct_def_t) (s : field_t → UInt64) :
    d.laid_out (d.fields.map s) =
      { d with
        fields := (place_all d.packed {} (d.fields.map fun f => (f, s f))).1
        size :=
          let l := (place_all d.packed {} (d.fields.map fun f => (f, s f))).2
          if d.packed then l.off else round_up l.off l.max_align } := by
  rw [struct_def_t.laid_out, ← List.map_prod_left_eq_zip]

/-- Two layouts of a struct are the same exactly if its members take the same room in both. -/
theorem laid_out_eq_iff (hbare : ∀ f ∈ d.fields, f.size = 0) :
    d.laid_out (d.fields.map s) = d.laid_out (d.fields.map t) ↔ ∀ f ∈ d.fields, f.total (s f) = f.total (t f) := by
  rw [laid_out_map, laid_out_map]
  constructor
  · intro hsame
    have hfields := congrArg (fun d => d.fields.map field_t.size) hsame
    simp only [sizes_place_all hbare] at hfields
    exact List.map_inj_left.mp hfields
  · intro htotal
    rw [place_all_congr htotal]

theorem bare_laid_out (d : struct_def_t) (s : field_t → UInt64) : (d.laid_out (d.fields.map s)).bare = d.bare := by
  rw [laid_out_map, struct_def_t.bare, struct_def_t.bare]
  simp only [bare_place_all]

theorem size_laid_out_bare (hs : ∀ f, s f.bare = s f) (d : struct_def_t) :
    (d.bare.laid_out (d.bare.fields.map s)).size = (d.laid_out (d.fields.map s)).size := by
  rw [laid_out_map, laid_out_map]
  simp only [struct_def_t.bare, place_all_bare hs]

theorem size_layout_bare (c : catalog_t) (d : struct_def_t) : (c.layout d.bare).size = (c.layout d).size := by
  rw [layout_eq, layout_eq]
  exact size_laid_out_bare (fun _ => rfl) d

end

section

variable {c : catalog_t} {batch_sizes : List UInt8 → UInt64} {ds before after : List decl_t} {d : struct_def_t}

/-- A definition stands in the result with the sizes that are known there. -/
theorem lay_all_split {x : decl_t} (h : lay_all batch_sizes ds = before ++ x :: after) :
    ∃ y ∈ ds, x = y.laid (before.foldl decl_t.known batch_sizes) := by
  induction before generalizing batch_sizes ds with
  | nil =>
    cases ds with
    | nil => cases h
    | cons y ds =>
      obtain ⟨hx, -⟩ := List.cons.inj h
      exact ⟨y, List.mem_cons_self, hx.symm⟩
  | cons b before ih =>
    cases ds with
    | nil => cases h
    | cons y ds =>
      obtain ⟨rfl, hrest⟩ := List.cons.inj h
      obtain ⟨y, hy, hx⟩ := ih hrest
      exact ⟨y, List.mem_cons_of_mem _ hy, hx⟩

theorem Body.bare {ends ts : List token_t} {fields : List field_t} (hbody : Body ends fields ts) :
    fields.map field_t.bare = fields := by
  have hmember : ∀ {f : field_t} {ts : List token_t}, MemberTokens f ts → f.bare = f := by
    rintro _ _ ⟨⟩
    rfl
  induction hbody with
  | close => rfl
  | semicolon _ ih => exact ih
  | member hf _ ih => rw [List.map_cons, hmember hf, ih]
  | last _ hf => rw [List.map_cons, hmember hf, List.map_nil]

theorem Definition.bare {d : decl_t} {ts : List token_t} (hd : Definition d ts) : d.bare = d := by
  cases hd with
  | enum => rfl
  | enum_of => rfl
  | struct _ _ _ hbody => rw [decl_t.bare, struct_def_t.bare, hbody.bare]

theorem Unended.bare {ts : List token_t} (hd : Unended d ts) : d.bare = d := by
  cases hd with
  | intro _ _ hbody => rw [struct_def_t.bare, hbody.bare]

/-- The parser gives definitions without a layout to the layout. -/
theorem decls_eq_lay_all (batch_sizes : List UInt8 → UInt64) (ts : List token_t) :
    ∃ ds, (decls batch_sizes ts).decls = lay_all batch_sizes ds ∧ ∀ d ∈ ds, d.bare = d := by
  fun_induction decls batch_sizes ts with
  | case1 => exact ⟨[], rfl, by simp⟩
  | case2 _ _ ih => exact ih
  | case3 => exact ⟨[], rfl, by simp⟩
  | case4 batch_sizes kw ts _ d rest hread laid r ih =>
    obtain ⟨ds, hds, hbare⟩ := ih
    refine ⟨d :: ds, congrArg (laid :: ·) hds, List.forall_mem_cons.mpr ⟨?_, hbare⟩⟩
    rcases decl_spec hread with ⟨b, hd, -⟩ | ⟨s, rfl, hunended, -⟩
    · exact hd.bare
    · exact congrArg decl_t.struct hunended.bare

theorem known_sizes_concat (before : List decl_t) (d : decl_t) :
    known_sizes (before ++ [d]) = d.known (known_sizes before) := by
  rw [known_sizes, List.foldl_append]
  rfl

theorem declare_concat (c : catalog_t) (before : List decl_t) (d : decl_t) :
    c.declare (before ++ [d]) = (c.declare before).created d := by
  rw [catalog_t.declare, List.foldl_append]
  rfl

theorem find_put_struct (c : catalog_t) (name : List UInt8) (d : struct_def_t) :
    (c.put_struct name d).find_struct name = some d := SortedMap.find_set c.structs_sorted

theorem find_put_struct_ne {name other : List UInt8} (hne : other ≠ name) :
    (c.put_struct name d).find_struct other = c.find_struct other := SortedMap.find_set_ne c.structs_sorted hne

/-- What is known of the structs of a text is what a catalog finds. -/
def Known (c : catalog_t) (before : List decl_t) : Prop :=
  ∀ s, .struct s ∈ before →
    ∃ inner, (c.declare before).find_struct s.name = some inner ∧ inner.size = known_sizes before s.name

/-- The catalog lays out a struct as the parser does. -/
def Agrees (c : catalog_t) (before : List decl_t) (d : struct_def_t) : Prop :=
  (c.declare before).layout d.bare = d

/-- A member takes the same room in both layouts if the parser can know it. -/
def Knowable (c : catalog_t) (before : List decl_t) (f : field_t) : Prop :=
  base_type_size f.type ≠ 0 ∨ (∃ s, .struct s ∈ before ∧ s.name = f.type) ∨
    f.total ((c.declare before).element_size f) = 0

theorem known_sizes_eq_zero {name : List UInt8} (hnone : ∀ s, .struct s ∈ before → s.name ≠ name) :
    known_sizes before name = 0 := by
  induction before using List.reverseRecOn with
  | nil => rfl
  | append_singleton before d ih =>
    have hbefore := ih fun s hs => hnone s (List.mem_append_left _ hs)
    rw [known_sizes_concat]
    cases d with
    | enum e => exact hbefore
    | struct d =>
      have hne := hnone d (List.mem_append_right _ (List.mem_singleton_self _))
      exact (Function.update_of_ne hne.symm _ _).trans hbefore

/-- Behind a struct on which both agree, and behind an enum, the same is known. -/
theorem Known.concat {x : decl_t} (hknown : Known c before) (hagrees : ∀ d, x = .struct d → Agrees c before d) :
    Known c (before ++ [x]) := by
  intro s hs
  rw [declare_concat, known_sizes_concat]
  cases x with
  | enum e =>
    have hs : decl_t.struct s ∈ before := by simpa using hs
    exact hknown s hs
  | struct d =>
    by_cases hname : s.name = d.name
    · rw [hname]
      refine ⟨_, find_put_struct _ _ _, ?_⟩
      rw [← size_layout_bare, hagrees d rfl]
      change d.size = Function.update (known_sizes before) d.name d.size d.name
      rw [Function.update_self]
    · have hs : decl_t.struct s ∈ before := by
        rcases List.mem_append.mp hs with hs | hs
        · exact hs
        · cases List.mem_singleton.mp hs
          exact absurd rfl hname
      obtain ⟨inner, hfind, hsize⟩ := hknown s hs
      refine ⟨inner, (find_put_struct_ne hname).trans hfind, ?_⟩
      exact hsize.trans (Function.update_of_ne hname _ _).symm

/-- A struct of a text has the layout of the parser over the structs before it. -/
theorem laid_of_split {text : List UInt8} (h : (parse_decls text).decls = before ++ .struct d :: after) :
    d = layout_batch (known_sizes before) d.bare ∧ d.fields.map field_t.bare = d.bare.fields := by
  obtain ⟨ds, hds, hbare⟩ := decls_eq_lay_all (fun _ => 0) (tokens text)
  obtain ⟨y, hy, hlaid⟩ := lay_all_split (hds.symm.trans h)
  cases y with
  | enum e => cases hlaid
  | struct s =>
    have hs : s.bare = s := decl_t.struct.inj (hbare _ hy)
    obtain rfl : d = layout_batch (known_sizes before) s := decl_t.struct.inj hlaid
    have hd : (layout_batch (known_sizes before) s).bare = s := (bare_laid_out s _).trans hs
    exact ⟨by rw [hd], rfl⟩

/-- The parser and the catalog agree exactly if the members take the same room in both. -/
theorem agrees_iff {text : List UInt8} (h : (parse_decls text).decls = before ++ .struct d :: after) :
    Agrees c before d ↔
      ∀ f ∈ d.fields, f.total ((c.declare before).element_size f) = f.total (batch_size (known_sizes before) f) := by
  obtain ⟨hlaid, hfields⟩ := laid_of_split h
  have hsizes : ∀ f ∈ d.bare.fields, f.size = 0 := by
    intro f hf
    obtain ⟨g, -, rfl⟩ := List.mem_map.mp hf
    rfl
  have hiff := laid_out_eq_iff (s := (c.declare before).element_size) (t := batch_size (known_sizes before)) hsizes
  rw [Agrees, layout_eq]
  nth_rewrite 3 [hlaid]
  refine hiff.trans ?_
  rw [← hfields, List.forall_mem_map]
  exact Iff.rfl

/-- What the parser knows of a type that is no base type is what it knows of the struct. -/
theorem batch_size_named {f : field_t} (hbase : base_type_size f.type = 0) :
    batch_size batch_sizes f = batch_sizes f.type := by
  have hptr := not_ptr_of_size hbase
  rw [batch_size, if_neg (not_not.mpr hbase)]
  simp [hptr]

theorem total_eq_of_knowable {f : field_t} (hknown : Known c before) (hf : Knowable c before f) :
    f.total ((c.declare before).element_size f) = f.total (batch_size (known_sizes before) f) := by
  by_cases hbase : base_type_size f.type = 0
  · rw [batch_size_named hbase]
    by_cases hstruct : ∃ s, .struct s ∈ before ∧ s.name = f.type
    · obtain ⟨s, hs, hname⟩ := hstruct
      obtain ⟨inner, hfind, hsize⟩ := hknown s hs
      rw [hname] at hfind hsize
      rw [element_size_named hbase, hfind, ← hsize]
    · have hzero : known_sizes before f.type = 0 :=
        known_sizes_eq_zero fun s hs hname => hstruct ⟨s, hs, hname⟩
      rcases hf with hf | hf | hf
      · exact absurd hbase hf
      · exact absurd hf hstruct
      · rw [hf, hzero, field_t.total, UInt64.zero_mul, ite_self]
  · rw [element_size_base hbase, batch_size, if_pos hbase]

theorem knowable_of_total_eq {f : field_t}
    (htotal : f.total ((c.declare before).element_size f) = f.total (batch_size (known_sizes before) f)) :
    Knowable c before f := by
  by_cases hbase : base_type_size f.type = 0
  · by_cases hstruct : ∃ s, .struct s ∈ before ∧ s.name = f.type
    · exact Or.inr (Or.inl hstruct)
    · have hzero : known_sizes before f.type = 0 :=
        known_sizes_eq_zero fun s hs hname => hstruct ⟨s, hs, hname⟩
      right
      right
      rw [htotal, batch_size_named hbase, hzero, field_t.total, UInt64.zero_mul, ite_self]
  · exact Or.inl hbase

/-- Along a text whose members can be known, the catalog finds what the parser knows. -/
theorem known_of_knowable {text : List UInt8}
    (hknowable : ∀ before d after, (parse_decls text).decls = before ++ .struct d :: after →
      ∀ f ∈ d.fields, Knowable c before f)
    (h : (parse_decls text).decls = before ++ after) : Known c before := by
  induction before using List.reverseRecOn generalizing after with
  | nil => exact fun s hs => absurd hs List.not_mem_nil
  | append_singleton before x ih =>
    have hsplit : (parse_decls text).decls = before ++ x :: after := by simpa using h
    have hknown := ih hsplit
    refine hknown.concat fun d hd => ?_
    subst hd
    exact (agrees_iff hsplit).mpr fun f hf => total_eq_of_knowable hknown (hknowable before d after hsplit f hf)

end

/-- The two layouts of a struct agree, for every struct of a text, exactly if each of its members has a base type or
a pointer, the type of a struct that stands before it in the text, or a type that takes no room in the catalog. -/
theorem batch_layout_agrees_iff (c : catalog_t) (text : List UInt8) :
    (∀ before d after, (parse_decls text).decls = before ++ .struct d :: after →
        (c.declare before).layout d.bare = d) ↔
      ∀ before d after, (parse_decls text).decls = before ++ .struct d :: after → ∀ f ∈ d.fields,
        base_type_size f.type ≠ 0 ∨ (∃ s, .struct s ∈ before ∧ s.name = f.type) ∨
          f.total ((c.declare before).element_size f) = 0 := by
  constructor
  · intro hagrees before d after h f hf
    exact knowable_of_total_eq ((agrees_iff h).mp (hagrees before d after h) f hf)
  · intro hknowable before d after h
    have hknown := known_of_knowable hknowable h
    exact (agrees_iff h).mpr fun f hf => total_eq_of_knowable hknown (hknowable before d after h f hf)

/-- An enum of a byte, and a struct with a member of it. -/
def tag_then_tagged : List decl_t :=
  [.enum { name := ascii "E", underlying := ascii "u8", values := [(ascii "A", 0)] },
    .struct { name := ascii "S", fields := [{ name := ascii "e", type := ascii "E" }] }]

theorem tag_then_tagged_parsed :
    (parse_decls (ascii "enum E : u8 \x7b A \x7d; struct S \x7b E e; \x7d;")).decls =
      lay_all (fun _ => 0) tag_then_tagged := by
  have htokens : tokens (ascii "enum E : u8 \x7b A \x7d; struct S \x7b E e; \x7d;") =
      ["enum", "E", ":", "u8", "\x7b", "A", "\x7d", ";", "struct", "S", "\x7b", "E", "e", ";", "\x7d", ";"].map ascii := by
    decide
  have hmember : MemberTokens { name := ascii "e", type := ascii "E" } [ascii "E", ascii "e"] :=
    @MemberTokens.intro (ascii "E") (ascii "e") 0 0 [] (by decide) (by decide) Count.single
  have hrenders : Renders tag_then_tagged (tokens (ascii "enum E : u8 \x7b A \x7d; struct S \x7b E e; \x7d;")) := by
    rw [htokens]
    refine Renders.cons (Definition.enum_of ⟨by decide, by decide⟩ (Values.last (by decide))) (Renders.semicolon ?_)
    refine Renders.cons (Definition.struct false false ⟨by decide, by decide⟩ (Body.member hmember Body.close)) ?_
    exact Renders.stop.semicolon
  rw [parse_decls, decls_of_renders hrenders]

/-- The catalog knows the enum before a struct, which the parser does not. -/
theorem enum_member_differs :
    ¬ ∀ before d after,
      (parse_decls (ascii "enum E : u8 \x7b A \x7d; struct S \x7b E e; \x7d;")).decls = before ++ .struct d :: after →
        (no_types.declare before).layout d.bare = d := by
  intro hagrees
  have hsame := congrArg struct_def_t.size (hagrees [_] _ [] tag_then_tagged_parsed)
  revert hsame
  decide

end slop.core.re.type_catalog
