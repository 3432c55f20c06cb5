import ReverseSlop.Core.Disasm.Annotations

namespace slop.core.re.type_catalog

open Numeral (ascii)
open disasm.binary_state (annotated_t)

structure field_t where
  name : List UInt8
  type : List UInt8
  offset : UInt64 := 0
  size : UInt64 := 0
  array_count : UInt32 := 0

structure struct_def_t where
  size : UInt64 := 0
  packed : Bool := false
  fields : List field_t
  name : List UInt8 := []

structure enum_def_t where
  underlying : List UInt8 := ascii "u32"
  values : List (List UInt8 × Int64)
  name : List UInt8 := []

/-- The types of a binary, by name. -/
structure catalog_t where
  structs : List (List UInt8 × struct_def_t) := []
  enums : List (List UInt8 × enum_def_t) := []
  bound_hash : UInt64 := 0
  structs_sorted : SortedMap.Sorted structs
  enums_sorted : SortedMap.Sorted enums

theorem no_structs_sorted : SortedMap.Sorted ([] : List (List UInt8 × struct_def_t)) := SortedMap.Sorted.nil

theorem no_enums_sorted : SortedMap.Sorted ([] : List (List UInt8 × enum_def_t)) := SortedMap.Sorted.nil

def store_dir (local_app_data : List UInt8) : List UInt8 :=
  if local_app_data.length = 0 ∨ local_app_data.length ≥ 260 then []
  else local_app_data ++ ascii "\\reverse-slop\\types"

def store_path (local_app_data : List UInt8) (hash : UInt64) : List UInt8 :=
  if store_dir local_app_data = [] then []
  else store_dir local_app_data ++ ascii "\\" ++ disasm.binary_state.hash_name hash ++ ascii ".json"

/-- An object with some members. -/
def object_of (members : List (String × Json.Value)) : Json.Value :=
  .object (SortedMap.collect (fun e => (ascii e.1, e.2)) members)

def field_t.json (f : field_t) : Json.Value :=
  object_of [("name", .string f.name), ("type", .string f.type), ("offset", .number_unsigned f.offset),
    ("size", .number_unsigned f.size), ("array_count", .number_unsigned f.array_count.toUInt64)]

def struct_def_t.json (s : struct_def_t) : Json.Value :=
  object_of [("size", .number_unsigned s.size), ("packed", .boolean s.packed),
    ("fields", .array (s.fields.map field_t.json))]

def enum_def_t.json (e : enum_def_t) : Json.Value :=
  object_of [("underlying", .string e.underlying),
    ("values", .array (e.values.map fun v => object_of [("name", .string v.1), ("value", .number_integer v.2)]))]

def to_json (c : catalog_t) : Json.Value :=
  object_of [("structs", .object (SortedMap.collect (fun e => (e.1, e.2.json)) c.structs)),
    ("enums", .object (SortedMap.collect (fun e => (e.1, e.2.json)) c.enums))]

/-- Whether the types were saved, unless the document cannot be written, which throws. -/
def save_locked (format : Json.Format) (local_app_data : List UInt8) (d : Disk.State) (c : catalog_t) :
    Option Bool × Disk.State :=
  let path := store_path local_app_data c.bound_hash
  if c.bound_hash = 0 ∨ path = [] ∨ d.opens path = false then (some false, d)
  else ((format.dump (to_json c)).map fun _ => true, d.rewrite path (format.dump (to_json c)))

/-- The names in a catalog. -/
def catalog_t.texts (c : catalog_t) : List (List UInt8) :=
  (c.structs.flatMap fun e => e.1 :: e.2.fields.flatMap fun f => [f.name, f.type]) ++
    c.enums.flatMap fun e => e.1 :: e.2.underlying :: e.2.values.map Prod.fst

section

open Json

/-- Keys that are different and valid leave only the values to check. -/
theorem valid_object_of {members : List (String × Value)} (names : List String) (hnames : members.map Prod.fst = names)
    (hkeys : (names.map ascii).Nodup ∧ ∀ n ∈ names, valid_utf8 (ascii n) = true) :
    (object_of members).valid = true ↔ ∀ e ∈ members, e.2.valid = true := by
  subst hnames
  obtain ⟨hdistinct, hvalid⟩ := hkeys
  rw [List.map_map, List.Nodup, List.pairwise_map] at hdistinct
  have hmem : ∀ x, x ∈ SortedMap.collect (fun e : String × Value => (ascii e.1, e.2)) members ↔
      ∃ e ∈ members, x = (ascii e.1, e.2) := fun x => SortedMap.mem_collect hdistinct
  rw [object_of, Value.valid, valid_members_iff]
  constructor
  · intro hall e he
    exact (hall _ ((hmem _).mpr ⟨e, he, rfl⟩)).2
  · intro hall x hx
    obtain ⟨e, he, rfl⟩ := (hmem x).mp hx
    exact ⟨hvalid e.1 (List.mem_map_of_mem he), hall e he⟩

theorem valid_field (f : field_t) : f.json.valid = true ↔ valid_utf8 f.name = true ∧ valid_utf8 f.type = true := by
  refine (valid_object_of ["name", "type", "offset", "size", "array_count"] rfl (by decide)).trans ?_
  simp [Value.valid]

theorem valid_struct (s : struct_def_t) :
    s.json.valid = true ↔ ∀ f ∈ s.fields, valid_utf8 f.name = true ∧ valid_utf8 f.type = true := by
  refine (valid_object_of ["size", "packed", "fields"] rfl (by decide)).trans ?_
  simp [Value.valid, valid_items_iff, valid_field]

theorem valid_enum (e : enum_def_t) :
    e.json.valid = true ↔ valid_utf8 e.underlying = true ∧ ∀ v ∈ e.values, valid_utf8 v.1 = true := by
  have hvalue : ∀ v : List UInt8 × Int64,
      (object_of [("name", .string v.1), ("value", .number_integer v.2)]).valid = true ↔ valid_utf8 v.1 = true := by
    intro v
    refine (valid_object_of ["name", "value"] rfl (by decide)).trans ?_
    simp [Value.valid]
  refine (valid_object_of ["underlying", "values"] rfl (by decide)).trans ?_
  simp only [List.forall_mem_cons, Value.valid, valid_items_iff, List.forall_mem_map, hvalue, List.not_mem_nil,
    false_implies, implies_true, and_true]

/-- The types of a kind are valid if their names and what they consist of are. -/
theorem valid_types {α : Type} {types : List (List UInt8 × α)} (hsorted : SortedMap.Sorted types) (json : α → Value) :
    (Value.object (SortedMap.collect (fun e => (e.1, json e.2)) types)).valid = true ↔
      ∀ e ∈ types, valid_utf8 e.1 = true ∧ (json e.2).valid = true := by
  have hmem : ∀ x, x ∈ SortedMap.collect (fun e : List UInt8 × α => (e.1, json e.2)) types ↔
      ∃ e ∈ types, x = (e.1, json e.2) := by
    intro x
    refine SortedMap.mem_collect ?_
    exact hsorted.ne
  rw [Value.valid, valid_members_iff]
  simp only [hmem]
  constructor
  · intro hall e he
    exact hall _ ⟨e, he, rfl⟩
  · rintro hall _ ⟨e, he, rfl⟩
    exact hall e he

/-- The document of a catalog can be written if its names are valid. -/
theorem valid_to_json (c : catalog_t) : (to_json c).valid = true ↔ ∀ t ∈ c.texts, valid_utf8 t = true := by
  refine (valid_object_of ["structs", "enums"] rfl (by decide)).trans ?_
  have hstructs := valid_types c.structs_sorted struct_def_t.json
  have henums := valid_types c.enums_sorted enum_def_t.json
  simp only [List.forall_mem_cons, hstructs, henums, valid_struct, valid_enum, catalog_t.texts, List.forall_mem_append,
    List.forall_mem_flatMap, List.forall_mem_map, List.not_mem_nil, false_implies, implies_true, and_true]

end

end slop.core.re.type_catalog

namespace slop.core.re.type_catalog

open Numeral (ascii)

def base_type_size (type : List UInt8) : UInt64 :=
  if type.getLast? = some 42 then 8
  else if type ∈ ["u8", "i8", "int8", "uint8", "char", "bool"].map ascii then 1
  else if type ∈ ["u16", "i16", "int16", "uint16", "wchar_t"].map ascii then 2
  else if type ∈ ["u32", "i32", "int32", "uint32", "float"].map ascii then 4
  else if type ∈ ["u64", "i64", "int64", "uint64", "double", "__int64"].map ascii then 8
  else 0

/-- The size of a type that is no base type, by two queries. -/
def named_size {m : Type → Type} [Monad m] (get_struct : List UInt8 → m (Option struct_def_t))
    (get_enum : List UInt8 → m (Option enum_def_t)) (type : List UInt8) : m UInt64 := do
  let ptr : Bool := type.getLast? = some 42
  let nm := if ptr then type.dropLast else type
  let sz ← match ← get_struct nm with
    | some inner => pure inner.size
    | none =>
      match ← get_enum nm with
      | some en => pure (base_type_size en.underlying)
      | none => pure (if ptr then 8 else 0)
  pure (if ptr then 8 else sz)

/-- The size of an element of a member. -/
def element_size {m : Type → Type} [Monad m] (get_struct : List UInt8 → m (Option struct_def_t))
    (get_enum : List UInt8 → m (Option enum_def_t)) (f : field_t) : m UInt64 :=
  if base_type_size f.type ≠ 0 then pure (base_type_size f.type) else named_size get_struct get_enum f.type

/-- How far a layout has got. -/
structure layout_t where
  off : UInt64 := 0
  max_align : UInt64 := 1

def round_up (off align : UInt64) : UInt64 := (off + align - 1) / align * align

def field_t.total (f : field_t) (sz : UInt64) : UInt64 :=
  if f.array_count ≠ 0 then sz * f.array_count.toUInt64 else sz

def align_of (packed : Bool) (sz : UInt64) : UInt64 := if packed then 1 else min sz 8

/-- A member gets its offset; one without a size takes no room. -/
def place (packed : Bool) (l : layout_t) (f : field_t) (sz : UInt64) : field_t × layout_t :=
  let sz := f.total sz
  if sz = 0 then ({ f with offset := l.off }, l)
  else
    let align := align_of packed sz
    let off := round_up l.off align
    ({ f with offset := off, size := sz }, { off := off + sz, max_align := max l.max_align align })

/-- Members with the sizes of their elements are put one behind the other. -/
def place_all (packed : Bool) : layout_t → List (field_t × UInt64) → List field_t × layout_t
  | l, [] => ([], l)
  | l, (f, sz) :: rest =>
    let (f, l) := place packed l f sz
    let (fields, l) := place_all packed l rest
    (f :: fields, l)

/-- The loop that both layouts share. -/
def struct_def_t.laid_out (d : struct_def_t) (sizes : List UInt64) : struct_def_t :=
  let (fields, l) := place_all d.packed {} (d.fields.zip sizes)
  { d with fields, size := if d.packed then l.off else round_up l.off l.max_align }

def layout_struct {m : Type → Type} [Monad m] (get_struct : List UInt8 → m (Option struct_def_t))
    (get_enum : List UInt8 → m (Option enum_def_t)) (d : struct_def_t) : m struct_def_t := do
  let sizes ← d.fields.mapM (element_size get_struct get_enum)
  pure (d.laid_out sizes)

section

variable (c : catalog_t)

def catalog_t.find_struct (name : List UInt8) : Option struct_def_t := SortedMap.find name c.structs

def catalog_t.find_enum (name : List UInt8) : Option enum_def_t := SortedMap.find name c.enums

/-- The size of an element when the queries find what is in a catalog. -/
def catalog_t.element_size (f : field_t) : UInt64 :=
  Id.run (type_catalog.element_size (fun n => pure (c.find_struct n)) (fun n => pure (c.find_enum n)) f)

/-- The layout of a struct over a catalog. -/
def catalog_t.layout (d : struct_def_t) : struct_def_t :=
  Id.run (layout_struct (fun n => pure (c.find_struct n)) (fun n => pure (c.find_enum n)) d)

end

section

variable {c : catalog_t} {f : field_t}

theorem layout_eq (c : catalog_t) (d : struct_def_t) : c.layout d = d.laid_out (d.fields.map c.element_size) := by
  have hsizes : ∀ fields : List field_t,
      Id.run (fields.mapM (element_size (fun n => pure (c.find_struct n)) fun n => pure (c.find_enum n))) =
        fields.map c.element_size := by
    intro fields
    exact List.idRun_mapM
  rw [← hsizes]
  rfl

/-- A base type has its own size. -/
theorem element_size_base (hbase : base_type_size f.type ≠ 0) : c.element_size f = base_type_size f.type := by
  rw [catalog_t.element_size, element_size, if_pos hbase]
  rfl

theorem not_ptr_of_size (hbase : base_type_size f.type = 0) : f.type.getLast? ≠ some 42 := by
  intro hptr
  rw [base_type_size, if_pos hptr] at hbase
  cases hbase

/-- What is no base type is looked up under its whole name. -/
theorem element_size_named (hbase : base_type_size f.type = 0) :
    c.element_size f = match c.find_struct f.type with
      | some inner => inner.size
      | none => match c.find_enum f.type with
        | some en => base_type_size en.underlying
        | none => 0 := by
  have hptr := not_ptr_of_size hbase
  rw [catalog_t.element_size, element_size, if_neg (not_not.mpr hbase), named_size]
  simp only [hptr, decide_false, Bool.false_eq_true, if_false, pure_bind]
  cases c.find_struct f.type with
  | some inner => rfl
  | none => cases c.find_enum f.type <;> rfl

theorem length_place_all (packed : Bool) (l : layout_t) (fields : List (field_t × UInt64)) :
    (place_all packed l fields).1.length = fields.length := by
  induction fields generalizing l with
  | nil => rfl
  | cons e fields ih => exact congrArg (· + 1) (ih _)

/-- A layout keeps the members. -/
theorem length_layout (c : catalog_t) (d : struct_def_t) : (c.layout d).fields.length = d.fields.length := by
  rw [layout_eq]
  refine (length_place_all d.packed {} _).trans ?_
  simp

end

end slop.core.re.type_catalog
