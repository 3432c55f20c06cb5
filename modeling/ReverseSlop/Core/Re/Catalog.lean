import ReverseSlop.Core.Re.TypeCatalog
import ReverseSlop.Library.Mutex

namespace slop.core.re.type_catalog

open Guard
open Numeral (ascii)

/-- The types, and the disk that they are saved on. -/
structure host_t where
  cat : catalog_t
  disk : Disk.State

def catalog_t.put_struct (c : catalog_t) (name : List UInt8) (d : struct_def_t) : catalog_t :=
  { c with structs := SortedMap.set name d c.structs, structs_sorted := c.structs_sorted.set name d }

def catalog_t.put_enum (c : catalog_t) (name : List UInt8) (e : enum_def_t) : catalog_t :=
  { c with enums := SortedMap.set name e c.enums, enums_sorted := c.enums_sorted.set name e }

def catalog_t.drop_struct (c : catalog_t) (name : List UInt8) : catalog_t :=
  { c with structs := SortedMap.erase name c.structs, structs_sorted := c.structs_sorted.erase name }

def catalog_t.drop_enum (c : catalog_t) (name : List UInt8) : catalog_t :=
  { c with enums := SortedMap.erase name c.enums, enums_sorted := c.enums_sorted.erase name }

/-- The entries whose names contain a text. -/
def matching {α : Type} (filter : List UInt8) (entries : List (List UInt8 × α)) : List α :=
  (entries.filter fun e => filter = [] ∨ filter <:+: e.1).map Prod.snd

/-! The queries. -/

def get_struct (name : List UInt8) : Prog host_t (Option struct_def_t) := guarded do
  let h ← Guard.read
  pure (h.cat.find_struct name)

def get_enum (name : List UInt8) : Prog host_t (Option enum_def_t) := guarded do
  let h ← Guard.read
  pure (h.cat.find_enum name)

def list_structs (filter : List UInt8) : Prog host_t (List struct_def_t) := guarded do
  let h ← Guard.read
  pure (matching filter h.cat.structs)

def list_enums (filter : List UInt8) : Prog host_t (List enum_def_t) := guarded do
  let h ← Guard.read
  pure (matching filter h.cat.enums)

/-! The mutations. What they answer is true, or false with a text. -/

section

variable (format : Json.Format) (local_app_data : List UInt8)

def save : Prog host_t Bool := fun w =>
  match save_locked format local_app_data w.state.disk w.state.cat with
  | (some saved, disk) => (.ok saved, { w with state := { w.state with disk } })
  | (none, disk) => (.error .thrown, { w with state := { w.state with disk } })

def saved_or_failed : Prog host_t (Except String Unit) := do
  let saved ← save format local_app_data
  pure (if saved then .ok () else .error "persist failed")

def put (f : catalog_t → catalog_t) : Prog host_t Unit := update fun h => { h with cat := f h.cat }

def create_struct (d : struct_def_t) : Prog host_t (Except String Unit) :=
  if d.name = [] then pure (.error "missing name")
  else do
    let d ← layout_struct get_struct get_enum d
    guarded do
      put fun c => c.put_struct d.name d
      saved_or_failed format local_app_data

def add_member (struct_name : List UInt8) (field : field_t) : Prog host_t (Except String Unit) := guarded do
  let h ← Guard.read
  match h.cat.find_struct struct_name with
  | none => pure (.error "unknown struct")
  | some d =>
    let d := { d with fields := d.fields ++ [field] }
    put fun c => c.put_struct struct_name d
    let d ← layout_struct get_struct get_enum d
    put fun c => c.put_struct struct_name d
    saved_or_failed format local_app_data

def create_enum (e : enum_def_t) : Prog host_t (Except String Unit) :=
  if e.name = [] ∨ e.values = [] then pure (.error "missing name/values")
  else guarded do
    put fun c => c.put_enum e.name e
    saved_or_failed format local_app_data

def remove_struct (name : List UInt8) : Prog host_t Bool := guarded do
  let h ← Guard.read
  if (h.cat.find_struct name).isSome then
    put fun c => c.drop_struct name
    let _ ← save format local_app_data
    pure true
  else pure false

def remove_enum (name : List UInt8) : Prog host_t Bool := guarded do
  let h ← Guard.read
  if (h.cat.find_enum name).isSome then
    put fun c => c.drop_enum name
    let _ ← save format local_app_data
    pure true
  else pure false

/-- A call of one of the operations. -/
inductive call_t where
  | get_struct (name : List UInt8)
  | get_enum (name : List UInt8)
  | list_structs (filter : List UInt8)
  | list_enums (filter : List UInt8)
  | create_struct (d : struct_def_t)
  | add_member (struct_name : List UInt8) (field : field_t)
  | create_enum (e : enum_def_t)
  | remove_struct (name : List UInt8)
  | remove_enum (name : List UInt8)

/-- What a call does, whatever it answers. -/
def call_t.run : call_t → Prog host_t Unit
  | .get_struct name => do let _ ← type_catalog.get_struct name
  | .get_enum name => do let _ ← type_catalog.get_enum name
  | .list_structs filter => do let _ ← type_catalog.list_structs filter
  | .list_enums filter => do let _ ← type_catalog.list_enums filter
  | .create_struct d => do let _ ← type_catalog.create_struct format local_app_data d
  | .add_member name field => do let _ ← type_catalog.add_member format local_app_data name field
  | .create_enum e => do let _ ← type_catalog.create_enum format local_app_data e
  | .remove_struct name => do let _ ← type_catalog.remove_struct format local_app_data name
  | .remove_enum name => do let _ ← type_catalog.remove_enum format local_app_data name

/-- A thread that is about to call an operation. -/
def idle (h : host_t) : World host_t := ⟨h, false⟩

/-- The calls that work on a struct of which a member has a type that is no base type. -/
def call_t.LooksUp (c : catalog_t) : call_t → Prop
  | .add_member name field => ∃ d, c.find_struct name = some d ∧ ∃ f ∈ d.fields ++ [field], base_type_size f.type = 0
  | _ => False

end

section

variable {format : Json.Format} {local_app_data : List UInt8} {h : host_t} {w : World host_t} {c : catalog_t}

theorem run_get_struct (hfree : w.held = false) (name : List UInt8) :
    get_struct name w = (.ok (w.state.cat.find_struct name), w) := by
  obtain ⟨h, held⟩ := w
  obtain rfl : held = false := hfree
  exact guarded_ok rfl rfl

theorem run_get_enum (hfree : w.held = false) (name : List UInt8) :
    get_enum name w = (.ok (w.state.cat.find_enum name), w) := by
  obtain ⟨h, held⟩ := w
  obtain rfl : held = false := hfree
  exact guarded_ok rfl rfl

theorem run_element_size (hfree : w.held = false) (f : field_t) :
    element_size get_struct get_enum f w = (.ok (w.state.cat.element_size f), w) := by
  by_cases hbase : base_type_size f.type = 0
  · have hptr := not_ptr_of_size hbase
    rw [element_size, if_neg (not_not.mpr hbase), named_size, element_size_named hbase]
    simp only [hptr, decide_false, Bool.false_eq_true, if_false]
    rw [run_bind_ok (run_get_struct hfree _)]
    cases w.state.cat.find_struct f.type with
    | some inner => rfl
    | none =>
      dsimp only
      rw [run_bind_ok (run_get_enum hfree _)]
      cases w.state.cat.find_enum f.type <;> rfl
  · rw [element_size, if_pos hbase, element_size_base hbase]
    rfl

/-- Outside of the mutex a layout asks the catalog. -/
theorem run_layout_struct (hfree : w.held = false) (d : struct_def_t) :
    layout_struct get_struct get_enum d w = (.ok (w.state.cat.layout d), w) := by
  rw [layout_struct, run_bind_ok (run_mapM_ok fun f _ => run_element_size hfree f), layout_eq]
  rfl

theorem run_element_size_held (hheld : w.held = true) (f : field_t) :
    element_size get_struct get_enum f w =
      if base_type_size f.type = 0 then (.error .blocked, w) else (.ok (base_type_size f.type), w) := by
  by_cases hbase : base_type_size f.type = 0
  · rw [element_size, if_neg (not_not.mpr hbase), if_pos hbase, named_size]
    exact run_bind_error (guarded_held hheld)
  · rw [element_size, if_pos hbase, if_neg hbase]
    rfl

/-- Inside of the mutex a layout can have base types only. -/
theorem run_layout_struct_held (hheld : w.held = true) {d : struct_def_t} (hbase : ∀ f ∈ d.fields, base_type_size f.type ≠ 0) :
    layout_struct get_struct get_enum d w = (.ok (w.state.cat.layout d), w) := by
  have hsizes : ∀ f ∈ d.fields, element_size get_struct get_enum f w = (.ok (w.state.cat.element_size f), w) := by
    intro f hf
    rw [run_element_size_held hheld, if_neg (hbase f hf), element_size_base (hbase f hf)]
  rw [layout_struct, run_bind_ok (run_mapM_ok hsizes), layout_eq]
  rfl

theorem run_layout_struct_blocked (hheld : w.held = true) {d : struct_def_t} (hnamed : ∃ f ∈ d.fields, base_type_size f.type = 0) :
    layout_struct get_struct get_enum d w = (.error .blocked, w) := by
  have hsizes : ∀ f ∈ d.fields, element_size get_struct get_enum f w = (.ok (base_type_size f.type), w) ∨
      element_size get_struct get_enum f w = (.error .blocked, w) := by
    intro f _
    rw [run_element_size_held hheld]
    split
    · exact Or.inr rfl
    · exact Or.inl rfl
  obtain ⟨f, hf, hbase⟩ := hnamed
  refine run_bind_error (run_mapM_blocked hsizes ⟨f, hf, ?_⟩)
  rw [run_element_size_held hheld, if_pos hbase]

/-! No operation but `add_member` asks the catalog inside of the mutex. -/

theorem save_not_blocked : (save format local_app_data w).1 ≠ .error .blocked := by
  rw [save]
  split <;> simp

theorem bind_not_blocked {α β : Type} {x : Prog host_t α} {f : α → Prog host_t β} (hx : (x w).1 ≠ .error .blocked)
    (hf : ∀ a w, (f a w).1 ≠ .error .blocked) : ((x >>= f) w).1 ≠ .error .blocked := by
  obtain ⟨r, w', hrun⟩ : ∃ r w', x w = (r, w') := ⟨_, _, rfl⟩
  cases r with
  | ok a =>
    rw [run_bind_ok hrun]
    exact hf a w'
  | error e =>
    rw [run_bind_error hrun]
    rw [hrun] at hx
    rintro hblocked
    cases hblocked
    exact hx rfl

theorem saved_or_failed_not_blocked : (saved_or_failed format local_app_data w).1 ≠ .error .blocked :=
  bind_not_blocked save_not_blocked fun _ _ => by simp

theorem guarded_not_blocked {α : Type} {x : Prog host_t α} (hfree : w.held = false)
    (hx : ∀ w, (x w).1 ≠ .error .blocked) : (guarded x w).1 ≠ .error .blocked :=
  fun hblocked => hx _ ((guarded_blocked_iff hfree).mp hblocked)

theorem create_struct_not_blocked (d : struct_def_t) : (create_struct format local_app_data d (idle h)).1 ≠ .error .blocked := by
  rw [create_struct]
  split
  · simp
  · rw [run_bind_ok (run_layout_struct rfl d)]
    exact guarded_not_blocked rfl fun w => saved_or_failed_not_blocked

theorem create_enum_not_blocked (e : enum_def_t) : (create_enum format local_app_data e (idle h)).1 ≠ .error .blocked := by
  rw [create_enum]
  split
  · simp
  · exact guarded_not_blocked rfl fun w => saved_or_failed_not_blocked

theorem remove_struct_not_blocked (name : List UInt8) :
    (remove_struct format local_app_data name (idle h)).1 ≠ .error .blocked := by
  refine guarded_not_blocked rfl fun w => ?_
  rw [run_read_bind]
  split
  · refine bind_not_blocked (by simp [put]) fun _ w => ?_
    exact bind_not_blocked save_not_blocked fun _ _ => by simp
  · simp

theorem remove_enum_not_blocked (name : List UInt8) : (remove_enum format local_app_data name (idle h)).1 ≠ .error .blocked := by
  refine guarded_not_blocked rfl fun w => ?_
  rw [run_read_bind]
  split
  · refine bind_not_blocked (by simp [put]) fun _ w => ?_
    exact bind_not_blocked save_not_blocked fun _ _ => by simp
  · simp

/-- A member is added without a wait exactly if all the types are base types, or there is no such struct. -/
theorem add_member_blocked_iff (format : Json.Format) (local_app_data name : List UInt8) (field : field_t) :
    (add_member format local_app_data name field (idle h)).1 = .error .blocked ↔
      ∃ d, h.cat.find_struct name = some d ∧ ∃ f ∈ d.fields ++ [field], base_type_size f.type = 0 := by
  rw [add_member, guarded_blocked_iff rfl, run_read_bind]
  cases hfind : h.cat.find_struct name with
  | none => simp [idle, hfind]
  | some d =>
    simp only [idle, hfind, put, run_update_bind, Option.some.injEq, exists_eq_left']
    by_cases hnamed : ∃ f ∈ d.fields ++ [field], base_type_size f.type = 0
    · rw [run_bind_error (run_layout_struct_blocked rfl hnamed)]
      exact iff_of_true rfl hnamed
    · have hbase : ∀ f ∈ d.fields ++ [field], base_type_size f.type ≠ 0 := fun f hf hzero => hnamed ⟨f, hf, hzero⟩
      rw [run_bind_ok (run_layout_struct_held rfl hbase)]
      exact iff_of_false saved_or_failed_not_blocked hnamed

/-- No call waits for a mutex that it holds, but one that adds a member to a struct some member of which
has a type to look up. -/
theorem never_locks_twice_iff (format : Json.Format) (local_app_data : List UInt8) (h : host_t) (call : call_t) :
    (call.run format local_app_data (idle h)).1 ≠ .error .blocked ↔ ¬ call.LooksUp h.cat := by
  have hquery : ∀ {α : Type} {x : Prog host_t α}, (x (idle h)).1 ≠ .error .blocked →
      ((do let _ ← x : Prog host_t Unit) (idle h)).1 ≠ .error .blocked :=
    fun hx => bind_not_blocked hx fun _ _ => by simp
  cases call with
  | get_struct name => exact iff_of_true (hquery (by simp [run_get_struct (w := idle h) rfl])) not_false
  | get_enum name => exact iff_of_true (hquery (by simp [run_get_enum (w := idle h) rfl])) not_false
  | list_structs filter => exact iff_of_true (hquery (guarded_not_blocked rfl fun _ => by simp)) not_false
  | list_enums filter => exact iff_of_true (hquery (guarded_not_blocked rfl fun _ => by simp)) not_false
  | create_struct d => exact iff_of_true (hquery (create_struct_not_blocked d)) not_false
  | create_enum e => exact iff_of_true (hquery (create_enum_not_blocked e)) not_false
  | remove_struct name => exact iff_of_true (hquery (remove_struct_not_blocked name)) not_false
  | remove_enum name => exact iff_of_true (hquery (remove_enum_not_blocked name)) not_false
  | add_member name field =>
    refine not_congr ?_
    rw [call_t.LooksUp, ← add_member_blocked_iff format local_app_data]
    refine ⟨fun hblocked => ?_, fun hblocked => ?_⟩
    · exact by_contra fun hnot => hquery hnot hblocked
    · obtain ⟨r, w', hrun⟩ : ∃ r w', add_member format local_app_data name field (idle h) = (r, w') := ⟨_, _, rfl⟩
      rw [hrun] at hblocked
      obtain rfl : r = .error .blocked := hblocked
      rw [call_t.run, run_bind_error hrun]

end

/-- A struct without members. -/
def empty_struct (name : List UInt8) : struct_def_t where
  name
  fields := []

/-- A catalog that has one struct, and is bound to no binary. -/
def one_struct (name : List UInt8) : catalog_t where
  structs := [(name, empty_struct name)]
  structs_sorted := List.pairwise_singleton _ _
  enums_sorted := no_enums_sorted

/-- A disk that takes what is written. -/
def open_disk : Disk.State where
  files _ := none
  opens _ := true
  room := 2 ^ 30

/-- A format that can write nothing. -/
def no_format : Json.Format where
  dump _ := none
  parse _ := none

/-- A member whose type is another struct. -/
theorem member_of_struct_blocks :
    ¬ ∀ (format : Json.Format) (local_app_data : List UInt8) (h : host_t) (call : call_t),
      (call.run format local_app_data (idle h)).1 ≠ .error .blocked := by
  intro hlaw
  have hreturns := hlaw no_format [] ⟨one_struct (ascii "A"), open_disk⟩
    (.add_member (ascii "A") { name := ascii "b", type := ascii "B" })
  exact hreturns rfl

end slop.core.re.type_catalog
