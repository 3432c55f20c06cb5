import ReverseSlop.Core.Re.TypeCatalog

namespace slop.core.re.type_catalog

open Numeral (ascii)
open Json (Format valid_utf8)
open disasm.binary_state

/-- What is stored for a binary: its annotations, or its types. -/
inductive store_t where
  | annotations (b : annotated_t)
  | types (c : catalog_t)

def store_t.document : store_t → Json.Value
  | .annotations b => b.root
  | .types c => to_json c

/-- The names and the comments, which may be any bytes. -/
def store_t.texts : store_t → List (List UInt8)
  | .annotations b => b.symbols.entries.map Sigma.snd ++ b.comments.entries.map Sigma.snd
  | .types c => c.texts

section

variable (format : Format) (local_app_data : List UInt8)

/-- The file of a store, or an empty path. -/
def store_t.path : store_t → List UInt8
  | .annotations b => symbols_path_for local_app_data b.file_hash
  | .types c => if c.bound_hash = 0 then [] else store_path local_app_data c.bound_hash

def store_t.save (d : Disk.State) : store_t → Disk.State
  | .annotations b => save_meta format local_app_data d b
  | .types c => (save_locked format local_app_data d c).2

/-- A save has a path, opens it and writes its whole document. -/
def store_t.Completes (d : Disk.State) (s : store_t) : Prop :=
  s.path local_app_data ≠ [] ∧ d.Completes (s.path local_app_data) (format.dump s.document)

/-- A save that does not complete leaves every file as it was, and what is loaded from it. -/
def AllOrNothing (d : Disk.State) (s : store_t) : Prop :=
  ¬ s.Completes format local_app_data d → (s.save format local_app_data d).files = d.files ∧
    ∀ b, load_meta format local_app_data (s.save format local_app_data d) b = load_meta format local_app_data d b

variable {format local_app_data} {d : Disk.State} {s : store_t}

theorem valid_texts_json (texts : texts_t) :
    (Json.Value.object (texts_json texts)).valid = true ↔ ∀ e ∈ texts.entries, valid_utf8 e.2 = true := by
  have hkey : ∀ va, valid_utf8 (va_key va) = true := by
    intro va
    obtain ⟨ds, -, hds, -, hprint⟩ := Numeral.print_eq (n := va.toNat) (show 1 < 16 by omega)
    refine Json.valid_utf8_ascii ?_
    rw [va_key, hprint, List.forall_mem_map]
    intro d hd
    exact Numeral.upper_lt (hds d hd)
  rw [Json.Value.valid, Json.valid_members_iff]
  constructor
  · intro hall e he
    simpa [Json.Value.valid] using (hall _ (mem_texts_json.mpr ⟨e, he, rfl⟩)).2
  · intro hall x hx
    obtain ⟨e, he, rfl⟩ := mem_texts_json.mp hx
    exact ⟨hkey _, by simpa [Json.Value.valid] using hall e he⟩

/-- The document of a store can be written if its texts are valid. -/
theorem valid_document : s.document.valid = true ↔ ∀ t ∈ s.texts, valid_utf8 t = true := by
  cases s with
  | types c => exact valid_to_json c
  | annotations b =>
    have hkeys : valid_utf8 (ascii "base") = true ∧ valid_utf8 (ascii "bookmarks") = true ∧
        valid_utf8 (ascii "comments") = true ∧ valid_utf8 (ascii "symbols") = true := by decide
    obtain ⟨hbase, hbookmarks, hcomments, hsymbols⟩ := hkeys
    have hmarks : (Json.Value.array (b.bookmarks.map .number_unsigned)).valid = true := by
      simp [Json.Value.valid, Json.valid_items_iff]
    rw [store_t.document, root_eq, Json.Value.valid]
    simp only [Json.valid_members, hbase, hbookmarks, hcomments, hsymbols, hmarks, Bool.true_and, Bool.and_true,
      Bool.and_eq_true, valid_texts_json, store_t.texts, List.forall_mem_append, List.forall_mem_map]
    simp [Json.Value.valid, and_comm]

/-- Both stores write their files in the same way. -/
theorem save_eq (s : store_t) : s.save format local_app_data d =
    if s.path local_app_data = [] then d else d.rewrite (s.path local_app_data) (format.dump s.document) := by
  cases s with
  | annotations b => rfl
  | types c =>
    by_cases hhash : c.bound_hash = 0
    · simp [store_t.save, save_locked, store_t.path, hhash]
    · by_cases hpath : store_path local_app_data c.bound_hash = []
      · simp [store_t.save, save_locked, store_t.path, hpath]
      · cases hopens : d.opens (store_path local_app_data c.bound_hash) with
        | false => simp [store_t.save, save_locked, store_t.path, hhash, hpath, hopens, Disk.rewrite_closed]
        | true => simp [store_t.save, save_locked, store_t.path, store_t.document, hhash, hpath, hopens]

/-- What is loaded depends on the files. -/
theorem load_meta_congr {d' : Disk.State} (hfiles : d'.files = d.files) (b : annotated_t) :
    load_meta format local_app_data d' b = load_meta format local_app_data d b := by
  simp only [load_meta, hfiles]

/-- A failing save leaves the file alone exactly if it fails before the file is opened, or cannot fail
behind that point, or leaves there what was there. -/
theorem save_all_or_nothing_iff (hstrict : format.Strict) : AllOrNothing format local_app_data d s ↔
    s.path local_app_data = [] ∨ d.opens (s.path local_app_data) = false ∨
      ((∀ t ∈ s.texts, valid_utf8 t = true) ∧ ((format.dump s.document).getD []).length ≤ d.room) ∨
      d.files (s.path local_app_data) = some (((format.dump s.document).getD []).take d.room) := by
  have hloads : AllOrNothing format local_app_data d s ↔
      (s.Completes format local_app_data d ∨ (s.save format local_app_data d).files = d.files) := by
    refine ⟨fun h => or_iff_not_imp_left.mpr fun hfails => (h hfails).1, fun h hfails => ?_⟩
    have hfiles := h.resolve_left hfails
    exact ⟨hfiles, load_meta_congr hfiles⟩
  have hwritten : ((∀ t ∈ s.texts, valid_utf8 t = true) ∧ ((format.dump s.document).getD []).length ≤ d.room) ↔
      ∃ t ∈ format.dump s.document, t.length ≤ d.room := by
    rw [← valid_document, ← hstrict s.document]
    cases format.dump s.document <;> simp
  rw [hloads, hwritten, save_eq]
  by_cases hpath : s.path local_app_data = []
  · simp [hpath]
  · rw [if_neg hpath, store_t.Completes, ← Disk.completes_or_same_iff]
    simp [hpath]

end

/-- A struct whose only member was declared as one character of two bytes: its type is the first byte,
its name the second. -/
def split_character : catalog_t where
  structs := [(ascii "S", { name := ascii "S", fields := [{ name := [0xA9], type := [0xC3] }] })]
  bound_hash := 0xAB
  structs_sorted := List.pairwise_singleton _ _
  enums_sorted := no_enums_sorted

/-- A format that can write no document with such texts. -/
def strict_format : Format where
  dump v := if v.valid then some (ascii "null") else none
  parse t := if t = ascii "null" then some .null else none

def stored_disk (opens : Bool) : Disk.State where
  files _ := some (ascii "null")
  opens _ := opens
  room := 2 ^ 30

theorem strict_format_strict : strict_format.Strict := by
  intro v
  cases hvalid : v.valid <;> simp [strict_format, hvalid]

/-- The file cannot be opened, and is kept. -/
theorem closed_file_is_kept : AllOrNothing strict_format (ascii "C:") (stored_disk false) (.types split_character) :=
  (save_all_or_nothing_iff strict_format_strict).mpr (Or.inr (Or.inl rfl))

/-- The file is emptied before the document turns out to be one that cannot be written. -/
theorem split_character_empties_file :
    ¬ ∀ (format : Format) (local_app_data : List UInt8) (d : Disk.State) (s : store_t), format.Strict →
      AllOrNothing format local_app_data d s := by
  intro hlaw
  have hkept := hlaw strict_format (ascii "C:") (stored_disk true) (.types split_character) strict_format_strict
  have hinvalid : strict_format.dump (to_json split_character) = none := by decide
  have hfails : ¬ store_t.Completes strict_format (ascii "C:") (stored_disk true) (.types split_character) := by
    rintro ⟨-, -, t, ht, -⟩
    rw [store_t.document, hinvalid] at ht
    cases ht
  have hsame := congrFun (hkept hfails).1 (store_path (ascii "C:") 0xAB)
  exact absurd hsame (by decide)

end slop.core.re.type_catalog
