import Mathlib.Data.List.AList
import ReverseSlop.Library.Storage
import ReverseSlop.Library.Json
import ReverseSlop.Library.Numeral

namespace slop.core.disasm.binary_state

open Numeral (ascii)

/-- Texts by address, as in an `unordered_map`. -/
abbrev texts_t := AList fun _ : UInt64 => List UInt8

/-- The session `binary_t` as far as its annotations go. -/
structure annotated_t where
  file_hash : UInt64
  image_base : UInt64 := 0
  base : UInt64
  symbols : texts_t := ∅
  comments : texts_t := ∅
  bookmarks : List UInt64 := []

def symbols_dir (local_app_data : List UInt8) : List UInt8 :=
  if local_app_data.length = 0 ∨ local_app_data.length ≥ 260 then []
  else local_app_data ++ ascii "\\reverse-slop\\symbols"

/-- `%016llX`. -/
def hash_name (hash : UInt64) : List UInt8 :=
  List.replicate (16 - (Numeral.print 16 hash.toNat).length) 48 ++ Numeral.print 16 hash.toNat

def symbols_path_for (local_app_data : List UInt8) (hash : UInt64) : List UInt8 :=
  if symbols_dir local_app_data = [] then []
  else symbols_dir local_app_data ++ ascii "\\" ++ hash_name hash ++ ascii ".json"

/-! Saving. -/

/-- `%llX`. -/
def va_key (va : UInt64) : List UInt8 := Numeral.print 16 va.toNat

def texts_json (texts : texts_t) : List (List UInt8 × Json.Value) :=
  SortedMap.collect (fun e => (va_key e.1, .string e.2)) texts.entries

/-- The document that `save_meta` writes. -/
def annotated_t.root (b : annotated_t) : Json.Value :=
  .object <|
    SortedMap.set (ascii "bookmarks") (.array (b.bookmarks.map .number_unsigned)) <|
    SortedMap.set (ascii "comments") (.object (texts_json b.comments)) <|
    SortedMap.set (ascii "symbols") (.object (texts_json b.symbols)) <|
    SortedMap.set (ascii "base") (.number_unsigned b.base) []

/-! Loading. -/

def saved_base (j : Json.Value) (b : annotated_t) : UInt64 :=
  match j.member (ascii "base") with
  | some (.number_unsigned n) => n
  | _ => b.image_base

def delta (saved_base base : UInt64) : Int64 :=
  if saved_base ≠ 0 ∧ saved_base ≠ base then base.toInt64 - saved_base.toInt64 else 0

def remap (delta : Int64) (va : UInt64) : UInt64 :=
  if delta = 0 then va
  else if delta > 0 then va + delta.toUInt64
  else va - (-delta).toUInt64

def key_va (key : List UInt8) : UInt64 := (Numeral.strtoul 16 (2 ^ 64 - 1) key).toUInt64

/-- A member of an object of texts. -/
def load_text (delta : Int64) (texts : texts_t) (e : List UInt8 × Json.Value) : texts_t :=
  match e.2 with
  | .string text => if key_va e.1 ≠ 0 then texts.insert (remap delta (key_va e.1)) text else texts
  | _ => texts

def load_texts (delta : Int64) (j : Option Json.Value) (texts : texts_t) : texts_t :=
  match j with
  | some (.object members) => members.foldl (load_text delta) texts
  | _ => texts

def isxdigit (c : UInt8) : Bool := (48 ≤ c && c ≤ 57) || (65 ≤ c && c ≤ 70) || (97 ≤ c && c ≤ 102)

/-- A member of the flat form, in which addresses and names are the document. -/
def load_legacy (delta : Int64) (symbols : texts_t) (e : List UInt8 × Json.Value) : texts_t :=
  match e.2 with
  | .string name =>
    if e.1.head?.any isxdigit ∧ key_va e.1 ≠ 0 ∧ remap delta (key_va e.1) ∉ symbols then
      symbols.insert (remap delta (key_va e.1)) name
    else symbols
  | _ => symbols

def load_flat (delta : Int64) (j : Json.Value) (symbols : texts_t) : texts_t :=
  match j with
  | .object members =>
    if (j.member (ascii "name")).isSome then symbols else members.foldl (load_legacy delta) symbols
  | _ => symbols

def load_bookmark (delta : Int64) : Json.Value → Option UInt64
  | .number_unsigned n => some (remap delta n)
  | _ => none

def load_bookmarks (delta : Int64) : Option Json.Value → List UInt64
  | some (.array items) => items.filterMap (load_bookmark delta)
  | _ => []

/-- What a document that could be read puts into the session. -/
def load_root (j : Json.Value) (b : annotated_t) : annotated_t :=
  let delta := delta (saved_base j b) b.base
  { b with
    symbols := load_flat delta j (load_texts delta (j.member (ascii "symbols")) b.symbols)
    comments := load_texts delta (j.member (ascii "comments")) ∅
    bookmarks := load_bookmarks delta (j.member (ascii "bookmarks")) }

section

variable (format : Json.Format) (local_app_data : List UInt8)

def save_meta (d : Disk.State) (b : annotated_t) : Disk.State :=
  if symbols_path_for local_app_data b.file_hash = [] then d
  else d.rewrite (symbols_path_for local_app_data b.file_hash) (format.dump b.root)

/-- The symbols of the session that is opened; its comments and bookmarks are new. -/
def load_meta (d : Disk.State) (b : annotated_t) : annotated_t :=
  let b := { b with comments := ∅, bookmarks := [] }
  if symbols_path_for local_app_data b.file_hash = [] then b
  else
    match d.files (symbols_path_for local_app_data b.file_hash) with
    | none => b
    | some text =>
      match format.parse text with
      | none => { b with symbols := ∅ }
      | some j => load_root j b

/-- `save_meta` has a path, opens it and writes its whole document. -/
def SaveCompletes (d : Disk.State) (b : annotated_t) : Prop :=
  symbols_path_for local_app_data b.file_hash ≠ [] ∧
    d.Completes (symbols_path_for local_app_data b.file_hash) (format.dump b.root)

end

section

variable {a : UInt64} {text : List UInt8} {texts : texts_t}

theorem key_va_va_key (va : UInt64) : key_va (va_key va) = va := by
  have hle : va.toNat ≤ 2 ^ 64 - 1 := Nat.le_pred_of_lt va.toNat_lt
  rw [key_va, va_key, Numeral.strtoul_print (by decide) (by decide) hle, Nat.toUInt64_eq, UInt64.ofNat_toNat]

theorem va_key_injective {va va' : UInt64} (hsame : va_key va = va_key va') : va = va' := by
  rw [← key_va_va_key va, hsame, key_va_va_key va']

/-- Both signs of the difference move an address by the bases' difference in 64 bits. -/
theorem remap_eq {saved_base base : UInt64} (hbase : saved_base ≠ 0 ∨ base = 0) (va : UInt64) :
    remap (delta saved_base base) va = va + (base - saved_base) := by
  have hmoves : ∀ d : Int64, d.toUInt64 = base - saved_base → remap d va = va + (base - saved_base) := by
    intro d hd
    unfold remap
    split
    · rename_i hzero
      have hnone : base - saved_base = 0 := by
        rw [← hd, hzero]
        rfl
      simp [hnone]
    · split
      · rw [hd]
      · rw [Int64.toUInt64_neg, hd]
        grind
  unfold delta
  split
  · exact hmoves _ (by simp)
  · rename_i hsame
    refine hmoves 0 ?_
    have hbases : base = saved_base := by grind
    rw [hbases, UInt64.sub_self]
    rfl

/-- Without a saved base nothing is moved. -/
theorem remap_zero (base va : UInt64) : remap (delta 0 base) va = va := by
  simp [delta, remap]

/-! The objects of texts. -/

/-- The object of texts has one member for each text. -/
theorem mem_texts_json {x : List UInt8 × Json.Value} :
    x ∈ texts_json texts ↔ ∃ e ∈ texts.entries, x = (va_key e.1, .string e.2) := by
  refine SortedMap.mem_collect ((List.nodupKeys_iff_pairwise.mp texts.nodupKeys).imp ?_)
  exact fun hne hkey => hne (va_key_injective hkey)

/-- The members of an object of texts are put where their addresses are moved to. -/
theorem mem_lookup_foldl {delta : Int64} (hinj : Function.Injective (remap delta))
    {members : List (List UInt8 × Json.Value)} (hkeys : members.Pairwise fun a b => a.1 ≠ b.1)
    (hmembers : ∀ e ∈ members, ∃ a text, a ≠ 0 ∧ e = (va_key a, .string text)) (texts : texts_t) (x : UInt64) :
    text ∈ (members.foldl (load_text delta) texts).lookup x ↔
      (∃ a, (va_key a, .string text) ∈ members ∧ remap delta a = x) ∨
        (text ∈ texts.lookup x ∧ ∀ a, va_key a ∈ members.map Prod.fst → remap delta a ≠ x) := by
  induction members generalizing texts with
  | nil => simp
  | cons e members ih =>
    obtain ⟨hnew, hrest⟩ := List.pairwise_cons.mp hkeys
    obtain ⟨⟨a, t, hzero, rfl⟩, hothers⟩ := List.forall_mem_cons.mp hmembers
    have hput : load_text delta texts (va_key a, .string t) = texts.insert (remap delta a) t := by
      simp [load_text, key_va_va_key, hzero]
    rw [List.foldl_cons, ih hrest hothers, hput]
    by_cases hx : remap delta a = x
    · -- the new text is there, and none of the others goes to its place
      rw [← hx, AList.lookup_insert]
      have hnone : ∀ s, ¬ ∃ a', (va_key a', Json.Value.string s) ∈ members ∧ remap delta a' = remap delta a := by
        rintro s ⟨a', ha', hsame⟩
        exact hnew _ ha' (congrArg va_key (hinj hsame).symm)
      have hplace : ∀ a', va_key a' ∈ members.map Prod.fst → remap delta a' ≠ remap delta a := by
        intro a' ha' hsame
        obtain ⟨e, he, hkey⟩ := List.mem_map.mp ha'
        exact hnew e he (by rw [hkey, hinj hsame])
      constructor
      · rintro (⟨a', ha'⟩ | ⟨ht, -⟩)
        · exact absurd ⟨a', ha'⟩ (hnone text)
        · obtain rfl : t = text := by simpa using ht
          exact Or.inl ⟨a, List.mem_cons_self, rfl⟩
      · rintro (⟨a', ha', hsame⟩ | ⟨-, hall⟩)
        · rcases List.mem_cons.mp ha' with heq | ha'
          · obtain ⟨-, rfl⟩ : va_key a' = va_key a ∧ text = t := by simpa using heq
            exact Or.inr ⟨rfl, hplace⟩
          · exact absurd ⟨a', ha', hsame⟩ (hnone text)
        · exact absurd rfl (hall a (by simp))
    · rw [AList.lookup_insert_ne (Ne.symm hx)]
      refine or_congr (exists_congr fun a' => ?_) (and_congr_right fun _ => forall_congr' fun a' => ?_)
      · refine and_congr_left fun hsame => ?_
        rw [List.mem_cons]
        refine ⟨Or.inr, ?_⟩
        rintro (heq | ha')
        · have hkey : va_key a' = va_key a := (Prod.mk.inj heq).1
          exact absurd (hsame ▸ congrArg (remap delta) (va_key_injective hkey).symm) hx
        · exact ha'
      · rw [List.map_cons, List.mem_cons]
        refine ⟨fun hall hor => ?_, fun hall ha' => hall (Or.inr ha')⟩
        rcases hor with hkey | ha'
        · rw [va_key_injective hkey]
          exact hx
        · exact hall ha'

/-- An object of texts is loaded into an empty map with every address moved. -/
theorem lookup_load_texts {delta : Int64} (hinj : Function.Injective (remap delta)) (hzero : 0 ∉ texts) (a : UInt64) :
    (load_texts delta (some (.object (texts_json texts))) ∅).lookup (remap delta a) = texts.lookup a := by
  have hmembers : ∀ e ∈ texts_json texts, ∃ a text, a ≠ 0 ∧ e = (va_key a, Json.Value.string text) := by
    intro x hx
    obtain ⟨e, he, rfl⟩ := mem_texts_json.mp hx
    refine ⟨e.1, e.2, fun hsame => hzero ?_, rfl⟩
    rw [← hsame]
    exact List.mem_keys_of_mem he
  have hkeys : (texts_json texts).Pairwise fun a b => a.1 ≠ b.1 := SortedMap.sorted_collect.ne
  refine Option.ext fun text => ?_
  rw [← Option.mem_def, ← Option.mem_def, load_texts, mem_lookup_foldl hinj hkeys hmembers]
  constructor
  · rintro (⟨a', ha', hsame⟩ | ⟨hnone, -⟩)
    · obtain ⟨e, he, heq⟩ := mem_texts_json.mp ha'
      obtain ⟨hkey, rfl⟩ : va_key a' = va_key e.1 ∧ text = e.2 := by simpa using heq
      rw [← hinj hsame, va_key_injective hkey]
      exact AList.mem_lookup_iff.mpr he
    · simp at hnone
  · intro he
    exact Or.inl ⟨a, mem_texts_json.mpr ⟨⟨a, text⟩, AList.mem_lookup_iff.mp he, rfl⟩, rfl⟩

/-- Where the bases are known, a text is moved by their difference. -/
theorem lookup_moved {saved_base base : UInt64} (hbase : saved_base ≠ 0 ∨ base = 0) (hzero : 0 ∉ texts) (a : UInt64) :
    (load_texts (delta saved_base base) (some (.object (texts_json texts))) ∅).lookup (a - saved_base + base) =
      texts.lookup a := by
  have hinj : Function.Injective (remap (delta saved_base base)) := by
    intro a a' hsame
    rw [remap_eq hbase, remap_eq hbase] at hsame
    grind
  have hmove : a - saved_base + base = remap (delta saved_base base) a := by
    rw [remap_eq hbase]
    grind
  rw [hmove]
  exact lookup_load_texts hinj hzero a

/-- A text that was saved at base 0 stays at its address. -/
theorem lookup_stays (base : UInt64) (hzero : 0 ∉ texts) (a : UInt64) :
    (load_texts (delta 0 base) (some (.object (texts_json texts))) ∅).lookup a = texts.lookup a := by
  have hinj : Function.Injective (remap (delta 0 base)) := by
    intro a a' hsame
    rwa [remap_zero, remap_zero] at hsame
  have hlookup := lookup_load_texts hinj hzero a
  rwa [remap_zero] at hlookup

end

section

variable {format : Json.Format} {local_app_data : List UInt8} {d : Disk.State} {saved b : annotated_t}

theorem root_eq (b : annotated_t) :
    b.root = .object
      [(ascii "base", .number_unsigned b.base), (ascii "bookmarks", .array (b.bookmarks.map .number_unsigned)),
        (ascii "comments", .object (texts_json b.comments)), (ascii "symbols", .object (texts_json b.symbols))] := rfl

/-- No member of a saved document is a text, so that the flat form has nothing to load. -/
theorem load_flat_root (delta : Int64) (symbols : texts_t) : load_flat delta saved.root symbols = symbols := rfl

/-- What is loaded from a saved document, with its addresses moved. -/
theorem load_root_root (hfresh : b.symbols = ∅) :
    load_root saved.root b =
      { b with
        symbols := load_texts (delta saved.base b.base) (some (.object (texts_json saved.symbols))) ∅
        comments := load_texts (delta saved.base b.base) (some (.object (texts_json saved.comments))) ∅
        bookmarks := saved.bookmarks.map (remap (delta saved.base b.base)) } := by
  have hbase : saved_base saved.root b = saved.base := rfl
  have hmarks : saved.root.member (ascii "bookmarks") = some (.array (saved.bookmarks.map .number_unsigned)) := rfl
  have hsymbols : saved.root.member (ascii "symbols") = some (.object (texts_json saved.symbols)) := rfl
  have hcomments : saved.root.member (ascii "comments") = some (.object (texts_json saved.comments)) := rfl
  simp [load_root, load_flat_root, hbase, hmarks, hsymbols, hcomments, hfresh, load_bookmarks, load_bookmark,
    List.filterMap_map, Function.comp_def]

/-- A session loads what was saved for the same image. -/
theorem load_meta_save_meta (hsaved : SaveCompletes format local_app_data d saved)
    (hround : format.RoundTrips saved.root) (hhash : b.file_hash = saved.file_hash) :
    load_meta format local_app_data (save_meta format local_app_data d saved) b =
      load_root saved.root { b with comments := ∅, bookmarks := [] } := by
  obtain ⟨hpath, hwrite⟩ := hsaved
  obtain ⟨text, hdump, -⟩ := hwrite.2
  rw [hdump] at hwrite
  have hstored : (save_meta format local_app_data d saved).files (symbols_path_for local_app_data saved.file_hash) =
      some text := by
    rw [save_meta, if_neg hpath, hdump]
    exact hwrite.files_eq
  simp [load_meta, hhash, hpath, hstored, hround text hdump]

/-- Every annotation is where the move of the base took it, and there is nothing else. -/
structure Rebased (saved b : annotated_t) : Prop where
  symbols : ∀ a, b.symbols.lookup (a - saved.base + b.base) = saved.symbols.lookup a
  comments : ∀ a, b.comments.lookup (a - saved.base + b.base) = saved.comments.lookup a
  bookmarks : b.bookmarks = saved.bookmarks.map fun a => a - saved.base + b.base

/-- Moving the annotations by a base would not change them. -/
structure Periodic (saved : annotated_t) (base : UInt64) : Prop where
  symbols : ∀ a, saved.symbols.lookup (a + base) = saved.symbols.lookup a
  comments : ∀ a, saved.comments.lookup (a + base) = saved.comments.lookup a
  bookmarks : saved.bookmarks = []

/-- Annotations move with the base of the image, unless they were saved at base 0. -/
theorem annotations_rebased_iff (hsaved : SaveCompletes format local_app_data d saved)
    (hround : format.RoundTrips saved.root) (hhash : b.file_hash = saved.file_hash) (hfresh : b.symbols = ∅)
    (hsymbols : 0 ∉ saved.symbols) (hcomments : 0 ∉ saved.comments) :
    Rebased saved (load_meta format local_app_data (save_meta format local_app_data d saved) b) ↔
      saved.base ≠ 0 ∨ b.base = 0 ∨ Periodic saved b.base := by
  rw [load_meta_save_meta hsaved hround hhash, load_root_root (b := { b with comments := ∅, bookmarks := [] }) hfresh]
  by_cases hbase : saved.base ≠ 0 ∨ b.base = 0
  · refine iff_of_true ⟨fun a => lookup_moved hbase hsymbols a, fun a => lookup_moved hbase hcomments a, ?_⟩
      (or_assoc.mp (Or.inl hbase))
    refine List.map_congr_left fun a _ => ?_
    rw [remap_eq hbase]
    grind
  · -- saved at base 0, the annotations stay at their addresses
    obtain ⟨hsaved_base, hne⟩ := not_or.mp hbase
    rw [not_not] at hsaved_base
    have hmove : ∀ a, a - saved.base + b.base = a + b.base := by
      intro a
      rw [hsaved_base, UInt64.sub_zero]
    constructor
    · rintro ⟨hs, hc, hb⟩
      refine Or.inr (Or.inr ⟨fun a => ?_, fun a => ?_, ?_⟩)
      · rw [← hs a, hmove, hsaved_base]
        exact (lookup_stays _ hsymbols _).symm
      · rw [← hc a, hmove, hsaved_base]
        exact (lookup_stays _ hcomments _).symm
      · refine List.eq_nil_iff_forall_not_mem.mpr fun a ha => hne ?_
        have hall := List.map_inj_left.mp hb a ha
        rw [hmove, hsaved_base, remap_zero] at hall
        grind
    · rintro (hsaved | hb | ⟨hs, hc, hb⟩)
      · exact absurd hsaved_base hsaved
      · exact absurd hb hne
      · refine ⟨fun a => ?_, fun a => ?_, ?_⟩
        · rw [hmove, hsaved_base]
          exact (lookup_stays _ hsymbols _).trans (hs a)
        · rw [hmove, hsaved_base]
          exact (lookup_stays _ hcomments _).trans (hc a)
        · simp [hb]

end

/-- A session with a symbol and a bookmark. -/
def session_at (base : UInt64) : annotated_t where
  file_hash := 0xAB
  base
  symbols := AList.singleton 0x11 (ascii "f")
  bookmarks := [0x12]

/-- The document of a session, with its base in decimal. -/
def session_text (base : String) : List UInt8 := ascii <|
  "\x7b\n  \"base\": " ++ base ++ ",\n  \"bookmarks\": [\n    18\n  ],\n  \"comments\": \x7b\x7d,\n" ++
    "  \"symbols\": \x7b\n    \"11\": \"f\"\n  \x7d\n\x7d"

theorem length_session_text (base : String) : (session_text base).length = base.length + 95 := by
  simp [session_text, ascii, String.length_toList]

/-- A format that knows one document. -/
def format_of (v : Json.Value) (text : List UInt8) : Json.Format where
  dump _ := some text
  parse t := if t = text then some v else none

/-- A disk that takes what is written. -/
def empty_disk : Disk.State where
  files _ := none
  opens _ := true
  room := 2 ^ 30

theorem format_of_round_trips (v : Json.Value) (text : List UInt8) : (format_of v text).RoundTrips v := by
  intro t ht
  obtain rfl : text = t := by simpa [format_of] using ht
  simp [format_of]

theorem session_save_completes (base : UInt64) {v : Json.Value} {text : List UInt8} (htext : text.length ≤ 2 ^ 30) :
    SaveCompletes (format_of v text) (ascii "C:") empty_disk (session_at base) :=
  ⟨(by decide : symbols_path_for (ascii "C:") 0xAB ≠ []), rfl, text, rfl, htext⟩

/-- An image that was at base 16 is opened more than 2^63 above it. -/
theorem symbol_moves_up :
    Rebased (session_at 16)
      (load_meta (format_of (session_at 16).root (session_text "16")) (ascii "C:")
        (save_meta (format_of (session_at 16).root (session_text "16")) (ascii "C:") empty_disk (session_at 16))
        { file_hash := 0xAB, base := 0x8000000000000020 }) := by
  have hsaved : SaveCompletes (format_of (session_at 16).root (session_text "16")) (ascii "C:") empty_disk (session_at 16) :=
    session_save_completes 16 (by rw [length_session_text]; decide)
  exact (annotations_rebased_iff (b := { file_hash := 0xAB, base := 0x8000000000000020 }) hsaved
    (format_of_round_trips _ _) rfl rfl (by decide) (by decide)).mpr (Or.inl (by decide))

/-- An image that was at base 0 is opened at another base: its bookmark stays at its old address. -/
theorem bookmark_stays_behind :
    ¬ ∀ (format : Json.Format) (local_app_data : List UInt8) (d : Disk.State) (saved b : annotated_t),
      SaveCompletes format local_app_data d saved → format.RoundTrips saved.root → b.file_hash = saved.file_hash →
      b.symbols = ∅ → 0 ∉ saved.symbols → 0 ∉ saved.comments → 0 ∉ saved.bookmarks →
        Rebased saved (load_meta format local_app_data (save_meta format local_app_data d saved) b) := by
  intro hlaw
  have hsaved : SaveCompletes (format_of (session_at 0).root (session_text "0")) (ascii "C:") empty_disk (session_at 0) :=
    session_save_completes 0 (by rw [length_session_text]; decide)
  have hround := format_of_round_trips (session_at 0).root (session_text "0")
  have hmoved := (hlaw _ _ _ _ { file_hash := 0xAB, base := 0x140000000 } hsaved hround rfl rfl (by decide) (by decide)
    (by decide)).bookmarks
  rw [load_meta_save_meta hsaved hround (b := { file_hash := 0xAB, base := 0x140000000 }) rfl] at hmoved
  exact absurd hmoved (by decide)

end slop.core.disasm.binary_state
