import ReverseSlop.Core.Re.Catalog

/-! What a mutation that answers false leaves behind. -/
namespace slop.core.re.type_catalog

open Guard
open Numeral (ascii)

inductive mutation_t where
  | create_struct (d : struct_def_t)
  | add_member (struct_name : List UInt8) (field : field_t)
  | create_enum (e : enum_def_t)

/-- The queries answer as before. -/
structure SameView (h h' : host_t) : Prop where
  get_struct : ∀ name, (type_catalog.get_struct name (idle h')).1 = (type_catalog.get_struct name (idle h)).1
  get_enum : ∀ name, (type_catalog.get_enum name (idle h')).1 = (type_catalog.get_enum name (idle h)).1
  list_structs : ∀ filter, (type_catalog.list_structs filter (idle h')).1 = (type_catalog.list_structs filter (idle h)).1
  list_enums : ∀ filter, (type_catalog.list_enums filter (idle h')).1 = (type_catalog.list_enums filter (idle h)).1

section

variable (format : Json.Format) (local_app_data : List UInt8)

def mutation_t.run : mutation_t → Prog host_t (Except String Unit)
  | .create_struct d => type_catalog.create_struct format local_app_data d
  | .add_member name field => type_catalog.add_member format local_app_data name field
  | .create_enum e => type_catalog.create_enum format local_app_data e

/-- If a mutation answers false, nothing has changed. -/
def ChangesNothing (h : host_t) (m : mutation_t) : Prop :=
  ∀ error w, m.run format local_app_data (idle h) = (.ok (.error error), w) → SameView h w.state

/-- There is a binary, and a file for it. -/
def host_t.Persists (h : host_t) : Prop :=
  h.cat.bound_hash ≠ 0 ∧ store_path local_app_data h.cat.bound_hash ≠ [] ∧
    h.disk.opens (store_path local_app_data h.cat.bound_hash) = true

/-- A mutation that its checks refuse, that puts what is there, or that never returns. -/
def mutation_t.Futile (h : host_t) : mutation_t → Prop
  | .create_struct d => d.name = [] ∨ h.cat.find_struct d.name = some (h.cat.layout d)
  | .add_member name field =>
    h.cat.find_struct name = none ∨
      ∃ d, h.cat.find_struct name = some d ∧ ∃ f ∈ d.fields ++ [field], base_type_size f.type = 0
  | .create_enum e => e.name = [] ∨ e.values = [] ∨ h.cat.find_enum e.name = some e

variable {format local_app_data} {h h' : host_t} {w : World host_t}

theorem SameView.of_cat (hcat : h'.cat = h.cat) : SameView h h' := by
  have hidle : ∀ {α : Type} (k : host_t → α), (∀ g g' : host_t, g'.cat = g.cat → k g' = k g) →
      (guarded (Guard.read >>= fun g => pure (k g) : Prog host_t α) (idle h')).1 =
        (guarded (Guard.read >>= fun g => pure (k g) : Prog host_t α) (idle h)).1 := by
    intro α k hk
    exact congrArg Except.ok (hk h h' hcat)
  constructor <;> intro text
  · exact hidle (fun g => g.cat.find_struct text) fun g g' hg => by rw [hg]
  · exact hidle (fun g => g.cat.find_enum text) fun g g' hg => by rw [hg]
  · exact hidle (fun g => matching text g.cat.structs) fun g g' hg => by rw [hg]
  · exact hidle (fun g => matching text g.cat.enums) fun g g' hg => by rw [hg]

theorem SameView.find_struct (hview : SameView h h') (name : List UInt8) :
    h'.cat.find_struct name = h.cat.find_struct name :=
  Except.ok.inj (hview.get_struct name)

theorem SameView.find_enum (hview : SameView h h') (name : List UInt8) : h'.cat.find_enum name = h.cat.find_enum name :=
  Except.ok.inj (hview.get_enum name)

theorem saved_or_failed_fails (hpersists : ¬ w.state.Persists local_app_data) :
    saved_or_failed format local_app_data w = (.ok (.error "persist failed"), w) := by
  have hfails : w.state.cat.bound_hash = 0 ∨ store_path local_app_data w.state.cat.bound_hash = [] ∨
      w.state.disk.opens (store_path local_app_data w.state.cat.bound_hash) = false := by
    by_contra hnot
    push Not at hnot
    exact hpersists ⟨hnot.1, hnot.2.1, by simpa using hnot.2.2⟩
  have hsave : save format local_app_data w = (.ok false, w) := by
    rw [save, save_locked]
    simp only [if_pos hfails]
  rw [saved_or_failed, run_bind_ok hsave]
  rfl

/-- Where there is a file, a mutation succeeds or throws. -/
theorem saved_or_failed_persists (hpersists : w.state.Persists local_app_data) {error : String} {w' : World host_t} :
    saved_or_failed format local_app_data w ≠ (.ok (.error error), w') := by
  obtain ⟨hhash, hpath, hopens⟩ := hpersists
  have hgoes : ¬ (w.state.cat.bound_hash = 0 ∨ store_path local_app_data w.state.cat.bound_hash = [] ∨
      w.state.disk.opens (store_path local_app_data w.state.cat.bound_hash) = false) := by
    simp [hhash, hpath, hopens]
  obtain ⟨r, hsave⟩ : ∃ r : World host_t × Bool, save format local_app_data w = (.ok true, r.1) ∨
      save format local_app_data w = (.error .thrown, r.1) := by
    rw [save, save_locked]
    simp only [if_neg hgoes]
    cases format.dump (to_json w.state.cat) with
    | none => exact ⟨⟨_, true⟩, Or.inr rfl⟩
    | some text => exact ⟨⟨_, true⟩, Or.inl rfl⟩
  rcases hsave with hsave | hsave
  · rw [saved_or_failed, run_bind_ok hsave]
    simp
  · rw [saved_or_failed, run_bind_error hsave]
    simp

/-- A change that is saved leaves no trace when it answers false exactly if it cannot answer so, or is none. -/
theorem committed_iff {change : catalog_t → catalog_t} (hhash : (change h.cat).bound_hash = h.cat.bound_hash) :
    (∀ error w, guarded (do put change; saved_or_failed format local_app_data) (idle h) = (.ok (.error error), w) →
        SameView h w.state) ↔ h.Persists local_app_data ∨ SameView h { h with cat := change h.cat } := by
  have hchanged : ({ h with cat := change h.cat } : host_t).Persists local_app_data ↔ h.Persists local_app_data := by
    simp only [host_t.Persists, hhash]
  by_cases hpersists : h.Persists local_app_data
  · refine iff_of_true (fun error w hrun => ?_) (Or.inl hpersists)
    obtain ⟨w', hbody⟩ := ok_of_guarded hrun
    rw [put, run_update_bind] at hbody
    exact absurd hbody (saved_or_failed_persists (hchanged.mpr hpersists))
  · have hbody : (do put change; saved_or_failed format local_app_data) { idle h with held := true } =
        (.ok (.error "persist failed"), ⟨{ h with cat := change h.cat }, true⟩) := by
      rw [put, run_update_bind]
      exact saved_or_failed_fails fun hthere => hpersists (hchanged.mp hthere)
    rw [guarded_ok rfl hbody, or_iff_right hpersists]
    constructor
    · intro hall
      exact hall _ _ rfl
    · rintro hview error w hrun
      cases hrun
      exact hview

theorem same_view_put_struct {name : List UInt8} {d : struct_def_t} :
    SameView h { h with cat := h.cat.put_struct name d } ↔ h.cat.find_struct name = some d := by
  constructor
  · intro hview
    rw [← hview.find_struct]
    exact SortedMap.find_set h.cat.structs_sorted
  · intro hfind
    have hsame : SortedMap.set name d h.cat.structs = h.cat.structs := SortedMap.set_of_find h.cat.structs_sorted hfind
    exact SameView.of_cat (by simp only [catalog_t.put_struct, hsame])

theorem same_view_put_enum {name : List UInt8} {e : enum_def_t} :
    SameView h { h with cat := h.cat.put_enum name e } ↔ h.cat.find_enum name = some e := by
  constructor
  · intro hview
    rw [← hview.find_enum]
    exact SortedMap.find_set h.cat.enums_sorted
  · intro hfind
    have hsame : SortedMap.set name e h.cat.enums = h.cat.enums := SortedMap.set_of_find h.cat.enums_sorted hfind
    exact SameView.of_cat (by simp only [catalog_t.put_enum, hsame])

/-- A mutation whose checks refuse it has changed nothing. -/
theorem changes_nothing_of_pure {m : mutation_t} (answer : Except String Unit)
    (hrun : m.run format local_app_data (idle h) = (.ok answer, idle h)) : ChangesNothing format local_app_data h m := by
  intro error w hw
  rw [hrun] at hw
  cases hw
  exact SameView.of_cat rfl

theorem add_member_unknown {name : List UInt8} {field : field_t} (hfind : h.cat.find_struct name = none) :
    add_member format local_app_data name field (idle h) = (.ok (.error "unknown struct"), idle h) := by
  refine (guarded_congr (y := pure (.error "unknown struct")) ?_).trans rfl
  rw [run_read_bind]
  simp [idle, hfind]

/-- A struct that gets a member is another one. -/
theorem add_member_iff {name : List UInt8} {field : field_t} {d : struct_def_t} (hfind : h.cat.find_struct name = some d)
    (hbase : ∀ f ∈ d.fields ++ [field], base_type_size f.type ≠ 0) :
    ChangesNothing format local_app_data h (.add_member name field) ↔ h.Persists local_app_data := by
  let longer : struct_def_t := { d with fields := d.fields ++ [field] }
  let change := fun c : catalog_t =>
    (c.put_struct name longer).put_struct name ((c.put_struct name longer).layout longer)
  have hrun : add_member format local_app_data name field (idle h) =
      guarded (do put change; saved_or_failed format local_app_data) (idle h) := by
    refine guarded_congr ?_
    rw [run_read_bind]
    simp only [idle, hfind, put, run_update_bind]
    rw [run_bind_ok (run_layout_struct_held rfl hbase), run_update_bind]
  have hhash : (change h.cat).bound_hash = h.cat.bound_hash := rfl
  rw [ChangesNothing, mutation_t.run, hrun]
  refine (committed_iff hhash).trans (or_iff_left fun hview => ?_)
  have hafter : (change h.cat).find_struct name = some ((h.cat.put_struct name longer).layout longer) :=
    SortedMap.find_set (h.cat.put_struct name longer).structs_sorted
  have hsame : d = (h.cat.put_struct name longer).layout longer := by
    have hbefore := hview.find_struct name
    rw [hafter, hfind] at hbefore
    exact (Option.some.inj hbefore).symm
  have hlength := congrArg (fun s => s.fields.length) hsame
  simp [length_layout, longer] at hlength

/-- A mutation that answers false has changed nothing exactly if it could have been saved, or had nothing
to change. -/
theorem failed_changes_nothing_iff (format : Json.Format) (local_app_data : List UInt8) (h : host_t) (m : mutation_t) :
    ChangesNothing format local_app_data h m ↔ h.Persists local_app_data ∨ m.Futile h := by
  cases m with
  | create_struct d =>
    by_cases hname : d.name = []
    · refine iff_of_true (changes_nothing_of_pure (.error "missing name") ?_) (Or.inr (Or.inl hname))
      rw [mutation_t.run, create_struct, if_pos hname]
      rfl
    · have hrun : create_struct format local_app_data d (idle h) = guarded (do
          put fun c => c.put_struct d.name (h.cat.layout d)
          saved_or_failed format local_app_data) (idle h) := by
        rw [create_struct, if_neg hname, run_bind_ok (run_layout_struct rfl d)]
        rfl
      rw [ChangesNothing, mutation_t.run, hrun, committed_iff rfl, same_view_put_struct, mutation_t.Futile, or_iff_right hname]
  | create_enum e =>
    by_cases hrefused : e.name = [] ∨ e.values = []
    · refine iff_of_true (changes_nothing_of_pure (.error "missing name/values") ?_) (Or.inr (or_assoc.mp (Or.inl hrefused)))
      rw [mutation_t.run, create_enum, if_pos hrefused]
      rfl
    · rw [ChangesNothing, mutation_t.run, create_enum, if_neg hrefused, committed_iff rfl, same_view_put_enum,
        mutation_t.Futile, ← or_assoc (a := e.name = []), or_iff_right hrefused]
  | add_member name field =>
    cases hfind : h.cat.find_struct name with
    | none =>
      exact iff_of_true (changes_nothing_of_pure (.error "unknown struct") (add_member_unknown hfind)) (Or.inr (Or.inl hfind))
    | some d =>
      by_cases hnamed : ∃ f ∈ d.fields ++ [field], base_type_size f.type = 0
      · refine iff_of_true ?_ (Or.inr (Or.inr ⟨d, hfind, hnamed⟩))
        intro error w hrun
        have hblocked := (add_member_blocked_iff format local_app_data name field).mpr ⟨d, hfind, hnamed⟩
        rw [mutation_t.run] at hrun
        rw [hrun] at hblocked
        cases hblocked
      · have hbase : ∀ f ∈ d.fields ++ [field], base_type_size f.type ≠ 0 := fun f hf hzero => hnamed ⟨f, hf, hzero⟩
        rw [add_member_iff hfind hbase, mutation_t.Futile, hfind]
        simp only [reduceCtorEq, Option.some.injEq, exists_eq_left', hnamed, or_self, or_false]

end

/-- Without a binary a struct is put into the catalog although the answer is false. -/
theorem unsaved_struct_is_served :
    ¬ ∀ (format : Json.Format) (local_app_data : List UInt8) (h : host_t) (m : mutation_t),
      ChangesNothing format local_app_data h m := by
  intro hlaw
  have hview := hlaw no_format [] ⟨one_struct (ascii "A"), open_disk⟩ (.create_struct (empty_struct (ascii "B")))
    "persist failed" _ rfl
  have hserved := congrArg Option.isSome (hview.find_struct (ascii "B"))
  exact absurd hserved (by decide)

end slop.core.re.type_catalog
