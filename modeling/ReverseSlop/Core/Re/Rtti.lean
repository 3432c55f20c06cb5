import ReverseSlop.Core.Disasm.PeParse
import ReverseSlop.Library.Sorted
import Mathlib.Data.List.DropRight

namespace slop.core.re

open disasm Numeral

/-- The bytes of a section that the file holds. -/
structure section_span_t where
  va : UInt64 := 0
  file_off : Nat := 0
  raw_size : Nat := 0
  writable : Bool := false

def section_span_t.bytes (sp : section_span_t) (file : List UInt8) : List UInt8 := (file.drop sp.file_off).take sp.raw_size

structure rtti_class_t where
  name : List UInt8
  td_va : UInt64 := 0
  col_vas : List UInt64 := []
  vftables : List UInt64 := []
  deriving DecidableEq

structure rtti_result_t where
  classes : List rtti_class_t := []
  scanned_bytes : Nat := 0

structure td_hit_t where
  va : UInt64
  rva : UInt32
  name : List UInt8

structure col_hit_t where
  va : UInt64
  td_rva : UInt32

/-- `.?AVMyClass@@` becomes `MyClass`. -/
def demangle_msvc_name (raw : List UInt8) : List UInt8 :=
  if ascii ".?AV" <+: raw then ((raw.drop 4).rdropWhile (· = 64)).map fun c => if c = 64 then 58 else c else raw

/-- The name of a type begins at a place. -/
def name_begins (d : List UInt8) (i : Nat) : Bool := d[i]? = some 46 && d[i + 1]? = some 63 && (d[i + 2]? = some 65 || d[i + 2]? = some 87)

/-- The names of types from a place on, with their places; at most `fuel` places are tried. -/
def type_names (d : List UInt8) : Nat → Nat → List (Nat × List UInt8)
  | 0, _ => []
  | fuel + 1, i =>
    if i + 4 > d.length then []
    else if !name_begins d i then type_names d fuel (i + 1)
    else
      let name := (d.drop i).takeWhile (· ≠ 0)
      if i + name.length ≥ d.length ∨ name = [] then type_names d fuel (i + 1)
      else (i, name) :: type_names d fuel (i + name.length + 1)

/-- The places of `for (i = 0; i + width <= size; i += step)`. -/
def places (size width step : Nat) : List Nat := (List.range size).filter fun i => i % step = 0 ∧ i + width ≤ size

/-- The last element of a list with a key. -/
def last {β : Type} (key : β → UInt32) (l : List β) (k : UInt32) : Option β := l.reverse.find? fun e => key e = k

section

variable (pe : pe_image_t) (file : List UInt8)

def data_spans : List section_span_t :=
  pe.sections.filterMap fun s =>
    if s.raw_size = 0 ∨ s.virtual_size = 0 then none
    else if s.raw_offset.toNat + s.raw_size.toNat > file.length then none
    else
      some
        { va := pe.image_base + s.rva.toUInt64
          file_off := s.raw_offset.toNat
          raw_size := (min s.raw_size s.virtual_size).toNat
          writable := s.characteristics &&& (0x80000000 : UInt32) ≠ 0 }

/-- `static_cast<uint32_t>(va - pe.image_base)`. -/
def rva_of (va : UInt64) : UInt32 := (va - pe.image_base).toUInt32

/-- Pass 1: the type descriptors, each 16 bytes in front of its name. -/
def type_descriptors : List td_hit_t :=
  (data_spans pe file).flatMap fun sp =>
    (type_names (sp.bytes file) (sp.bytes file).length 16).map fun (i, name) =>
      let va := sp.va + UInt64.ofNat (i - 16)
      { va, rva := rva_of pe va, name := demangle_msvc_name name }

def tds_by_rva : List (UInt32 × td_hit_t) := SortedMap.collect (fun hit => (hit.rva, hit)) (type_descriptors pe file)

/-- Pass 2: the complete object locators. -/
def locators : List col_hit_t :=
  (data_spans pe file).flatMap fun sp =>
    (places sp.raw_size 24 4).filterMap fun i =>
      let d := sp.bytes file
      let va := sp.va + UInt64.ofNat i
      match rd32 d i, rd32 d (i + 12), rd32 d (i + 20) with
      | some signature, some td_rva, some self_rva =>
        if signature = 0 ∧ self_rva = rva_of pe va ∧ (SortedMap.find td_rva (tds_by_rva pe file)).isSome = true then
          some { va, td_rva }
        else none
      | _, _, _ => none

def cols_by_rva : List (UInt32 × col_hit_t) := SortedMap.collect (fun hit => (rva_of pe hit.va, hit)) (locators pe file)

/-- Pass 3: the vftables, each with the locator and the type descriptor found for the slot in front of it. -/
def vftables : List (UInt64 × col_hit_t × td_hit_t) :=
  (data_spans pe file).flatMap fun sp =>
    (places sp.raw_size 8 8).filterMap fun i =>
      match rd64 (sp.bytes file) i with
      | some ptr =>
        if ptr < pe.image_base ∨ ptr < pe.image_base + 0x1000 then none
        else
          (SortedMap.find (rva_of pe ptr) (cols_by_rva pe file)).bind fun col =>
            (SortedMap.find col.td_rva (tds_by_rva pe file)).map fun td => (sp.va + UInt64.ofNat i + 8, col, td)
      | none => none

end

/-- A vftable goes to the class with its type descriptor, a new one if there is none. -/
def add_vftable : List rtti_class_t → UInt64 × col_hit_t × td_hit_t → List rtti_class_t
  | [], (vftable_va, col, td) => [{ name := td.name, td_va := td.va, col_vas := [col.va], vftables := [vftable_va] }]
  | c :: classes, (vftable_va, col, td) =>
    if c.td_va = td.va then
      { c with col_vas := c.col_vas ++ [col.va], vftables := c.vftables ++ [vftable_va] } :: classes
    else c :: add_vftable classes (vftable_va, col, td)

def rtti_scan (pe : pe_image_t) (file : List UInt8) : rtti_result_t :=
  if pe.ok = false ∨ pe.image_base = 0 then {}
  else
    { classes := ((vftables pe file).foldl add_vftable []).mergeSort fun a b => a.name ≤ b.name
      scanned_bytes := ((data_spans pe file).map section_span_t.raw_size).sum }

/-- The eight bytes at an address of the image are a number. -/
def Stored (pe : pe_image_t) (file : List UInt8) (va p : UInt64) : Prop :=
  ∃ sp ∈ data_spans pe file, ∃ i, i + 8 ≤ sp.raw_size ∧ va = sp.va + UInt64.ofNat i ∧ rd64 (sp.bytes file) i = some p

/-- A complete object locator is at an address, with its field for itself and that for the type descriptor. -/
def IsLocator (pe : pe_image_t) (file : List UInt8) (va : UInt64) (self_rva td_rva : UInt32) : Prop :=
  ∃ sp ∈ data_spans pe file, ∃ i, i + 24 ≤ sp.raw_size ∧ va = sp.va + UInt64.ofNat i ∧
    rd32 (sp.bytes file) i = some 0 ∧ rd32 (sp.bytes file) (i + 12) = some td_rva ∧
    rd32 (sp.bytes file) (i + 20) = some self_rva

/-- The name of a type, up to its zero, begins 16 bytes behind an address. -/
def IsDescriptor (pe : pe_image_t) (file : List UInt8) (va : UInt64) (name : List UInt8) : Prop :=
  ∃ sp ∈ data_spans pe file, ∃ i raw, va = sp.va + UInt64.ofNat (i - 16) ∧ 16 ≤ i ∧ name_begins (sp.bytes file) i = true ∧
    raw ++ [0] <+: (sp.bytes file).drop i ∧ 0 ∉ raw ∧ name = demangle_msvc_name raw

/-- Each vftable reported has the address of a locator in front of it, whose fields are its own offset in the image
and that of the type descriptor reported, which has the name. -/
def Sound (pe : pe_image_t) (file : List UInt8) : Prop :=
  ∀ c ∈ (rtti_scan pe file).classes, ∀ v ∈ c.vftables, ∃ p self_rva td_rva,
    Stored pe file (v - 8) p ∧ IsLocator pe file p self_rva td_rva ∧ p - pe.image_base = self_rva.toUInt64 ∧
      c.td_va - pe.image_base = td_rva.toUInt64 ∧ IsDescriptor pe file c.td_va c.name

/-- A slot of the image whose number is not below the image and has, in the low 32 bits of its distance from the
base, the offset of a locator, the last such one, which names a type descriptor. -/
structure Aimed (pe : pe_image_t) (file : List UInt8) (va ptr : UInt64) (col : col_hit_t) (td : td_hit_t) : Prop where
  slot : ∃ sp ∈ data_spans pe file, ∃ i ∈ places sp.raw_size 8 8, va = sp.va + UInt64.ofNat i ∧
    rd64 (sp.bytes file) i = some ptr
  above : pe.image_base ≤ ptr ∧ pe.image_base + 0x1000 ≤ ptr
  found : last (fun hit => rva_of pe hit.va) (locators pe file) (rva_of pe ptr) = some col
  named : last td_hit_t.rva (type_descriptors pe file) col.td_rva = some td

/-- Such a slot, or another number at its address, reaches less than 4 GiB beyond the base and leads to a locator for
the same type descriptor, which is no further away. -/
def Unaliased (pe : pe_image_t) (file : List UInt8) : Prop :=
  ∀ va ptr col td, Aimed pe file va ptr col td →
    (td.va - pe.image_base).toNat < 2 ^ 32 ∧
      ∃ p, Stored pe file va p ∧ (p - pe.image_base).toNat < 2 ^ 32 ∧ IsLocator pe file p (rva_of pe p) col.td_rva

/-- The sections end within 4 GiB of the base, and where they overlap they hold the same numbers. -/
structure Regular (pe : pe_image_t) (file : List UInt8) : Prop where
  within : ∀ sp ∈ data_spans pe file, (sp.va - pe.image_base).toNat + sp.raw_size ≤ 2 ^ 32
  one : ∀ va p p', Stored pe file va p → Stored pe file va p' → p = p'

/-- A slot whose number is not below the image and has, in the low 32 bits of its distance from the base, the offset
of a locator is less than 4 GiB above the base. -/
def Near (pe : pe_image_t) (file : List UInt8) : Prop :=
  ∀ sp ∈ data_spans pe file, ∀ i ∈ places sp.raw_size 8 8, ∀ ptr, rd64 (sp.bytes file) i = some ptr →
    pe.image_base ≤ ptr → pe.image_base + 0x1000 ≤ ptr →
      ∀ col ∈ locators pe file, rva_of pe col.va = rva_of pe ptr → (ptr - pe.image_base).toNat < 2 ^ 32

section

variable {pe : pe_image_t} {file d : List UInt8} {i fuel : Nat} {va ptr v : UInt64} {col : col_hit_t} {td : td_hit_t}

theorem last_append {β : Type} (key : β → UInt32) (l : List β) (e : β) (k : UInt32) :
    last key (l ++ [e]) k = if key e = k then some e else last key l k := by
  by_cases hkey : key e = k
  · simp [last, hkey]
  · simp [last, hkey]

/-- A map that is filled in the order of a list has the last element for each key. -/
theorem find_collect {β : Type} (key : β → UInt32) (l : List β) (k : UInt32) :
    SortedMap.find k (SortedMap.collect (fun e => (key e, e)) l) = last key l k := by
  induction l using List.reverseRecOn with
  | nil => simp [SortedMap.collect, SortedMap.find, last]
  | append_singleton l e ih =>
    have hcollect : SortedMap.collect (fun e => (key e, e)) (l ++ [e]) =
        SortedMap.set (key e) e (SortedMap.collect (fun e => (key e, e)) l) := by
      simp [SortedMap.collect]
    rw [hcollect, last_append]
    by_cases hkey : key e = k
    · rw [if_pos hkey, ← hkey, SortedMap.find_set SortedMap.sorted_collect]
    · rw [if_neg hkey, SortedMap.find_set_ne SortedMap.sorted_collect (Ne.symm hkey), ih]

theorem last_of_mem {β : Type} (key : β → UInt32) {l : List β} {e : β} (he : e ∈ l) : ∃ e', last key l (key e) = some e' := by
  rw [← Option.isSome_iff_exists, last, List.find?_isSome]
  exact ⟨e, List.mem_reverse.mpr he, by simp⟩

theorem last_some {β : Type} {key : β → UInt32} {l : List β} {k : UInt32} {e : β} (hlast : last key l k = some e) :
    e ∈ l ∧ key e = k := by
  refine ⟨List.mem_reverse.mp (List.mem_of_find?_eq_some hlast), ?_⟩
  simpa using List.find?_some hlast

theorem places_mem {size width step : Nat} (hmem : i ∈ places size width step) : i % step = 0 ∧ i + width ≤ size := by
  simpa using (List.mem_filter.mp hmem).2

/-- What is taken for a name of a type. -/
theorem type_names_mem {i₀ : Nat} {name : List UInt8} (hmem : (i, name) ∈ type_names d fuel i₀) :
    i₀ ≤ i ∧ name_begins d i = true ∧ name ++ [0] <+: d.drop i ∧ 0 ∉ name := by
  induction fuel generalizing i₀ with
  | zero => simp [type_names] at hmem
  | succ fuel ih =>
    have hlater : ∀ {j}, i₀ ≤ j → (i, name) ∈ type_names d fuel j →
        i₀ ≤ i ∧ name_begins d i = true ∧ name ++ [0] <+: d.drop i ∧ 0 ∉ name := by
      intro j hj hmem
      obtain ⟨hle, hrest⟩ := ih hmem
      exact ⟨Nat.le_trans hj hle, hrest⟩
    rw [type_names] at hmem
    split at hmem
    · simp at hmem
    · split at hmem
      · exact hlater (Nat.le_succ i₀) hmem
      · rename_i hbegins
        simp only at hmem
        split at hmem
        · exact hlater (Nat.le_succ i₀) hmem
        · rename_i hends
          obtain hhere | hmem := List.mem_cons.mp hmem
          · rw [Prod.mk.injEq] at hhere
            obtain ⟨rfl, rfl⟩ := hhere
            obtain ⟨hinside, _⟩ := not_or.mp hends
            refine ⟨Nat.le_refl i, by simpa using hbegins, ?_, ?_⟩
            · have hsplit := List.takeWhile_append_dropWhile (p := fun c : UInt8 => decide (c ≠ 0)) (l := d.drop i)
              cases hrest : (d.drop i).dropWhile fun c => decide (c ≠ 0) with
              | nil =>
                rw [hrest, List.append_nil] at hsplit
                have hlen := congrArg List.length hsplit
                rw [List.length_drop] at hlen
                omega
              | cons c rest =>
                have hhead := List.head?_dropWhile_not (fun c : UInt8 => decide (c ≠ 0)) (d.drop i)
                rw [hrest, List.head?_cons] at hhead
                have hc : c = 0 := by simpa using hhead
                rw [hrest, hc] at hsplit
                nth_rewrite 2 [← hsplit]
                exact ⟨rest, by simp⟩
            · intro hzero
              simpa using List.mem_takeWhile_imp hzero
          · exact hlater (by omega) hmem

theorem type_descriptors_mem (hmem : td ∈ type_descriptors pe file) :
    td.rva = rva_of pe td.va ∧ IsDescriptor pe file td.va td.name := by
  obtain ⟨sp, hsp, hmem⟩ := List.mem_flatMap.mp hmem
  obtain ⟨⟨i, raw⟩, hname, rfl⟩ := List.mem_map.mp hmem
  obtain ⟨hle, hbegins, hpre, hzero⟩ := type_names_mem hname
  exact ⟨by simp, sp, hsp, i, raw, by simp, hle, hbegins, hpre, hzero, by simp⟩

theorem locators_mem (hmem : col ∈ locators pe file) :
    IsLocator pe file col.va (rva_of pe col.va) col.td_rva ∧ ∃ td, last td_hit_t.rva (type_descriptors pe file) col.td_rva = some td := by
  obtain ⟨sp, hsp, hmem⟩ := List.mem_flatMap.mp hmem
  obtain ⟨i, hi, hfound⟩ := List.mem_filterMap.mp hmem
  simp only at hfound
  split at hfound
  · rename_i signature td_rva self_rva hsignature htd hself
    split at hfound
    · rename_i htests
      obtain ⟨rfl, rfl, hnamed⟩ := htests
      obtain rfl := Option.some.inj hfound
      rw [tds_by_rva, find_collect, Option.isSome_iff_exists] at hnamed
      exact ⟨⟨sp, hsp, i, (places_mem hi).2, by simp, hsignature, htd, hself⟩, hnamed⟩
    · cases hfound
  · cases hfound

/-- Pass 3 reports what follows the slots that are aimed at a locator. -/
theorem vftables_mem : (v, col, td) ∈ vftables pe file ↔ ∃ va ptr, Aimed pe file va ptr col td ∧ v = va + 8 := by
  constructor
  · intro hmem
    obtain ⟨sp, hsp, hmem⟩ := List.mem_flatMap.mp hmem
    obtain ⟨i, hi, hfound⟩ := List.mem_filterMap.mp hmem
    split at hfound
    · rename_i ptr hptr
      split at hfound
      · cases hfound
      · rename_i habove
        simp only [not_or, UInt64.not_lt] at habove
        obtain ⟨col', hcol, hfound⟩ := Option.bind_eq_some_iff.mp hfound
        obtain ⟨td', htd, heq⟩ := Option.map_eq_some_iff.mp hfound
        simp only [Prod.mk.injEq] at heq
        obtain ⟨rfl, rfl, rfl⟩ := heq
        rw [cols_by_rva, find_collect] at hcol
        rw [tds_by_rva, find_collect] at htd
        exact ⟨sp.va + UInt64.ofNat i, ptr, ⟨⟨sp, hsp, i, hi, by simp, hptr⟩, habove, hcol, htd⟩, by simp⟩
    · cases hfound
  · intro ⟨va, ptr, ⟨⟨sp, hsp, i, hi, hva, hptr⟩, habove, hcol, htd⟩, hv⟩
    refine List.mem_flatMap.mpr ⟨sp, hsp, List.mem_filterMap.mpr ⟨i, hi, ?_⟩⟩
    rw [hptr]
    simp only
    rw [if_neg (not_or.mpr ⟨UInt64.not_lt.mpr habove.1, UInt64.not_lt.mpr habove.2⟩), cols_by_rva, find_collect, hcol,
      Option.bind_some, tds_by_rva, find_collect, htd, hv, hva]
    simp

/-- The classes and what was reported for them say the same. -/
structure Reported (reports : List (UInt64 × col_hit_t × td_hit_t)) (classes : List rtti_class_t) : Prop where
  named : ∀ c ∈ classes, ∃ r ∈ reports, c.td_va = r.2.2.va ∧ c.name = r.2.2.name
  listed : ∀ c ∈ classes, ∀ v ∈ c.vftables, ∃ r ∈ reports, r.1 = v ∧ c.td_va = r.2.2.va
  complete : ∀ r ∈ reports, ∃ c ∈ classes, c.td_va = r.2.2.va ∧ r.1 ∈ c.vftables

/-- One vftable goes to one class, the others stay as they are. -/
theorem add_vftable_mem (classes : List rtti_class_t) (r : UInt64 × col_hit_t × td_hit_t) :
    (∀ c ∈ add_vftable classes r, c ∈ classes ∨ (c.td_va = r.2.2.va ∧
      ((c.name = r.2.2.name ∧ c.vftables = [r.1]) ∨
        ∃ c' ∈ classes, c'.td_va = c.td_va ∧ c'.name = c.name ∧ c.vftables = c'.vftables ++ [r.1]))) ∧
      (∀ c ∈ classes, ∃ c' ∈ add_vftable classes r, c'.td_va = c.td_va ∧ ∀ v ∈ c.vftables, v ∈ c'.vftables) ∧
      ∃ c ∈ add_vftable classes r, c.td_va = r.2.2.va ∧ r.1 ∈ c.vftables := by
  obtain ⟨v, col, td⟩ := r
  induction classes with
  | nil => simp [add_vftable]
  | cons c classes ih =>
    rw [add_vftable]
    by_cases hsame : c.td_va = td.va
    · rw [if_pos hsame]
      refine ⟨?_, ?_, ?_⟩
      · intro x hx
        obtain rfl | hx := List.mem_cons.mp hx
        · right
          exact ⟨hsame, Or.inr ⟨c, by simp, by simp, by simp, by simp⟩⟩
        · left
          exact List.mem_cons_of_mem c hx
      · intro x hx
        obtain rfl | hx := List.mem_cons.mp hx
        · refine ⟨_, List.mem_cons_self, by simp, ?_⟩
          intro w hw
          simp [hw]
        · exact ⟨x, List.mem_cons_of_mem _ hx, by simp, fun w hw => hw⟩
      · exact ⟨_, List.mem_cons_self, hsame, by simp⟩
    · rw [if_neg hsame]
      obtain ⟨hnew, hkept, x, hx, hadded⟩ := ih
      refine ⟨?_, ?_, x, List.mem_cons_of_mem c hx, hadded⟩
      · intro y hy
        obtain rfl | hy := List.mem_cons.mp hy
        · exact Or.inl List.mem_cons_self
        · obtain hold | ⟨hva, hfresh | ⟨c', hc', hrest⟩⟩ := hnew y hy
          · exact Or.inl (List.mem_cons_of_mem c hold)
          · exact Or.inr ⟨hva, Or.inl hfresh⟩
          · exact Or.inr ⟨hva, Or.inr ⟨c', List.mem_cons_of_mem c hc', hrest⟩⟩
      · intro y hy
        obtain rfl | hy := List.mem_cons.mp hy
        · exact ⟨y, List.mem_cons_self, by simp, fun w hw => hw⟩
        · obtain ⟨c', hc', hrest⟩ := hkept y hy
          exact ⟨c', List.mem_cons_of_mem c hc', hrest⟩

theorem Reported.add {reports : List (UInt64 × col_hit_t × td_hit_t)} {classes : List rtti_class_t}
    (h : Reported reports classes) (r : UInt64 × col_hit_t × td_hit_t) :
    Reported (reports ++ [r]) (add_vftable classes r) := by
  obtain ⟨hnew, hkept, hadded⟩ := add_vftable_mem classes r
  have hmore : ∀ {P : UInt64 × col_hit_t × td_hit_t → Prop}, (∃ r' ∈ reports, P r') → ∃ r' ∈ reports ++ [r], P r' := by
    intro P ⟨r', hr', hP⟩
    exact ⟨r', List.mem_append_left [r] hr', hP⟩
  refine ⟨?_, ?_, ?_⟩
  · intro c hc
    obtain hold | ⟨hva, ⟨hname, _⟩ | ⟨c', hc', hva', hname, _⟩⟩ := hnew c hc
    · exact hmore (h.named c hold)
    · exact ⟨r, by simp, hva, hname⟩
    · rw [← hva', ← hname]
      exact hmore (h.named c' hc')
  · intro c hc v hv
    obtain hold | ⟨hva, ⟨_, htables⟩ | ⟨c', hc', hva', _, htables⟩⟩ := hnew c hc
    · exact hmore (h.listed c hold v hv)
    · rw [htables, List.mem_singleton] at hv
      exact ⟨r, by simp, hv.symm, hva⟩
    · rw [htables] at hv
      obtain hv | hv := List.mem_append.mp hv
      · rw [← hva']
        exact hmore (h.listed c' hc' v hv)
      · rw [List.mem_singleton] at hv
        exact ⟨r, by simp, hv.symm, hva⟩
  · intro r' hr'
    obtain hr' | hr' := List.mem_append.mp hr'
    · obtain ⟨c, hc, hva, hv⟩ := h.complete r' hr'
      obtain ⟨c', hc', hva', hall⟩ := hkept c hc
      exact ⟨c', hc', hva'.trans hva, hall _ hv⟩
    · rw [List.mem_singleton.mp hr']
      exact hadded

theorem reported (reports : List (UInt64 × col_hit_t × td_hit_t)) : Reported reports (reports.foldl add_vftable []) := by
  induction reports using List.reverseRecOn with
  | nil => exact ⟨by simp, by simp, by simp⟩
  | append_singleton reports r ih =>
    rw [List.foldl_append]
    exact ih.add r

variable (file) in
/-- The classes of a scan, before and behind their sorting. -/
theorem rtti_scan_reported (hok : pe.ok = true) (hbase : pe.image_base ≠ 0) :
    Reported (vftables pe file) (rtti_scan pe file).classes := by
  have hclasses : ∀ c, c ∈ (rtti_scan pe file).classes ↔ c ∈ (vftables pe file).foldl add_vftable [] := by
    intro c
    simp [rtti_scan, hok, hbase]
  obtain ⟨hnamed, hlisted, hcomplete⟩ := reported (vftables pe file)
  refine ⟨?_, ?_, ?_⟩
  · intro c hc
    exact hnamed c ((hclasses c).mp hc)
  · intro c hc
    exact hlisted c ((hclasses c).mp hc)
  · intro r hr
    obtain ⟨c, hc, hrest⟩ := hcomplete r hr
    exact ⟨c, (hclasses c).mpr hc, hrest⟩

/-- An offset from the base that fits 32 bits is the number itself. -/
theorem rva_of_eq {self_rva : UInt32} : va - pe.image_base = self_rva.toUInt64 ↔
    (va - pe.image_base).toNat < 2 ^ 32 ∧ rva_of pe va = self_rva := by
  constructor
  · intro heq
    rw [rva_of, heq]
    exact ⟨self_rva.toNat_lt, by simp⟩
  · intro ⟨hlt, hrva⟩
    apply UInt64.toNat_inj.mp
    rw [← hrva, rva_of, UInt32.toNat_toUInt64, UInt64.toNat_toUInt32, Nat.mod_eq_of_lt hlt]

theorem Aimed.stored (h : Aimed pe file va ptr col td) : Stored pe file va ptr := by
  obtain ⟨sp, hsp, i, hi, hva, hptr⟩ := h.slot
  exact ⟨sp, hsp, i, (places_mem hi).2, hva, hptr⟩

theorem Aimed.descriptor (h : Aimed pe file va ptr col td) :
    rva_of pe td.va = col.td_rva ∧ IsDescriptor pe file td.va td.name := by
  obtain ⟨hmem, hrva⟩ := last_some h.named
  obtain ⟨hself, hname⟩ := type_descriptors_mem hmem
  exact ⟨hself.symm.trans hrva, hname⟩

theorem sound_of_unaliased (hok : pe.ok = true) (hbase : pe.image_base ≠ 0) (h : Unaliased pe file) : Sound pe file := by
  intro c hc v hv
  obtain ⟨hnamed, hlisted, _⟩ := rtti_scan_reported file hok hbase
  obtain ⟨⟨v', col, td⟩, hr, rfl, htd⟩ := hlisted c hc v hv
  obtain ⟨va, ptr, haimed, hva⟩ := vftables_mem.mp hr
  obtain ⟨hnear, p, hstored, hdistance, hlocator⟩ := h va ptr col td haimed
  refine ⟨p, rva_of pe p, col.td_rva, ?_, hlocator, rva_of_eq.mpr ⟨hdistance, by simp⟩, ?_, ?_⟩
  · simpa [hva] using hstored
  · rw [htd]
    exact rva_of_eq.mpr ⟨hnear, haimed.descriptor.1⟩
  · obtain ⟨⟨v'', col', td'⟩, hr', htd', hname⟩ := hnamed c hc
    obtain ⟨va', ptr', haimed', _⟩ := vftables_mem.mp hr'
    rw [htd', hname]
    exact haimed'.descriptor.2

theorem unaliased_of_sound (hok : pe.ok = true) (hbase : pe.image_base ≠ 0) (h : Sound pe file) : Unaliased pe file := by
  intro va ptr col td haimed
  have hreport : (va + 8, col, td) ∈ vftables pe file := vftables_mem.mpr ⟨va, ptr, haimed, by simp⟩
  obtain ⟨c, hc, htd, hv⟩ := (rtti_scan_reported file hok hbase).complete _ hreport
  obtain ⟨p, self_rva, td_rva, hstored, hlocator, hself, hdescriptor, _⟩ := h c hc _ hv
  obtain ⟨hdistance, hself⟩ := rva_of_eq.mp hself
  rw [htd] at hdescriptor
  obtain ⟨hnear, htd_rva⟩ := rva_of_eq.mp hdescriptor
  rw [haimed.descriptor.1] at htd_rva
  refine ⟨hnear, p, by simpa using hstored, hdistance, ?_⟩
  rw [hself, htd_rva]
  exact hlocator

/-- A scan that is not made reports nothing. -/
theorem sound_of_no_scan (h : ¬(pe.ok = true ∧ pe.image_base ≠ 0)) : Sound pe file := by
  intro c hc
  have hnone : pe.ok = false ∨ pe.image_base = 0 := by
    simpa [imp_iff_not_or] using h
  simp [rtti_scan, hnone] at hc

theorem sound_iff_unaliased : Sound pe file ↔ (pe.ok = true → pe.image_base ≠ 0 → Unaliased pe file) := by
  constructor
  · intro hsound hok hbase
    exact unaliased_of_sound hok hbase hsound
  · intro h
    by_cases hscan : pe.ok = true ∧ pe.image_base ≠ 0
    · exact sound_of_unaliased hscan.1 hscan.2 (h hscan.1 hscan.2)
    · exact sound_of_no_scan hscan

/-- An address in a section that ends within 4 GiB of the base. -/
theorem distance_lt (h : Regular pe file) {sp : section_span_t} (hsp : sp ∈ data_spans pe file) (hi : i < sp.raw_size) :
    (sp.va + UInt64.ofNat i - pe.image_base).toNat < 2 ^ 32 := by
  have hwithin := h.within sp hsp
  have hsplit : sp.va + UInt64.ofNat i - pe.image_base = (sp.va - pe.image_base) + UInt64.ofNat i := by grind
  rw [hsplit, UInt64.toNat_add, UInt64.toNat_ofNat']
  have hle := Nat.mod_le ((sp.va - pe.image_base).toNat + i % 2 ^ 64) (2 ^ 64)
  have hle' := Nat.mod_le i (2 ^ 64)
  omega

theorem unaliased_iff_near (h : Regular pe file) : Unaliased pe file ↔ Near pe file := by
  constructor
  · intro hunaliased sp hsp i hi ptr hptr hbase hpage col hcol hrva
    obtain ⟨col', hcol'⟩ := last_of_mem (fun hit => rva_of pe hit.va) hcol
    obtain ⟨td, htd⟩ := (locators_mem (last_some hcol').1).2
    simp only [hrva] at hcol'
    have haimed : Aimed pe file (sp.va + UInt64.ofNat i) ptr col' td :=
      ⟨⟨sp, hsp, i, hi, by simp, hptr⟩, ⟨hbase, hpage⟩, hcol', htd⟩
    obtain ⟨_, p, hstored, hdistance, _⟩ := hunaliased _ ptr col' td haimed
    rwa [h.one _ ptr p haimed.stored hstored]
  · intro hnear va ptr col td haimed
    obtain ⟨sp, hsp, i, hi, hva, hptr⟩ := haimed.slot
    obtain ⟨hmem, hrva⟩ := last_some haimed.found
    have hptr_near := hnear sp hsp i hi ptr hptr haimed.above.1 haimed.above.2 col hmem hrva
    obtain ⟨hlocator, _⟩ := locators_mem hmem
    refine ⟨?_, ptr, haimed.stored, hptr_near, ?_⟩
    · obtain ⟨_, sp', hsp', j, raw, htd, _, hbegins, _⟩ := haimed.descriptor
      have hinside : j < sp'.raw_size := by
        have hfirst : (sp'.bytes file)[j]? = some 46 := by
          simp only [name_begins, Bool.and_eq_true, decide_eq_true_eq] at hbegins
          exact hbegins.1.1
        obtain ⟨hlt, _⟩ := List.getElem?_eq_some_iff.mp hfirst
        have hlength : (sp'.bytes file).length ≤ sp'.raw_size := by simp [section_span_t.bytes]
        omega
      rw [htd]
      exact distance_lt h hsp' (by omega)
    · -- both distances fit 32 bits, so the number is the address of the locator
      have hcol_near : (col.va - pe.image_base).toNat < 2 ^ 32 := by
        obtain ⟨sp', hsp', j, hj, hcol_va, _⟩ := hlocator
        rw [hcol_va]
        exact distance_lt h hsp' (by omega)
      have hsame : col.va = ptr := by
        have hcol_eq := rva_of_eq.mpr ⟨hcol_near, hrva⟩
        have hptr_eq := rva_of_eq.mpr ⟨hptr_near, Eq.refl (rva_of pe ptr)⟩
        exact (UInt64.sub_left_inj pe.image_base).mp (hcol_eq.trans hptr_eq.symm)
      rwa [hsame] at hlocator

end

/-- The vftables are those in front of which there is the address of a locator of their class exactly if nothing
further away is taken for one. -/
theorem rtti_vftables (pe : pe_image_t) (file : List UInt8) :
    (Sound pe file ↔ (pe.ok = true → pe.image_base ≠ 0 → Unaliased pe file)) ∧
      (Regular pe file → (Sound pe file ↔ (pe.ok = true → pe.image_base ≠ 0 → Near pe file))) := by
  refine ⟨sound_iff_unaliased, ?_⟩
  intro hregular
  rw [sound_iff_unaliased, unaliased_iff_near hregular]

/-- One class, whose locator is at 0x140001018 and has a number in front of its vftable that is 4 GiB above it. -/
def far_image : pe_image_t :=
  { ok := true
    image_base := 0x140000000
    sections := [{ rva := 0x1000, virtual_size := 0x38, raw_size := 0x38, characteristics := 0x40000040 }] }

def far_file : List UInt8 :=
  List.replicate 16 0 ++ ascii ".?AVA@@" ++ [0] ++ List.replicate 12 0 ++ [0, 16, 0, 0] ++ [0, 0, 0, 0] ++ [24, 16, 0, 0] ++
    [24, 16, 0, 64, 2, 0, 0, 0]

theorem far_locator_taken :
    (rtti_scan far_image far_file).classes =
        [{ name := ascii "A", td_va := 0x140001000, col_vas := [0x140001018], vftables := [0x140001038] }] ∧
      ¬ Sound far_image far_file := by
  have hclasses : (rtti_scan far_image far_file).classes =
      [{ name := ascii "A", td_va := 0x140001000, col_vas := [0x140001018], vftables := [0x140001038] }] := by
    decide +kernel
  refine ⟨hclasses, ?_⟩
  intro hsound
  simp only [Sound, hclasses, List.forall_mem_singleton] at hsound
  obtain ⟨p, self_rva, td_rva, ⟨sp, hsp, i, hi, hva, hp⟩, _, hself, _⟩ := hsound
  have hspans : data_spans far_image far_file = [{ va := 0x140001000, file_off := 0, raw_size := 0x38, writable := false }] := by rfl
  rw [hspans, List.mem_singleton] at hsp
  obtain rfl := hsp
  have hplace : i = 0x30 := by
    have hdiff : UInt64.ofNat i = 0x30 := by grind
    have hnat := congrArg UInt64.toNat hdiff
    rw [UInt64.toNat_ofNat'] at hnat
    change i % 2 ^ 64 = 0x30 at hnat
    simp only at hi
    omega
  subst hplace
  have hnumber : rd64 (section_span_t.bytes { va := 0x140001000, file_off := 0, raw_size := 0x38 } far_file) 0x30 =
      some 0x240001018 := by decide +kernel
  rw [hnumber, Option.some.injEq] at hp
  have hnear := (rva_of_eq.mp hself).1
  rw [← hp] at hnear
  exact absurd hnear (by decide)

end slop.core.re
