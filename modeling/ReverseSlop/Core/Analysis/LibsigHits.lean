import ReverseSlop.Core.Analysis.Libsig

namespace slop.core.analysis.libsig

open disasm (pe_image_t pe_section_t)
open disasm.function_index (function_t)

/-- The bytes and wildcards of a signature that compiles. -/
def meaning (sig : libsig_t) : Option (List (Option UInt8)) :=
  (compile sig).map fun cs => cs.bytes.map fun (b, m) => if m = 0 then none else some b

/-- A section and the signature that is searched in it. -/
structure search_t where
  sec : pe_section_t
  sig : libsig_t
  pattern : List (Option UInt8)

/-- All the searches in an image, in their order. -/
def searches (pe : pe_image_t) (file : List UInt8) (sigs : List libsig_t) : List search_t :=
  if !pe.ok then []
  else
    (exec_sections pe file).flatMap fun sec => sigs.filterMap fun sig => (meaning sig).map fun p => ⟨sec, sig, p⟩

/-- The hits are those of the searches that match anywhere, with the address of the first position. -/
inductive Reports (pe : pe_image_t) (file : List UInt8) : List search_t → List libsig_hit_t → Prop where
  | nil : Reports pe file [] []
  | hit {s l h hits e} (hfirst : First (Match s.pattern (mapped file s.sec)) e) (hname : h.sig_name = s.sig.name)
      (hva : s.sig.offset.toNat ≤ e →
        h.va = pe.image_base + s.sec.rva.toUInt64 + (e - s.sig.offset.toNat).toUInt64)
      (hrest : Reports pe file l hits) : Reports pe file (s :: l) (h :: hits)
  | skip {s l hits} (hnone : ∀ i, ¬ Match s.pattern (mapped file s.sec) i)
      (hrest : Reports pe file l hits) : Reports pe file (s :: l) hits

/-- No position has the lowest bits of the pattern, or one has its bytes, and the first of these is not behind
the offset or no position before it has the lowest bits. -/
def search_t.Faithful (s : search_t) (file : List UInt8) : Prop :=
  (∀ i, ¬ LowMatch s.pattern (mapped file s.sec) i) ∨
    ∃ e, First (Match s.pattern (mapped file s.sec)) e ∧
      (e ≤ s.sig.offset.toNat ∨ ∀ i < e, ¬ LowMatch s.pattern (mapped file s.sec) i)

/-- What the scan reports of a search. -/
def search_t.hit (s : search_t) (pe : pe_image_t) (file : List UInt8) (fns : List function_t) : Option libsig_hit_t :=
  let cs := ⟨s.sig.name, s.pattern.map masked, s.sig.offset⟩
  (find_sig cs (mapped file s.sec)).map (hit_at pe fns s.sec cs)

variable {pe : pe_image_t} {file : List UInt8} {fns : List function_t} {sigs : List libsig_t} {sig : libsig_t}
  {p : List (Option UInt8)} {s : search_t} {l : List search_t} {hits : List libsig_hit_t}

theorem unmask_masked (p : List (Option UInt8)) :
    (p.map masked).map (fun (b, m) => if m = 0 then none else some b) = p := by
  rw [List.map_map]
  refine (List.map_congr_left fun b _ => ?_).trans (List.map_id p)
  cases b <;> rfl

theorem meaning_eq_some : meaning sig = some p ↔ p ≠ [] ∧ Denotes sig.pattern p := by
  rw [meaning, Option.map_eq_some_iff]
  constructor
  · rintro ⟨cs, hcs, hp⟩
    obtain ⟨q, hne, hq, rfl⟩ := compile_iff.mp hcs
    rw [unmask_masked] at hp
    exact hp ▸ ⟨hne, hq⟩
  · rintro ⟨hne, hp⟩
    exact ⟨_, compile_iff.mpr ⟨p, hne, hp, rfl⟩, unmask_masked p⟩

theorem compile_eq (sig : libsig_t) : compile sig = (meaning sig).map fun p => ⟨sig.name, p.map masked, sig.offset⟩ := by
  refine Option.ext fun cs => ?_
  rw [compile_iff, Option.map_eq_some_iff]
  constructor
  · rintro ⟨p, hne, hp, rfl⟩
    exact ⟨p, meaning_eq_some.mpr ⟨hne, hp⟩, rfl⟩
  · rintro ⟨p, hp, rfl⟩
    obtain ⟨hne, hp⟩ := meaning_eq_some.mp hp
    exact ⟨p, hne, hp, rfl⟩

theorem libsig_scan_eq (pe : pe_image_t) (file : List UInt8) (fns : List function_t) (sigs : List libsig_t) :
    libsig_scan pe file fns sigs = (searches pe file sigs).filterMap fun s => s.hit pe file fns := by
  rw [libsig_scan, searches]
  split
  · rfl
  · simp only [List.filterMap_flatMap, List.filterMap_filterMap]
    congr 1
    funext sec
    congr 1
    funext sig
    rw [compile_eq]
    cases meaning sig <;> rfl

/-- The number of positions fits into 32 bits. -/
theorem length_mapped_lt (file : List UInt8) (sec : pe_section_t) : (mapped file sec).length < 2 ^ 32 := by
  have hraw := sec.raw_size.toNat_lt
  rw [mapped, List.length_take]
  omega

theorem toNat_rel {n : Nat} (hn : n < 2 ^ 32) : n.toUInt32.toUInt64 = n.toUInt64 := by
  apply UInt64.toNat_inj.mp
  rw [UInt32.toNat_toUInt64]
  change n % 2 ^ 32 = n % 2 ^ 64
  omega

theorem toUInt64_inj {m n : Nat} (hm : m < 2 ^ 32) (hn : n < 2 ^ 32) : m.toUInt64 = n.toUInt64 ↔ m = n := by
  rw [← UInt64.toNat_inj]
  change m % 2 ^ 64 = n % 2 ^ 64 ↔ m = n
  omega

theorem hit_eq_none : s.hit pe file fns = none ↔ ∀ i, ¬ LowMatch s.pattern (mapped file s.sec) i := by
  rw [search_t.hit, Option.map_eq_none_iff]
  constructor
  · intro hnone i hlow
    obtain ⟨e, he⟩ := First.exists hlow
    rw [find_sig_eq_some.mpr he] at hnone
    cases hnone
  · intro hnot
    refine Option.eq_none_iff_forall_ne_some.mpr fun i hi => ?_
    exact hnot i (find_sig_eq_some.mp hi).1

theorem hit_eq_some {h : libsig_hit_t} (hhit : s.hit pe file fns = some h) :
    ∃ a, First (LowMatch s.pattern (mapped file s.sec)) a ∧ h.sig_name = s.sig.name ∧
      h.va = pe.image_base + s.sec.rva.toUInt64 + (a - s.sig.offset.toNat).toUInt64 := by
  rw [search_t.hit] at hhit
  obtain ⟨a, ha, rfl⟩ := Option.map_eq_some_iff.mp hhit
  have hfirst := find_sig_eq_some.mp ha
  refine ⟨a, hfirst, rfl, ?_⟩
  have hroom := hfirst.1.1
  have hlength := length_mapped_lt file s.sec
  have hrel : (if a ≥ s.sig.offset.toNat then a - s.sig.offset.toNat else 0) = a - s.sig.offset.toNat := by
    split <;> omega
  simp only [hit_at, hrel]
  rw [toNat_rel (by omega)]

/-- The position found is reported as the first match exactly if there is no other behind the offset. -/
theorem hit_va_iff {a e : Nat} (ha : First (LowMatch s.pattern (mapped file s.sec)) a)
    (he : First (Match s.pattern (mapped file s.sec)) e) :
    (s.sig.offset.toNat ≤ e → pe.image_base + s.sec.rva.toUInt64 + (a - s.sig.offset.toNat).toUInt64 =
        pe.image_base + s.sec.rva.toUInt64 + (e - s.sig.offset.toNat).toUInt64) ↔
      e ≤ s.sig.offset.toNat ∨ ∀ i < e, ¬ LowMatch s.pattern (mapped file s.sec) i := by
  have hae : a ≤ e := by
    by_contra hlt
    exact ha.2 e (by omega) he.1.low
  have hlength := length_mapped_lt file s.sec
  have hroom := he.1.1
  rw [UInt64.add_right_inj, toUInt64_inj (by omega) (by omega)]
  constructor
  · intro hva
    by_cases hle : e ≤ s.sig.offset.toNat
    · exact Or.inl hle
    · have hsame : a = e := by
        have hva := hva (by omega)
        omega
      exact Or.inr (hsame ▸ ha.2)
  · rintro (hle | hlow) hoffset
    · omega
    · have hsame : a = e := by
        by_contra hne
        exact hlow a (by omega) ha.1
      rw [hsame]

theorem Reports.length_le (fns : List function_t) (hreports : Reports pe file l hits) :
    hits.length ≤ (l.filterMap fun s => s.hit pe file fns).length := by
  induction hreports with
  | nil => exact le_rfl
  | @hit s l h hits e hfirst _ _ _ ih =>
    cases hhit : s.hit pe file fns with
    | none => exact absurd hfirst.1.low (hit_eq_none.mp hhit e)
    | some h' => simpa [hhit] using ih
  | @skip s l hits _ _ ih =>
    refine ih.trans ?_
    rw [List.filterMap_cons]
    split
    · exact le_rfl
    · exact Nat.le_succ _

theorem reports_iff (l : List search_t) :
    Reports pe file l (l.filterMap fun s => s.hit pe file fns) ↔ ∀ s ∈ l, s.Faithful file := by
  induction l with
  | nil => simp [Reports.nil]
  | cons s l ih =>
    rw [List.forall_mem_cons, ← ih, List.filterMap_cons]
    cases hhit : s.hit pe file fns with
    | none =>
      have hlow := hit_eq_none.mp hhit
      have hnone := fun i hi => hlow i (Match.low hi)
      constructor
      · intro hreports
        refine ⟨Or.inl hlow, ?_⟩
        generalize l.filterMap (fun s => s.hit pe file fns) = hits at hreports ⊢
        cases hreports with
        | hit hfirst => exact absurd hfirst.1 (hnone _)
        | skip _ hrest => exact hrest
      · exact fun ⟨_, hrest⟩ => .skip hnone hrest
    | some h =>
      obtain ⟨a, ha, hname, hva⟩ := hit_eq_some hhit
      constructor
      · intro hreports
        cases hreports with
        | hit hfirst _ hva' hrest =>
          rw [hva] at hva'
          exact ⟨Or.inr ⟨_, hfirst, (hit_va_iff ha hfirst).mp hva'⟩, hrest⟩
        | skip _ hrest =>
          -- the other searches match less often than they report
          have hle := hrest.length_le fns
          simp at hle
      · rintro ⟨hnot | ⟨e, he, hfaithful⟩, hrest⟩
        · exact absurd ha.1 (hnot a)
        · refine .hit he hname ?_ hrest
          rw [hva]
          exact (hit_va_iff ha he).mpr hfaithful

/-- The scan reports the matches exactly if the lowest bits tell them from all the other positions: the masks
are flags, but the comparison takes them as bits. -/
theorem libsig_scan_reports_iff (pe : pe_image_t) (file : List UInt8) (fns : List function_t) (sigs : List libsig_t) :
    Reports pe file (searches pe file sigs) (libsig_scan pe file fns sigs) ↔
      ∀ s ∈ searches pe file sigs, s.Faithful file := by
  rw [libsig_scan_eq]
  exact reports_iff _

/-- An image of one byte, which is code. -/
def one_byte : pe_image_t where
  ok := true
  sections := [{ virtual_size := 1, raw_size := 1, characteristics := 0x20000000 }]

def three : libsig_t := ⟨"three", Numeral.ascii "03", 0⟩

/-- In the byte 01 the signature 03 is found. -/
theorem low_bit_reported : ¬ ∀ (pe : pe_image_t) (file : List UInt8) (fns : List function_t) (sigs : List libsig_t),
    Reports pe file (searches pe file sigs) (libsig_scan pe file fns sigs) := by
  intro hreports
  have hreports := hreports one_byte [1] [] [three]
  have hscan : libsig_scan one_byte [1] [] [three] = [⟨"three", 0, none⟩] := by rfl
  have hsearches : searches one_byte [1] [three] = one_byte.sections.map fun sec => ⟨sec, three, [some 3]⟩ := by rfl
  rw [hscan, hsearches] at hreports
  cases hreports with
  | hit hfirst =>
    obtain ⟨x, hx, heq⟩ := hfirst.1.2 0 3 rfl
    have hmem : x ∈ ([1] : List UInt8) := List.mem_of_getElem? hx
    rw [← heq] at hmem
    exact absurd hmem (by decide)
  | skip _ hrest => cases hrest

end slop.core.analysis.libsig
