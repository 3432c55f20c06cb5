import ReverseSlop.Core.Process.ModuleDump

namespace slop.core.process

/-- A read succeeds if all its bytes are readable. -/
def read_pages (memory : UInt64 → Option UInt8) : module_read_fn_t
  | _, 0 => some []
  | address, size + 1 =>
    match memory address with
    | some byte => (read_pages memory (address + 1) size).map (byte :: ·)
    | none => none

section

variable {memory : UInt64 → Option UInt8} {address : UInt64} {n : Nat} {bytes : List UInt8}

theorem add_toUInt64 (address : UInt64) (k n : Nat) : address + k.toUInt64 + n.toUInt64 = address + (k + n).toUInt64 := by
  simp [Nat.toUInt64_eq, UInt64.ofNat_add, UInt64.add_assoc]

theorem add_one_toUInt64 (address : UInt64) (i : Nat) : address + 1 + i.toUInt64 = address + (i + 1).toUInt64 := by
  rw [Nat.add_comm i, ← add_toUInt64]
  rfl

theorem forall_lt_succ (address : UInt64) (n : Nat) (p : UInt64 → Nat → Prop) :
    (∀ i < n + 1, p (address + i.toUInt64) i) ↔ p address 0 ∧ ∀ i < n, p (address + 1 + i.toUInt64) (i + 1) := by
  have hfirst : address + (0 : Nat).toUInt64 = address := by simp
  simp only [add_one_toUInt64]
  constructor
  · intro h
    exact ⟨hfirst ▸ h 0 n.succ_pos, fun i hi => h (i + 1) (Nat.succ_lt_succ hi)⟩
  · rintro ⟨h, hrest⟩ i hi
    cases i with
    | zero => exact hfirst.symm ▸ h
    | succ i => exact hrest i (Nat.lt_of_succ_lt_succ hi)

theorem read_pages_eq_some :
    read_pages memory address n = some bytes ↔ bytes.length = n ∧ ∀ i < n, memory (address + i.toUInt64) = bytes[i]? := by
  induction n generalizing address bytes with
  | zero => simp [read_pages, eq_comm]
  | succ n ih =>
    rw [forall_lt_succ address n fun a i => memory a = bytes[i]?, read_pages]
    cases bytes with
    | nil => cases memory address <;> simp
    | cons b bytes =>
      cases memory address with
      | none => simp
      | some byte =>
        simp only [Option.map_eq_some_iff, List.cons.injEq, List.length_cons, Nat.succ_inj, List.getElem?_cons_zero,
          List.getElem?_cons_succ, Option.some.injEq]
        constructor
        · rintro ⟨rest, hrest, rfl, rfl⟩
          exact ⟨(ih.mp hrest).1, rfl, (ih.mp hrest).2⟩
        · rintro ⟨hlength, rfl, hrest⟩
          exact ⟨bytes, ih.mpr ⟨hlength, hrest⟩, rfl, rfl⟩

theorem read_pages_eq_none : read_pages memory address n = none ↔ ∃ i < n, memory (address + i.toUInt64) = none := by
  induction n generalizing address with
  | zero => simp [read_pages]
  | succ n ih =>
    rw [← not_iff_not]
    push Not
    rw [forall_lt_succ address n fun a _ => memory a ≠ none, read_pages]
    cases memory address with
    | none => simp
    | some byte =>
      simp only [ne_eq, Option.map_eq_none_iff, ih]
      push Not
      simp

theorem read_pages_add (k : Nat) :
    read_pages memory address (k + n) =
      (read_pages memory address k).bind fun bytes => (read_pages memory (address + k.toUInt64) n).map (bytes ++ ·) := by
  induction k generalizing address with
  | zero => simp [read_pages]
  | succ k ih =>
    rw [Nat.add_right_comm, read_pages, read_pages]
    cases memory address with
    | none => rfl
    | some byte =>
      simp only [ih, add_one_toUInt64, Option.map_bind, Option.bind_map]
      refine Option.bind_congr fun bytes _ => ?_
      simp [Function.comp_def]

theorem read_chunks_pages {chunk size : Nat} (hchunk : 0 < chunk) (hsize : size ≤ n) :
    read_chunks (read_pages memory) chunk n address size = read_pages memory address size := by
  induction n generalizing address size with
  | zero =>
    rw [Nat.le_zero.mp hsize]
    rfl
  | succ n ih =>
    rw [read_chunks]
    split
    · rename_i hzero
      rw [hzero, read_pages]
    · obtain ⟨rest, hrest⟩ := Nat.exists_eq_add_of_le (Nat.min_le_right chunk size)
      have htake : 0 < min chunk size := by omega
      generalize min chunk size = take at hrest htake ⊢
      subst hrest
      dsimp only
      rw [read_pages_add, Nat.add_sub_cancel_left, ih (by omega)]
      cases hread : read_pages memory address take with
      | none => rfl
      | some bytes => simp [(read_pages_eq_some.mp hread).1]

/-- The chunks of a read do not show. -/
theorem read_exact_pages (chunk_size : Nat) :
    read_exact (read_pages memory) chunk_size address n = read_pages memory address n :=
  read_chunks_pages (by omega) (Nat.le_refl n)

end

namespace IMAGE_SECTION_HEADER

variable (s : IMAGE_SECTION_HEADER) (memory : UInt64 → Option UInt8) (module_base : UInt64) (size_of_image : UInt32)

/-- The byte of the memory that belongs to the `i`-th byte of the raw data. -/
def byte (i : Nat) : Option UInt8 := memory (module_base + s.VirtualAddress.toUInt64 + i.toUInt64)

def Inside (i : Nat) : Prop := i < s.SizeOfRawData.toNat ∧ s.VirtualAddress.toNat + i < size_of_image.toNat

/-- What is inside the image can be read. -/
def Whole : Prop := ∀ i, s.Inside size_of_image i → (s.byte memory module_base i).isSome

/-- The raw data of two sections have no byte in common. -/
def Apart (s t : IMAGE_SECTION_HEADER) : Prop :=
  ∀ i < s.SizeOfRawData.toNat, ∀ j < t.SizeOfRawData.toNat, s.PointerToRawData.toNat + i ≠ t.PointerToRawData.toNat + j

theorem lt_readable {i : Nat} : i < s.readable size_of_image ↔ s.Inside size_of_image i := by
  rw [readable, Inside]
  simp only [ge_iff_le, UInt32.le_iff_toNat_le]
  split
  · omega
  · split <;> omega

theorem readable_le : s.readable size_of_image ≤ s.SizeOfRawData.toNat := by
  rw [readable]
  simp only [ge_iff_le, UInt32.le_iff_toNat_le]
  split
  · omega
  · split <;> omega

end IMAGE_SECTION_HEADER

/-- A section in the output: what is in the memory if that can be read up to its end, and zeros else. -/
def Shown (memory : UInt64 → Option UInt8) (module_base : UInt64) (size_of_image : UInt32) (s : IMAGE_SECTION_HEADER)
    (output : List UInt8) : Prop :=
  ∀ i, s.Inside size_of_image i →
    (s.Whole memory module_base size_of_image → output[s.PointerToRawData.toNat + i]? = s.byte memory module_base i) ∧
    (¬ s.Whole memory module_base size_of_image → output[s.PointerToRawData.toNat + i]? = some 0)

/-- What a section does to an image. -/
structure Dumped (memory : UInt64 → Option UInt8) (module_base : UInt64) (options : module_dump_options_t)
    (size_of_image : UInt32) (s : IMAGE_SECTION_HEADER) (image image' : rebuilt_t) : Prop where
  length : image'.output.length = image.output.length
  outside : ∀ i, (∀ j < s.SizeOfRawData.toNat, i ≠ s.PointerToRawData.toNat + j) → image'.output[i]? = image.output[i]?
  shown : Shown memory module_base size_of_image s image'.output
  strict : options.strict_reads = true → s.Whole memory module_base size_of_image
  complete : image'.complete = true ↔
    image.complete = true ∧ ∀ i < s.SizeOfRawData.toNat, s.Inside size_of_image i ∧ (s.byte memory module_base i).isSome

section

variable {memory : UInt64 → Option UInt8} {module_base : UInt64} {options : module_dump_options_t} {size_of_image : UInt32}
  {s : IMAGE_SECTION_HEADER} {image image' : rebuilt_t} {sections : List IMAGE_SECTION_HEADER}

theorem output_close_section (readable : Nat) : (close_section s readable image).output = image.output := by
  rw [close_section]
  split <;> rfl

theorem complete_close_section :
    (close_section s (s.readable size_of_image) image).complete = true ↔
      image.complete = true ∧ ∀ i < s.SizeOfRawData.toNat, s.Inside size_of_image i := by
  have hle := s.readable_le size_of_image
  simp only [← s.lt_readable size_of_image]
  rw [close_section]
  split
  · rename_i hlt
    refine iff_of_false (by simp) fun h => ?_
    exact absurd (h.2 _ hlt) (Nat.lt_irrefl _)
  · rename_i hge
    simp only [iff_self_and]
    intro _ i hi
    omega

/-- A section that is read, or filled with zeros. -/
theorem dumped_of_bytes {image₁ : rebuilt_t} {bytes : List UInt8}
    (hfits : s.PointerToRawData.toNat + s.SizeOfRawData.toNat ≤ image.output.length)
    (hlength : bytes.length = s.readable size_of_image)
    (hbytes : ∀ i, s.Inside size_of_image i →
      (s.Whole memory module_base size_of_image → bytes[i]? = s.byte memory module_base i) ∧
      (¬ s.Whole memory module_base size_of_image → bytes[i]? = some 0))
    (hstrict : options.strict_reads = true → s.Whole memory module_base size_of_image)
    (houtput : image₁.output = Bytes.overwrite image.output s.PointerToRawData.toNat bytes)
    (hcomplete : image₁.complete = true ↔ image.complete = true ∧ s.Whole memory module_base size_of_image) :
    Dumped memory module_base options size_of_image s image (close_section s (s.readable size_of_image) image₁) := by
  have hle := s.readable_le size_of_image
  have hroom : s.PointerToRawData.toNat + bytes.length ≤ image.output.length := by omega
  refine ⟨?_, ?_, ?_, hstrict, ?_⟩
  · rw [output_close_section, houtput]
    exact Bytes.length_overwrite hroom
  · intro i hi
    rw [output_close_section, houtput]
    refine Bytes.overwrite_outside hroom ?_
    by_contra hin
    push Not at hin
    exact hi (i - s.PointerToRawData.toNat) (by omega) (by omega)
  · intro i hi
    rw [output_close_section, houtput]
    have hin : i < bytes.length := by rwa [hlength, s.lt_readable]
    rw [Bytes.overwrite_inside hroom hin]
    exact hbytes i hi
  · rw [complete_close_section, hcomplete, and_assoc]
    refine and_congr_right fun _ => ?_
    constructor
    · rintro ⟨hwhole, hinside⟩ i hi
      exact ⟨hinside i hi, hwhole i (hinside i hi)⟩
    · intro h
      exact ⟨fun i hi => (h i hi.1).2, fun i hi => (h i hi).1⟩

theorem read_whole {bytes : List UInt8}
    (hread : read_pages memory (module_base + s.VirtualAddress.toUInt64) (s.readable size_of_image) = some bytes) :
    s.Whole memory module_base size_of_image ∧ bytes.length = s.readable size_of_image ∧
      ∀ i, s.Inside size_of_image i → bytes[i]? = s.byte memory module_base i := by
  obtain ⟨hlength, hbytes⟩ := read_pages_eq_some.mp hread
  have hbyte : ∀ i, s.Inside size_of_image i → bytes[i]? = s.byte memory module_base i := by
    intro i hi
    exact (hbytes i ((s.lt_readable _).mpr hi)).symm
  refine ⟨fun i hi => ?_, hlength, hbyte⟩
  have hin : i < bytes.length := by rwa [hlength, s.lt_readable]
  rw [← hbyte i hi, List.getElem?_eq_getElem hin]
  rfl

theorem not_whole
    (hread : read_pages memory (module_base + s.VirtualAddress.toUInt64) (s.readable size_of_image) = none) :
    ¬ s.Whole memory module_base size_of_image := by
  obtain ⟨i, hi, hnone⟩ := read_pages_eq_none.mp hread
  intro hwhole
  have hsome := hwhole i ((s.lt_readable _).mp hi)
  rw [IMAGE_SECTION_HEADER.byte, hnone] at hsome
  cases hsome

theorem dump_section_spec (hfits : s.PointerToRawData.toNat + s.SizeOfRawData.toNat ≤ image.output.length)
    (hdump : dump_section (read_pages memory) module_base options size_of_image image s = .ok image') :
    Dumped memory module_base options size_of_image s image image' := by
  rw [dump_section] at hdump
  split at hdump
  · rename_i hzero
    cases hdump
    have hempty : s.SizeOfRawData.toNat = 0 := by
      rw [hzero]
      rfl
    have hnone : ∀ i, ¬ s.Inside size_of_image i := by
      intro i hi
      rw [IMAGE_SECTION_HEADER.Inside, hempty] at hi
      exact Nat.not_lt_zero i hi.1
    refine ⟨rfl, fun _ _ => rfl, fun i hi => absurd hi (hnone i), fun _ i hi => absurd hi (hnone i), ?_⟩
    simp [hempty]
  · dsimp only at hdump
    split at hdump
    · rw [read_exact_pages] at hdump
      split at hdump
      · rename_i bytes hread
        cases hdump
        obtain ⟨hwhole, hlength, hbytes⟩ := read_whole hread
        exact dumped_of_bytes hfits hlength (fun i hi => ⟨fun _ => hbytes i hi, fun h => absurd hwhole h⟩) (fun _ => hwhole)
          rfl (by simp [hwhole])
      · rename_i hread
        have hholed := not_whole hread
        split at hdump
        · cases hdump
        · rename_i hlax
          cases hdump
          refine dumped_of_bytes hfits List.length_replicate (fun i hi => ⟨fun h => absurd h hholed, fun _ => ?_⟩)
            (fun h => absurd h hlax) rfl (by simp [hholed])
          rw [List.getElem?_replicate, if_pos ((s.lt_readable _).mpr hi)]
    · rename_i hzero
      cases hdump
      have hnone : ∀ i, ¬ s.Inside size_of_image i := by
        intro i hi
        rw [← s.lt_readable] at hi
        omega
      have hwhole : s.Whole memory module_base size_of_image := fun i hi => absurd hi (hnone i)
      have hempty : ([] : List UInt8).length = s.readable size_of_image := (not_not.mp hzero).symm
      exact dumped_of_bytes hfits hempty (fun i hi => absurd hi (hnone i)) (fun _ => hwhole) (by simp [Bytes.overwrite])
        (by simp [hwhole])

/-- What all sections do to an image. -/
theorem dump_sections_spec
    (hfits : ∀ s ∈ sections, s.PointerToRawData.toNat + s.SizeOfRawData.toNat ≤ image.output.length)
    (hapart : sections.Pairwise IMAGE_SECTION_HEADER.Apart)
    (hdump : dump_sections (read_pages memory) module_base options size_of_image image sections = .ok image') :
    (∀ i, (∀ s ∈ sections, ∀ j < s.SizeOfRawData.toNat, i ≠ s.PointerToRawData.toNat + j) →
      image'.output[i]? = image.output[i]?) ∧
    (∀ s ∈ sections, Shown memory module_base size_of_image s image'.output) ∧
    (options.strict_reads = true → ∀ s ∈ sections, s.Whole memory module_base size_of_image) ∧
    (image'.complete = true ↔ image.complete = true ∧ ∀ s ∈ sections,
      ∀ i < s.SizeOfRawData.toNat, s.Inside size_of_image i ∧ (s.byte memory module_base i).isSome) := by
  induction sections generalizing image with
  | nil =>
    cases hdump
    simp
  | cons s sections ih =>
    rw [dump_sections] at hdump
    split at hdump
    · rename_i image₁ hfirst
      obtain ⟨hfit, hfits⟩ := List.forall_mem_cons.mp hfits
      obtain ⟨hapart, hrest⟩ := List.pairwise_cons.mp hapart
      have hspec := dump_section_spec hfit hfirst
      rw [← hspec.length] at hfits
      obtain ⟨houtside, hshown, hstrict, hcomplete⟩ := ih hfits hrest hdump
      refine ⟨?_, ?_, ?_, ?_⟩
      · intro i hi
        obtain ⟨his, hisections⟩ := List.forall_mem_cons.mp hi
        rw [houtside i hisections, hspec.outside i his]
      · refine List.forall_mem_cons.mpr ⟨fun i hi => ?_, hshown⟩
        rw [houtside _ fun t ht j hj => hapart t ht i hi.1 j hj]
        exact hspec.shown i hi
      · intro h
        exact List.forall_mem_cons.mpr ⟨hspec.strict h, hstrict h⟩
      · rw [hcomplete, hspec.complete, List.forall_mem_cons, and_assoc]
    · cases hdump

theorem output_size_spec {size n : Nat} (h : output_size size sections = some n) :
    size ≤ n ∧ ∀ s ∈ sections, s.PointerToRawData.toNat + s.SizeOfRawData.toNat ≤ n := by
  induction sections generalizing size with
  | nil =>
    cases h
    simp
  | cons s sections ih =>
    rw [output_size] at h
    split at h
    · cases h
    · rename_i e he
      rw [add_fits] at he
      split at he
      · cases he
      · cases he
        obtain ⟨hsize, hsections⟩ := ih h
        exact ⟨by omega, List.forall_mem_cons.mpr ⟨by omega, hsections⟩⟩

theorem shown_iff_byte {output : List UInt8} (h : Shown memory module_base size_of_image s output) :
    (∀ i, s.Inside size_of_image i →
      output[s.PointerToRawData.toNat + i]? = some ((s.byte memory module_base i).getD 0)) ↔
    ((∃ i, s.Inside size_of_image i ∧ s.byte memory module_base i = none) →
      ∀ i, s.Inside size_of_image i → ∀ b, s.byte memory module_base i = some b → b = 0) := by
  by_cases hwhole : s.Whole memory module_base size_of_image
  · refine iff_of_true (fun i hi => ?_) ?_
    · obtain ⟨b, hb⟩ := Option.isSome_iff_exists.mp (hwhole i hi)
      rw [(h i hi).1 hwhole, hb]
      rfl
    · rintro ⟨i, hi, hnone⟩
      have hsome := hwhole i hi
      rw [hnone] at hsome
      cases hsome
  · have hhole : ∃ i, s.Inside size_of_image i ∧ s.byte memory module_base i = none := by
      rw [IMAGE_SECTION_HEADER.Whole] at hwhole
      push Not at hwhole
      simpa using hwhole
    rw [imp_iff_right hhole]
    refine forall₂_congr fun i hi => ?_
    rw [(h i hi).2 hwhole]
    cases s.byte memory module_base i <;> simp [eq_comm]

end

/-- The raw data of the sections are apart from each other and from the headers. -/
structure headers_t.Apart (h : headers_t) : Prop where
  sections : h.sections.Pairwise IMAGE_SECTION_HEADER.Apart
  headers : ∀ s ∈ h.sections, ∀ i < s.SizeOfRawData.toNat, h.size_of_headers.toNat ≤ s.PointerToRawData.toNat + i

/-- What a dump keeps of the sections of a module. -/
structure Keeps (memory : UInt64 → Option UInt8) (module_base : UInt64) (options : module_dump_options_t) (h : headers_t)
    (dump : module_dump_result_t × List UInt8) : Prop where
  bytes : ∀ s ∈ h.sections, ∀ i, s.Inside h.size_of_image i →
    dump.2[s.PointerToRawData.toNat + i]? = some ((s.byte memory module_base i).getD 0)
  strict : options.strict_reads = true → ∀ s ∈ h.sections, ∀ i, s.Inside h.size_of_image i →
    (s.byte memory module_base i).isSome
  complete : dump.1.complete = true ↔ ∀ s ∈ h.sections, ∀ i < s.SizeOfRawData.toNat,
    s.Inside h.size_of_image i ∧ (s.byte memory module_base i).isSome

section

variable {memory : UInt64 → Option UInt8} {module_base : UInt64} {module_size : UInt32} {options : module_dump_options_t}
  {h : headers_t}

/-- What a module dump that succeeds went through. -/
theorem reconstruct_cases {read : module_read_fn_t} (hheaders : read_headers read module_base options.chunk_size = .ok h)
    (hok : (reconstruct_mapped_pe module_base module_size read options).1.ok = true) :
    ∃ warnings image, rebuild read module_base options h warnings = .ok image ∧
      (reconstruct_mapped_pe module_base module_size read options).1.complete = image.complete ∧
      (reconstruct_mapped_pe module_base module_size read options).2 = image.output := by
  rw [reconstruct_mapped_pe, hheaders] at hok ⊢
  split at hok
  · cases hok
  · rename_i hvalid
    rw [if_neg hvalid]
    dsimp only at hok ⊢
    split at hok
    · cases hok
    · rename_i image hreconstruct
      rw [reconstruct] at hreconstruct
      split at hreconstruct
      · rename_i image' hrebuild
        refine ⟨_, image', hrebuild, ?_⟩
        rw [validate] at hreconstruct
        split at hreconstruct
        · split at hreconstruct
          · cases hreconstruct
          · cases hreconstruct
            exact ⟨rfl, rfl⟩
        · cases hreconstruct
      · cases hreconstruct

/-- What the sections of a rebuilt image show. -/
theorem rebuild_spec {warnings : List String} {image : rebuilt_t} (hapart : h.Apart)
    (hrebuild : rebuild (read_pages memory) module_base options h warnings = .ok image) :
    (∀ s ∈ h.sections, Shown memory module_base h.size_of_image s image.output) ∧
    (options.strict_reads = true → ∀ s ∈ h.sections, s.Whole memory module_base h.size_of_image) ∧
    (image.complete = true ↔ ∀ s ∈ h.sections,
      ∀ i < s.SizeOfRawData.toNat, s.Inside h.size_of_image i ∧ (s.byte memory module_base i).isSome) := by
  rw [rebuild] at hrebuild
  split at hrebuild
  · cases hrebuild
  · rename_i size hsize
    split at hrebuild
    · cases hrebuild
    · split at hrebuild
      · cases hrebuild
      · rename_i headers hread
        rw [read_exact_pages] at hread
        obtain ⟨hheaders, hsections⟩ := output_size_spec hsize
        have hlength : (Bytes.overwrite (List.replicate size 0) 0 headers).length = size := by
          rw [Bytes.length_overwrite] <;> rw [List.length_replicate]
          rw [Nat.zero_add, (read_pages_eq_some.mp hread).1]
          exact hheaders
        obtain ⟨-, hshown, hstrict, hcomplete⟩ :=
          dump_sections_spec (by rwa [hlength]) hapart.sections hrebuild
        refine ⟨hshown, hstrict, hcomplete.trans ?_⟩
        simp

/-- A dump that succeeds keeps all that can be read of the sections exactly if no section that can be read only in part
has a byte other than zero where it can. -/
theorem keeps_readable_iff
    (hheaders : read_headers (read_pages memory) module_base options.chunk_size = .ok h) (hapart : h.Apart)
    (hok : (reconstruct_mapped_pe module_base module_size (read_pages memory) options).1.ok = true) :
    Keeps memory module_base options h (reconstruct_mapped_pe module_base module_size (read_pages memory) options) ↔
      ∀ s ∈ h.sections, (∃ i, s.Inside h.size_of_image i ∧ s.byte memory module_base i = none) →
        ∀ i, s.Inside h.size_of_image i → ∀ b, s.byte memory module_base i = some b → b = 0 := by
  obtain ⟨warnings, image, hrebuild, hcomplete, houtput⟩ := reconstruct_cases hheaders hok
  obtain ⟨hshown, hstrict, hspec⟩ := rebuild_spec hapart hrebuild
  have hbytes := forall₂_congr fun s hs => shown_iff_byte (hshown s hs)
  rw [← hbytes]
  constructor
  · intro hkeeps
    rw [← houtput]
    exact hkeeps.bytes
  · intro hbytes
    refine ⟨?_, hstrict, ?_⟩
    · rwa [houtput]
    · rwa [hcomplete]

end

/-- The headers of a module with one section, of 512 bytes, that begins near the end of a page. -/
def small_headers : List UInt8 :=
  List.flatten
    [[0x4D, 0x5A], List.replicate 58 0, Bytes.le 4 0x40, Bytes.le 4 0x4550, Bytes.le 2 0x8664, Bytes.le 2 1, List.replicate 12 0,
      Bytes.le 2 240, Bytes.le 2 0, Bytes.le 2 0x20B, List.replicate 54 0, Bytes.le 4 0x3000, Bytes.le 4 0x200,
      List.replicate 176 0, Numeral.ascii ".text", [0, 0, 0], Bytes.le 4 0x200, Bytes.le 4 0x1F00, Bytes.le 4 0x200,
      Bytes.le 4 0x200]

/-- The module at 0x400000, of three pages. The last one can be read or not. -/
def small_module (last : Bool) (address : UInt64) : Option UInt8 :=
  let offset := (address - 0x400000).toNat
  if offset < 0x1000 then some (small_headers.getD offset 0)
  else if offset < 0x2000 ∨ (offset < 0x3000 ∧ last) then some 0x90
  else none

def small_layout : headers_t where
  size_of_image := 0x3000
  size_of_headers := 0x200
  sections :=
    [{ Name := Numeral.ascii ".text" ++ [0, 0, 0], VirtualAddress := 0x1F00, SizeOfRawData := 0x200
       PointerToRawData := 0x200 }]

def lax : module_dump_options_t where
  strict_reads := false

theorem apart_small_layout : small_layout.Apart := by
  refine ⟨List.pairwise_singleton _ _, List.forall_mem_singleton.mpr fun i _ => ?_⟩
  exact Nat.le_add_right 0x200 i

theorem read_small_headers (last : Bool) :
    read_headers (read_pages (small_module last)) 0x400000 lax.chunk_size = .ok small_layout := by
  revert last
  decide +kernel

theorem small_module_ok (last : Bool) :
    (reconstruct_mapped_pe 0x400000 0x3000 (read_pages (small_module last)) lax).1.ok = true := by
  revert last
  decide +kernel

theorem keeps_readable_small_module :
    Keeps (small_module true) 0x400000 lax small_layout
      (reconstruct_mapped_pe 0x400000 0x3000 (read_pages (small_module true)) lax) := by
  refine (keeps_readable_iff (read_small_headers true) apart_small_layout (small_module_ok true)).mpr ?_
  refine List.forall_mem_singleton.mpr ?_
  rintro ⟨i, hi, hnone⟩
  have hsome : ∀ i < 0x200, small_module true (0x400000 + 0x1F00 + i.toUInt64) ≠ none := by decide +kernel
  exact absurd hnone (hsome i hi.1)

/-- The first bytes of the section can be read, and are lost with the page behind them. -/
theorem readable_is_lost :
    ∃ h, read_headers (read_pages (small_module false)) 0x400000 lax.chunk_size = .ok h ∧ h.Apart ∧
      (reconstruct_mapped_pe 0x400000 0x3000 (read_pages (small_module false)) lax).1.ok = true ∧
      ¬ Keeps (small_module false) 0x400000 lax h
        (reconstruct_mapped_pe 0x400000 0x3000 (read_pages (small_module false)) lax) := by
  refine ⟨small_layout, read_small_headers false, apart_small_layout, small_module_ok false, fun hkeeps => ?_⟩
  have hfirst := hkeeps.bytes _ (List.mem_singleton_self _) 0 ⟨by decide, by decide⟩
  revert hfirst
  decide +kernel

end slop.core.process
