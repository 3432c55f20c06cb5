import Mathlib.Algebra.Group.Nat.Defs
import ReverseSlop.Core.Disasm.BinaryState

namespace slop.core.disasm

/-- The file offset behind an address, if the image has it. -/
def pe_image_t.va_to_offset (pe : pe_image_t) (va : UInt64) : Option Nat :=
  if !pe.ok then none
  else if va < pe.image_base ∨ va - pe.image_base > 0xFFFFFFFF then none
  else pe.rva_to_offset (va - pe.image_base).toUInt32

/-- How far the file offset behind an address is from the address: the distance is that of the first section
which contains it, and none in the headers. -/
def pe_image_t.shift (pe : pe_image_t) (rva : UInt32) : Option Int :=
  let header := if rva < 0x400 then some 0 else none
  match pe.sections.find? fun s => s.contains_rva rva with
  | none => header
  | some s => if rva - s.rva ≥ s.raw_size then header else some ((s.raw_offset.toNat : Int) - s.rva.toNat)

def pe_image_t.rva (pe : pe_image_t) (va : UInt64) : UInt32 := (va - pe.image_base).toUInt32

/-- The addresses are in the image, and they all are as far from their file offsets. -/
structure pe_image_t.OneRun (pe : pe_image_t) (va : UInt64) (n : Nat) : Prop where
  word : va.toNat + n ≤ 2 ^ 64
  image : va.toNat + n ≤ pe.image_base.toNat + 2 ^ 32
  shift : ∀ i < n, pe.shift (pe.rva va + i.toUInt32) = pe.shift (pe.rva va)

variable {pe : pe_image_t} {rva : UInt32} {va : UInt64} {off n i : Nat}

theorem rva_to_offset_eq_some : pe.rva_to_offset rva = some off ↔ pe.shift rva = some ((off : Int) - rva.toNat) := by
  have hheader : (if rva < 0x400 then some rva.toNat else none) = some off ↔
      (if rva < 0x400 then some (0 : Int) else none) = some ((off : Int) - rva.toNat) := by
    split
    · simp only [Option.some.injEq]
      omega
    · simp
  rw [pe_image_t.rva_to_offset, pe_image_t.shift]
  cases hfind : pe.sections.find? fun s => s.contains_rva rva with
  | none => exact hheader
  | some s =>
    have hin := List.find?_some hfind
    simp only [pe_section_t.contains_rva, Bool.and_eq_true, decide_eq_true_eq, ge_iff_le] at hin
    have hsub := UInt32.toNat_sub_of_le _ _ hin.1
    have hle := UInt32.le_iff_toNat_le.mp hin.1
    dsimp only
    split
    · exact hheader
    · simp only [Option.some.injEq, hsub]
      omega

theorem va_to_offset_spec (hmap : pe.va_to_offset va = some off) :
    pe.image_base.toNat ≤ va.toNat ∧ va.toNat - pe.image_base.toNat < 2 ^ 32 ∧ pe.rva_to_offset (pe.rva va) = some off := by
  rw [pe_image_t.va_to_offset] at hmap
  split at hmap
  · cases hmap
  split at hmap
  · cases hmap
  case isFalse hin =>
    rw [not_or, UInt64.not_lt, gt_iff_lt, UInt64.not_lt] at hin
    have hsub := UInt64.toNat_sub_of_le _ _ hin.1
    have hlt := UInt64.le_iff_toNat_le.mp hin.2
    rw [hsub] at hlt
    exact ⟨UInt64.le_iff_toNat_le.mp hin.1, Nat.lt_succ_of_le hlt, hmap⟩

theorem va_to_offset_eq (hok : pe.ok) (hle : pe.image_base.toNat ≤ va.toNat)
    (hlt : va.toNat - pe.image_base.toNat < 2 ^ 32) : pe.va_to_offset va = pe.rva_to_offset (pe.rva va) := by
  have hle := UInt64.le_iff_toNat_le.mpr hle
  have hsub := UInt64.toNat_sub_of_le _ _ hle
  have hin : ¬ (va < pe.image_base ∨ va - pe.image_base > 0xFFFFFFFF) := by
    rw [not_or, UInt64.not_lt, gt_iff_lt, UInt64.not_lt, UInt64.le_iff_toNat_le (b := 0xFFFFFFFF), hsub]
    exact ⟨hle, Nat.le_of_lt_succ hlt⟩
  rw [pe_image_t.va_to_offset, if_neg (by simp [hok]), if_neg hin, pe_image_t.rva]

theorem rva_add (va : UInt64) (i : Nat) : pe.rva (va + i.toUInt64) = pe.rva va + i.toUInt32 := by
  apply UInt32.toNat_inj.mp
  simp only [pe_image_t.rva, UInt64.toNat_toUInt32, UInt64.toNat_sub, UInt64.toNat_add, UInt32.toNat_add]
  change _ = (_ + i % 2 ^ 32) % 2 ^ 32
  change (_ + (_ + i % 2 ^ 64) % 2 ^ 64) % 2 ^ 64 % 2 ^ 32 = _
  omega

theorem toNat_add_nat (va : UInt64) (i : Nat) : (va + i.toUInt64).toNat = (va.toNat + i) % 2 ^ 64 := by
  rw [UInt64.toNat_add]
  change (_ + i % 2 ^ 64) % 2 ^ 64 = _
  omega

/-- The address behind `i` others, as long as it is in the image. -/
theorem rva_run (pe : pe_image_t) (i : Nat) (hbase : pe.image_base.toNat ≤ va.toNat) (hword : va.toNat + i < 2 ^ 64)
    (himage : va.toNat + i < pe.image_base.toNat + 2 ^ 32) :
    (va + i.toUInt64).toNat = va.toNat + i ∧ (pe.rva va + i.toUInt32).toNat = (pe.rva va).toNat + i := by
  have hsub := UInt64.toNat_sub_of_le _ _ (UInt64.le_iff_toNat_le.mpr hbase)
  have hrva : (pe.rva va).toNat = va.toNat - pe.image_base.toNat := by
    rw [pe_image_t.rva, UInt64.toNat_toUInt32, hsub]
    omega
  refine ⟨by rw [toNat_add_nat]; omega, ?_⟩
  rw [UInt32.toNat_add, hrva]
  change (_ + i % 2 ^ 32) % 2 ^ 32 = _
  omega

/-- The addresses of a run have the offsets of a run exactly if they are in the image with one distance. -/
theorem consecutive_iff (hok : pe.ok) (hbase : pe.image_base.toNat ≤ va.toNat) (hfirst : pe.rva_to_offset (pe.rva va) = some off)
    (hpos : 0 < n) : (∀ i < n, pe.va_to_offset (va + i.toUInt64) = some (off + i)) ↔ pe.OneRun va n := by
  have hva := va.toNat_lt
  have hbase' := pe.image_base.toNat_lt
  constructor
  · intro hrun
    have hmap : ∀ i < n, pe.image_base.toNat ≤ (va.toNat + i) % 2 ^ 64 ∧
        (va.toNat + i) % 2 ^ 64 - pe.image_base.toNat < 2 ^ 32 ∧ pe.rva_to_offset (pe.rva va + i.toUInt32) = some (off + i) := by
      intro i hi
      obtain ⟨hle, hlt, hoff⟩ := va_to_offset_spec (hrun i hi)
      rw [toNat_add_nat] at hle hlt
      rw [rva_add] at hoff
      exact ⟨hle, hlt, hoff⟩
    have himage : va.toNat + n ≤ pe.image_base.toNat + 2 ^ 32 := by
      refine Nat.le_of_not_lt fun hover => ?_
      have hstart := (hmap 0 hpos).2.1
      have hend := hmap (pe.image_base.toNat + 2 ^ 32 - va.toNat) (by omega)
      omega
    have hword : va.toNat + n ≤ 2 ^ 64 := by
      refine Nat.le_of_not_lt fun hover => ?_
      have hend := hmap (2 ^ 64 - va.toNat) (by omega)
      omega
    refine ⟨hword, himage, fun i hi => ?_⟩
    have hrva := (rva_run pe i hbase (by omega) (by omega)).2
    rw [rva_to_offset_eq_some.mp (hmap i hi).2.2, rva_to_offset_eq_some.mp hfirst, hrva]
    simp only [Option.some.injEq]
    omega
  · intro hrun i hi
    have hword := hrun.word
    have himage := hrun.image
    obtain ⟨hadd, hrva⟩ := rva_run pe i hbase (by omega) (by omega)
    rw [va_to_offset_eq hok (by omega) (by omega), rva_add, rva_to_offset_eq_some, hrun.shift i hi,
      rva_to_offset_eq_some.mp hfirst, hrva]
    simp only [Option.some.injEq]
    omega

end slop.core.disasm
