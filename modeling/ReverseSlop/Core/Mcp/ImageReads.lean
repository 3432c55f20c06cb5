import ReverseSlop.Core.Analysis.Xray.Cfg
import ReverseSlop.Core.Disasm.Backing
import ReverseSlop.Core.Disasm.PeParse
import ReverseSlop.Library.Arithmetic

namespace slop.core

open disasm (pe_image_t pe_parse rva_to_offset_eq_some consecutive_iff va_to_offset_spec)
open analysis.xray (image_ref_t)

/-- The bytes of the file that are copied. -/
structure span_t where
  off : Nat
  count : Nat

/-- A copy reads what is in memory behind the file, too. -/
def span_t.bytes (s : span_t) (file : List UInt8) : List (Option UInt8) :=
  (List.range s.count).map fun i => file[s.off + i]?

namespace analysis

/-- A read of `len` bytes, with an address of 32 bits. -/
def copy_img (img : image_ref_t) (va : UInt64) (len : Nat) : Option span_t :=
  if va < img.base then none
  else
    match img.pe.rva_to_offset (va - img.base).toUInt32 with
    | none => none
    | some off => if off + len > img.file.length then none else some ⟨off, len⟩

def devirt.read_img (img : image_ref_t) (va : UInt64) (len : Nat) : Option span_t := copy_img img va len

def recover.xray_decode_at (img : image_ref_t) (va : UInt64) : Option span_t := copy_img img va 16

def recover.read_qword_img (img : image_ref_t) (va : UInt64) : Option span_t := copy_img img va 8

theorem xray.read_img_eq (img : image_ref_t) (va : UInt64) (len : Nat) :
    read_img img va len = (copy_img img va len).map fun s => (img.file.drop s.off).take s.count := by
  rw [read_img, copy_img]
  by_cases hlow : va < img.base
  · rw [if_pos hlow, if_pos hlow]
    rfl
  rw [if_neg hlow, if_neg hlow]
  cases img.pe.rva_to_offset (va - img.base).toUInt32 with
  | none => rfl
  | some off =>
    dsimp only
    split <;> rfl

end analysis

namespace mcp

/-- An opened image, at its own base. -/
structure opened_ref_t extends image_ref_t where
  parsed : pe.ok = true
  based : base = pe.image_base
  sized : file.length < 2 ^ 64

/-- A read of at most `n` bytes, up to the end of the file: the bytes left are counted with 64 bits. -/
def copy_clamped (o : opened_ref_t) (va : UInt64) (n : Nat) : Option span_t :=
  (o.pe.va_to_offset va).map fun off => ⟨off, min n (Word.sub64 o.file.length off)⟩

/-- The bytes that `memory.read` takes from the image. -/
def memory_read (o : opened_ref_t) (addr : UInt64) (len : Nat) : Option span_t :=
  let len := if len = 0 then 256 else len
  if len > 2 ^ 20 then none else copy_clamped o addr len

/-- The bytes that `disasm.disassemble` takes from the image. -/
def disassemble (o : opened_ref_t) (addr : UInt64) (count : Nat) : Option span_t :=
  copy_clamped o addr (min count 512 * 16 + 16)

variable {o : opened_ref_t} {va : UInt64} {n len count off : Nat}

/-- Every byte copied is in the file, and it is the one that the image has at its address. -/
def Faithful (o : opened_ref_t) (va : UInt64) (read : Option span_t) : Prop :=
  ∀ s ∈ read, ∀ i < s.count, s.off + i < o.file.length ∧ o.pe.va_to_offset (va + i.toUInt64) = some (s.off + i)

/-- The bytes of a faithful read are those of the file at the offsets of their addresses. -/
theorem Faithful.bytes {s : span_t} (hfaithful : Faithful o va (some s)) {i : Nat} (hi : i < s.count) :
    ∃ off, o.pe.va_to_offset (va + i.toUInt64) = some off ∧ ∃ b, o.file[off]? = some b ∧ (s.bytes o.file)[i]? = some (some b) := by
  obtain ⟨hlt, hoff⟩ := hfaithful s rfl i hi
  refine ⟨_, hoff, o.file[s.off + i], List.getElem?_eq_getElem hlt, ?_⟩
  simp [span_t.bytes, hi, hlt]

/-- The bytes left in the file behind an address are on one run with it. -/
def Clamped (o : opened_ref_t) (va : UInt64) (n : Nat) : Prop :=
  ∀ off, o.pe.va_to_offset va = some off → off ≤ o.file.length ∧ o.pe.OneRun va (min n (o.file.length - off))

/-- Where the low half of the address has bytes in the file, they are on one run with the address. -/
def Truncated (o : opened_ref_t) (va : UInt64) (len : Nat) : Prop :=
  ∀ off, o.pe.image_base ≤ va → o.pe.rva_to_offset (o.pe.rva va) = some off → off + len ≤ o.file.length → 0 < len →
    o.pe.OneRun va len

theorem offset_lt {pe : pe_image_t} {rva : UInt32} (hoff : pe.rva_to_offset rva = some off) : off < 2 ^ 33 := by
  have hrva := rva.toNat_lt
  have hheader : (if rva < 0x400 then some rva.toNat else none) = some off → off < 2 ^ 33 := by
    intro hhead
    split at hhead
    · obtain rfl := Option.some.inj hhead
      omega
    · cases hhead
  rw [pe_image_t.rva_to_offset] at hoff
  split at hoff
  · exact hheader hoff
  case h_2 s _ =>
    split at hoff
    · exact hheader hoff
    · obtain rfl := Option.some.inj hoff
      have hraw := s.raw_offset.toNat_lt
      have hdist := (rva - s.rva).toNat_lt
      omega

theorem faithful_span_iff (hbase : o.pe.image_base.toNat ≤ va.toNat) (hfirst : o.pe.rva_to_offset (o.pe.rva va) = some off)
    (hpos : 0 < n) (hroom : off + n ≤ o.file.length) : Faithful o va (some ⟨off, n⟩) ↔ o.pe.OneRun va n := by
  rw [← consecutive_iff o.parsed hbase hfirst hpos]
  constructor
  · exact fun hfaithful i hi => (hfaithful _ rfl i hi).2
  · rintro hrun s ⟨⟩ i hi
    exact ⟨by dsimp only at hi ⊢; omega, hrun i hi⟩

theorem copy_clamped_iff (hpos : 0 < n) (hn : n ≤ 2 ^ 20) : Faithful o va (copy_clamped o va n) ↔ Clamped o va n := by
  rw [copy_clamped, Clamped]
  cases hmap : o.pe.va_to_offset va with
  | none => exact iff_of_true (by rintro s ⟨⟩) (by rintro off ⟨⟩)
  | some off =>
    obtain ⟨hbase, himage, hfirst⟩ := va_to_offset_spec hmap
    have hoff := offset_lt hfirst
    simp only [Option.map_some, Option.some.injEq, forall_eq']
    by_cases hin : off ≤ o.file.length
    · rw [Word.sub64_eq_sub hin o.sized]
      rcases Nat.eq_zero_or_pos (min n (o.file.length - off)) with hzero | hcount
      · have hva := va.toNat_lt
        rw [hzero]
        refine iff_of_true ?_ ⟨hin, by omega, by omega, by rintro i ⟨⟩⟩
        rintro s ⟨⟩ i ⟨⟩
      · rw [faithful_span_iff hbase hfirst hcount (by omega)]
        simp [hin]
    · -- the subtraction wraps, and the copy begins behind the file
      have hcount : 0 < min n (Word.sub64 o.file.length off) := by
        have hb : off % 2 ^ 64 = off := Nat.mod_eq_of_lt (by omega)
        rw [Word.sub64, hb, Nat.mod_eq_of_lt (by omega)]
        omega
      refine iff_of_false (fun hfaithful => ?_) fun h => hin h.1
      have hlt := (hfaithful _ rfl 0 hcount).1
      exact hin (Nat.le_of_lt hlt)

theorem copy_img_iff (len : Nat) : Faithful o va (analysis.copy_img o.toimage_ref_t va len) ↔ Truncated o va len := by
  rw [analysis.copy_img, Truncated, o.based]
  by_cases hlow : va < o.pe.image_base
  · rw [if_pos hlow]
    exact iff_of_true (by rintro s ⟨⟩) fun off hle => absurd hlow (UInt64.not_lt.mpr hle)
  rw [if_neg hlow]
  have hbase := UInt64.not_lt.mp hlow
  change Faithful o va (match o.pe.rva_to_offset (o.pe.rva va) with | none => none | some off => _) ↔ _
  cases hfirst : o.pe.rva_to_offset (o.pe.rva va) with
  | none => exact iff_of_true (by rintro s ⟨⟩) (by rintro off _ ⟨⟩)
  | some off =>
    dsimp only
    split
    · refine iff_of_true (by rintro s ⟨⟩) ?_
      rintro off' - ⟨⟩ hroom
      omega
    · rcases Nat.eq_zero_or_pos len with rfl | hpos
      · exact iff_of_true (by rintro s ⟨⟩ i ⟨⟩) fun off' _ _ _ hpos => absurd hpos (lt_irrefl 0)
      · rw [faithful_span_iff (UInt64.le_iff_toNat_le.mp hbase) hfirst hpos (by omega)]
        constructor
        · rintro hrun off' - - - -
          exact hrun
        · exact fun htruncated => htruncated off hbase rfl (by omega) hpos

/-- The reads from an image are faithful exactly where the image has the bytes of the file in one run: none of
them looks at the address of any but the first byte. -/
theorem image_reads_faithful_iff (o : opened_ref_t) (va : UInt64) :
    (∀ len, Faithful o va (memory_read o va len) ↔ (len ≤ 2 ^ 20 → Clamped o va (if len = 0 then 256 else len))) ∧
      (∀ count, Faithful o va (disassemble o va count) ↔ Clamped o va (min count 512 * 16 + 16)) ∧
      (∀ len, Faithful o va (analysis.copy_img o.toimage_ref_t va len) ↔ Truncated o va len) ∧
      (∀ len, Faithful o va (analysis.devirt.read_img o.toimage_ref_t va len) ↔ Truncated o va len) ∧
      (Faithful o va (analysis.recover.xray_decode_at o.toimage_ref_t va) ↔ Truncated o va 16) ∧
      (Faithful o va (analysis.recover.read_qword_img o.toimage_ref_t va) ↔ Truncated o va 8) := by
  refine ⟨fun len => ?_, fun count => copy_clamped_iff (by omega) (by omega), copy_img_iff, copy_img_iff, copy_img_iff 16,
    copy_img_iff 8⟩
  rw [memory_read]
  by_cases hlen : len ≤ 2 ^ 20
  · rw [if_neg (by split <;> omega), copy_clamped_iff (by split <;> omega) (by split <;> omega)]
    exact ⟨fun hclamped _ => hclamped, fun hclamped => hclamped hlen⟩
  · have hlong : (if len = 0 then 256 else len) > 2 ^ 20 := by
      rw [if_neg (by omega)]
      omega
    rw [if_pos hlong]
    exact iff_of_true (by rintro s ⟨⟩) fun h => absurd h hlen

/-- A file of headers alone, with a section of one byte that is said to be far behind its end. -/
def headers_only : List UInt8 :=
  [0x4D, 0x5A] ++ List.replicate 58 0 ++ [0x40, 0, 0, 0] ++ [0x50, 0x45, 0, 0, 0x4C, 1, 1, 0] ++ List.replicate 12 0 ++
    [96, 0, 0, 0] ++ [0x0B, 1] ++ List.replicate 26 0 ++ [0, 0, 0x40, 0] ++ List.replicate 64 0 ++ List.replicate 8 0 ++
    [1, 0, 0, 0, 0, 0x10, 0, 0, 1, 0, 0, 0, 0, 0, 0, 0x70] ++ List.replicate 16 0

/-- The read of that byte takes it from memory behind the file. -/
theorem reads_behind_file : ¬ ∀ o : opened_ref_t, pe_parse o.file = some o.pe → ∀ va len, Faithful o va (memory_read o va len) := by
  intro hfaithful
  have hparse : (pe_parse headers_only).map (fun pe => (pe.ok, pe.va_to_offset 0x401000)) = some (true, some 0x70000000) := by
    decide +kernel
  obtain ⟨pe, hpe, hfields⟩ := Option.map_eq_some_iff.mp hparse
  obtain ⟨hok, hoff⟩ := Prod.mk.inj hfields
  have hlength : headers_only.length = 224 := by decide +kernel
  let o : opened_ref_t :=
    { pe, file := headers_only, base := pe.image_base, eng.decode _ _ := none, placed := by rintro va buf insn ⟨⟩
      parsed := hok, based := rfl, sized := by omega }
  have hread : memory_read o 0x401000 1 = some ⟨0x70000000, 1⟩ := by
    change Option.map _ (pe.va_to_offset 0x401000) = _
    change (pe.va_to_offset 0x401000).map (fun off => span_t.mk off (min 1 (Word.sub64 headers_only.length off))) = _
    have hleft : min 1 (Word.sub64 224 0x70000000) = 1 := by decide
    rw [hoff, hlength, Option.map_some, hleft]
  have hin : 0x70000000 + 0 < headers_only.length := (hfaithful o hpe 0x401000 1 _ hread 0 Nat.one_pos).1
  omega

end mcp

end slop.core
