import ReverseSlop.Core.Analysis.Imgpatch.Unpacking
import ReverseSlop.Core.Disasm.Backing
import ReverseSlop.Core.Disasm.PeParse

namespace slop.core.analysis.imgpatch

open disasm disasm.binary_state

/-- The section table, at the base of the session. -/
def view (bin : binary_t) : pe_image_t := { bin.pe with ok := true, image_base := bin.base }

/-- The bytes at some addresses are now those of a function, which are all there, and nothing else has changed. -/
structure WritesAt (bin bin' : binary_t) (va : UInt64) (n : Nat) (val : Nat → Option UInt8) : Prop where
  read : ∀ i < n, (val i).isSome ∧ byte_at bin' (va + UInt64.ofNat i) = val i
  frame : ∀ j, bin'.file[j]? ≠ bin.file[j]? → ∃ i < n, bin.offset_of (va + UInt64.ofNat i) = some j

/-- The byte that the one at `va + i` is decrypted with, where a byte is what the image has at an address. -/
def va_key_byte (bin : binary_t) (va : UInt64) (method : String) (key : List UInt8) (i : Nat) : UInt8 :=
  if method = "xor_rolling" then (if i = 0 then key.headD 0 else (byte_at bin (va + UInt64.ofNat (i - 1))).getD 0)
  else key.getD (i % key.length) 0

/-- The key of a call of `unpack_xor` that succeeds. -/
def call_key (bin : binary_t) (va : UInt64) (size : Nat) (method key_hex : String) : List UInt8 :=
  used_key ((bin.file.drop ((bin.offset_of va).getD 0)).take size) method key_hex

def WriteLaw (bin : binary_t) (va : UInt64) (bytes : List UInt8) : Prop :=
  (write_bytes bin va bytes).1.ok = true → WritesAt bin (write_bytes bin va bytes).2 va bytes.length fun i => bytes[i]?

def UnpackLaw (bin : binary_t) (va : UInt64) (size : Nat) (method key_hex : String) : Prop :=
  (unpack_xor bin va size method key_hex).1.ok = true →
    WritesAt bin (unpack_xor bin va size method key_hex).2 va size fun i =>
      (byte_at bin (va + UInt64.ofNat i)).map (· ^^^ va_key_byte bin va method (call_key bin va size method key_hex) i)

/-- If the first byte of a range has an offset, and the file is long enough there, the range is on one run. -/
def OnOneRun (bin : binary_t) (va : UInt64) (n : Nat) : Prop :=
  ∀ off, bin.offset_of va = some off → off + n ≤ bin.file.length → (view bin).OneRun va n

variable {bin bin' : binary_t} {va : UInt64} {off n : Nat}

theorem offset_of_eq (hready : bin.ready = true) (va : UInt64) : bin.offset_of va = (view bin).va_to_offset va := by
  simp only [binary_t.offset_of, pe_image_t.va_to_offset, view, hready, Bool.not_true, Bool.false_or, Bool.or_eq_true,
    decide_eq_true_eq]
  rfl

theorem ready_of_offset (hva : bin.offset_of va = some off) : bin.ready = true := by
  by_contra hnot
  rw [binary_t.offset_of, eq_false_of_ne_true hnot] at hva
  cases hva

/-- The offsets of a range are those of a run exactly if the range is on one run. -/
theorem consecutive_offsets_iff (hva : bin.offset_of va = some off) :
    (∀ i < n, bin.offset_of (va + UInt64.ofNat i) = some (off + i)) ↔ (view bin).OneRun va n := by
  have hready := ready_of_offset hva
  rw [offset_of_eq hready] at hva
  obtain ⟨hbase, hlt, hfirst⟩ := va_to_offset_spec hva
  simp only [offset_of_eq hready]
  rcases Nat.eq_zero_or_pos n with rfl | hpos
  · refine iff_of_true (fun i hi => absurd hi (Nat.not_lt_zero i)) ⟨?_, ?_, fun i hi => absurd hi (Nat.not_lt_zero i)⟩
    · have hword := va.toNat_lt
      omega
    · omega
  · exact consecutive_iff rfl hbase hfirst hpos

/-- A region of the file that has been rewritten. -/
structure Rewritten (bin bin' : binary_t) (off n : Nat) (val : Nat → UInt8 → UInt8) : Prop where
  header : SameHeader bin bin'
  file : ∀ j, bin'.file[j]? = if off ≤ j ∧ j < off + n then bin.file[j]?.map (val (j - off)) else bin.file[j]?

theorem Rewritten.writesAt {val : Nat → UInt8 → UInt8} (h : Rewritten bin bin' off n val) (hva : bin.offset_of va = some off)
    (hin : off + n ≤ bin.file.length) (hrun : (view bin).OneRun va n) :
    WritesAt bin bin' va n fun i => (byte_at bin (va + UInt64.ofNat i)).map (val i) := by
  have hoffset := (consecutive_offsets_iff hva).mpr hrun
  constructor
  · intro i hi
    have hlt : off + i < bin.file.length := by omega
    rw [byte_at, byte_at, h.header.offset_of, hoffset i hi, Option.bind_some, Option.bind_some, h.file, if_pos (by omega),
      Nat.add_sub_cancel_left, List.getElem?_eq_getElem hlt]
    exact ⟨rfl, rfl⟩
  · intro j hj
    have hregion : off ≤ j ∧ j < off + n := by
      by_contra hnot
      exact hj ((h.file j).trans (if_neg hnot))
    obtain ⟨i, rfl⟩ := Nat.exists_eq_add_of_le hregion.1
    exact ⟨i, by omega, hoffset i (by omega)⟩

/-- What is read after a rewrite is a byte of the region, or one that was there before. -/
theorem Rewritten.read {val : Nat → UInt8 → UInt8} (h : Rewritten bin bin' off n val) {va : UInt64} {c : UInt8}
    (hread : byte_at bin' va = some c) :
    ∃ o b, bin.offset_of va = some o ∧ bin.file[o]? = some b ∧ ((∃ k < n, o = off + k ∧ c = val k b) ∨
      (¬ (off ≤ o ∧ o < off + n) ∧ c = b)) := by
  rw [byte_at, h.header.offset_of] at hread
  obtain ⟨o, ho, hread⟩ := Option.bind_eq_some_iff.mp hread
  rw [h.file] at hread
  split at hread
  · rename_i hregion
    obtain ⟨k, rfl⟩ := Nat.exists_eq_add_of_le hregion.1
    obtain ⟨b, hb, rfl⟩ := Option.map_eq_some_iff.mp hread
    exact ⟨_, b, ho, hb, Or.inl ⟨k, by omega, rfl, by rw [Nat.add_sub_cancel_left]⟩⟩
  · exact ⟨o, c, ho, hread, Or.inr ⟨‹_›, rfl⟩⟩

theorem write_bytes_rewritten {bytes : List UInt8} (hva : bin.offset_of va = some off) (hin : off + bytes.length ≤ bin.file.length) :
    (write_bytes bin va bytes).1.ok = true ∧
      Rewritten bin (write_bytes bin va bytes).2 off bytes.length fun i _ => bytes.getD i 0 := by
  obtain ⟨off', hva', -, hok, -, himage⟩ | ⟨hfailed, -⟩ := write_bytes_spec bin va bytes
  · obtain rfl := Option.some.inj (hva'.symm.trans hva)
    refine ⟨hok, ?_, fun j => ?_⟩
    · rw [himage]
      obtain ⟨hready, hbase, hpe⟩ :=
        @rewrite_region_sameHeader (quiesce bin) va off' bytes.length fun i _ => bytes.getD i 0
      exact ⟨hready, hbase, hpe⟩
    · rw [himage]
      exact rewrite_region_file
  · rw [write_bytes, hva, Option.filter_some, if_pos (decide_eq_true hin)] at hfailed
    cases hfailed

theorem Unpacks.rewritten {size : Nat} {method : String} {key : List UInt8} {out : op_result_t × binary_t}
    (h : Unpacks bin va off size method key out) :
    Rewritten bin out.2 off size fun i cur => cur ^^^ key_byte method key bin.file off i := by
  refine ⟨h.sameHeader, fun j => ?_⟩
  rw [h.image]
  exact rewrite_region_file

/-- One byte of one, and zeros. -/
def unit (n i : Nat) : List UInt8 := (List.replicate n 0).set i 1

theorem length_unit (n i : Nat) : (unit n i).length = n := by
  rw [unit, List.length_set, List.length_replicate]

theorem unit_getD {i k : Nat} (hi : i < n) : (unit n i).getD k 0 = if k = i then 1 else 0 := by
  rw [unit, List.getD_eq_getElem?_getD]
  split
  · rename_i heq
    rw [heq, List.getElem?_set_self (by rwa [List.length_replicate]), Option.getD_some]
  · rename_i hne
    rw [List.getElem?_set_ne (Ne.symm hne), List.getElem?_replicate]
    split <;> rfl

/-- Writes are at their addresses, whatever is written, exactly if the range is on one run. -/
theorem writeLaw_iff (bin : binary_t) (va : UInt64) (n : Nat) :
    (∀ bytes, bytes.length = n → WriteLaw bin va bytes) ↔ OnOneRun bin va n := by
  constructor
  · intro hlaw off hva hin
    refine (consecutive_offsets_iff hva).mp fun i hi => ?_
    have hwrite : ∀ bytes : List UInt8, bytes.length = n → ∃ o b, bin.offset_of (va + UInt64.ofNat i) = some o ∧
        bin.file[o]? = some b ∧ ((∃ k < n, o = off + k ∧ bytes.getD i 0 = bytes.getD k 0) ∨
          (¬ (off ≤ o ∧ o < off + n) ∧ bytes.getD i 0 = b)) := by
      rintro bytes rfl
      obtain ⟨hok, hrewritten⟩ := write_bytes_rewritten hva hin
      have hread := ((hlaw bytes rfl hok).read i hi).2
      rw [List.getElem?_eq_getElem hi] at hread
      have hget : bytes.getD i 0 = bytes[i] := by rw [List.getD_eq_getElem?_getD, List.getElem?_eq_getElem hi, Option.getD_some]
      rw [hget]
      exact hrewritten.read hread
    obtain ⟨o, b, ho, hb, hone⟩ := hwrite (unit n i) (length_unit n i)
    obtain ⟨o', b', ho', hb', hzero⟩ := hwrite (List.replicate n 0) List.length_replicate
    obtain rfl := Option.some.inj (ho'.symm.trans ho)
    obtain rfl := Option.some.inj (hb'.symm.trans hb)
    have hzeros : ∀ k, (List.replicate n (0 : UInt8)).getD k 0 = 0 := fun k => by
      rw [List.getD_eq_getElem?_getD, List.getElem?_replicate]
      split <;> rfl
    rw [unit_getD hi, if_pos rfl] at hone
    rcases hone with ⟨k, hk, rfl, hsame⟩ | ⟨hout, rfl⟩
    · rw [unit_getD hi] at hsame
      split at hsame
      · rename_i heq
        rw [ho, heq]
      · exact absurd hsame (by decide)
    · rw [hzeros] at hzero
      rcases hzero with ⟨k, hk, rfl, -⟩ | ⟨-, hsame⟩
      · exact absurd ⟨Nat.le_add_right _ _, by omega⟩ hout
      · exact absurd hsame (by decide)
  · rintro hrun bytes rfl hok
    obtain ⟨off, hva, hin, -⟩ | ⟨hfailed, -⟩ := write_bytes_spec bin va bytes
    · obtain ⟨-, hrewritten⟩ := write_bytes_rewritten hva hin
      obtain ⟨hread, hframe⟩ := hrewritten.writesAt hva hin (hrun off hva hin)
      refine ⟨fun i hi => ?_, hframe⟩
      obtain ⟨hsome, hbyte⟩ := hread i hi
      obtain ⟨b, hb⟩ := Option.isSome_iff_exists.mp hsome
      obtain ⟨old, -, hold⟩ := Option.map_eq_some_iff.mp hb
      have hget : bytes[i]? = some b := by
        rw [← hold, List.getD_eq_getElem?_getD, List.getElem?_eq_getElem hi, Option.getD_some]
      rw [hget]
      exact ⟨rfl, hbyte.trans hb⟩
    · rw [hok] at hfailed
      cases hfailed

def hex_char (d : Nat) : Char := if d < 10 then Char.ofNat (48 + d) else Char.ofNat (87 + d)

/-- The hex text of a key. -/
def hex_text (key : List UInt8) : String := String.ofList (key.flatMap fun b => [hex_char (b.toNat / 16), hex_char (b.toNat % 16)])

theorem hex_digit_hex_char : ∀ d : Fin 16, hex_digit (hex_char d) = some d.val.toUInt8 := by decide

theorem parse_key_hex_text (key : List UInt8) : parse_key (hex_text key) = key := by
  have hdigits : (hex_text key).toList.filterMap hex_digit =
      key.flatMap fun b => [(b.toNat / 16).toUInt8, (b.toNat % 16).toUInt8] := by
    rw [hex_text, String.toList_ofList]
    induction key with
    | nil => rfl
    | cons b key ih =>
      have hb := b.toNat_lt
      have hhigh := hex_digit_hex_char ⟨b.toNat / 16, by omega⟩
      have hlow := hex_digit_hex_char ⟨b.toNat % 16, by omega⟩
      rw [List.flatMap_cons, List.filterMap_append, ih, List.flatMap_cons]
      simp only [List.filterMap_cons, hhigh, hlow, List.filterMap_nil]
  have heven : ∀ l : List UInt8, (l.flatMap fun b => [(b.toNat / 16).toUInt8, (b.toNat % 16).toUInt8]).length = 2 * l.length := by
    intro l
    induction l with
    | nil => rfl
    | cons b l ih =>
      rw [List.flatMap_cons, List.length_append, ih, List.length_cons]
      simp only [List.length_cons, List.length_nil]
      omega
  simp only [parse_key, hdigits, heven, Nat.mul_mod_right, if_true]
  clear hdigits
  induction key with
  | nil => rfl
  | cons b key ih =>
    have hb := b.toNat_lt
    have hbyte : (b.toNat / 16).toUInt8 * 16 + (b.toNat % 16).toUInt8 = b := by
      apply UInt8.toNat_inj.mp
      simp only [UInt8.toNat_add, UInt8.toNat_mul, Nat.toUInt8_eq, UInt8.toNat_ofNat', UInt8.reduceToNat]
      omega
    rw [List.flatMap_cons, List.cons_append, List.cons_append, List.nil_append, pair_digits, hbyte, ih]

theorem unpackLaw_of_oneRun {size : Nat} {method key_hex : String} (hrun : OnOneRun bin va size) :
    UnpackLaw bin va size method key_hex := by
  intro hok
  obtain ⟨off, hdecryptable, hunpacks⟩ | ⟨-, hfailed, -⟩ := unpack_xor_spec bin va size method key_hex
  · have hva := hdecryptable.offset
    have hin := hdecryptable.inside
    have hrun := hrun off hva hin
    have hoffset := (consecutive_offsets_iff hva).mpr hrun
    obtain ⟨hread, hframe⟩ := hunpacks.rewritten.writesAt hva hin hrun
    refine ⟨fun i hi => ?_, hframe⟩
    have hkey : va_key_byte bin va method (call_key bin va size method key_hex) i =
        key_byte method (used_key ((bin.file.drop off).take size) method key_hex) bin.file off i := by
      rw [va_key_byte, key_byte, call_key, hva, Option.getD_some]
      by_cases hrolling : method = "xor_rolling"
      · rw [if_pos hrolling, if_pos hrolling]
        by_cases hzero : i = 0
        · rw [if_pos hzero, if_pos hzero]
        · rw [if_neg hzero, if_neg hzero, byte_at, hoffset _ (by omega), Option.bind_some, List.getD_eq_getElem?_getD,
            Nat.add_sub_assoc (by omega)]
      · rw [if_neg hrolling, if_neg hrolling]
    rw [hkey]
    exact hread i hi
  · rw [hok] at hfailed
    cases hfailed

theorem unpackLaw_iff (bin : binary_t) (va : UInt64) (size : Nat) :
    (∀ method key_hex, UnpackLaw bin va size method key_hex) ↔ (0 < size ∧ size ≤ kMaxRegion → OnOneRun bin va size) := by
  constructor
  · intro hlaw hsize off hva hin
    refine (consecutive_offsets_iff hva).mp fun i hi => ?_
    have hused : ∀ data, used_key data "xor_multi" (hex_text (unit size i)) = unit size i := fun data =>
      (if_neg (by decide)).trans (parse_key_hex_text _)
    have hne : unit size i ≠ [] := by
      rw [← List.length_pos_iff, length_unit]
      exact hsize.1
    have hdecryptable : Decryptable bin va off size "xor_multi" (hex_text (unit size i)) :=
      ⟨hva, hin, hsize, rfl, by rwa [hused]⟩
    have hunpacks := hdecryptable.unpacks
    obtain ⟨hsome, hread⟩ := (hlaw _ _ hunpacks.ok).read i hi
    obtain ⟨c, hc⟩ := Option.isSome_iff_exists.mp hsome
    obtain ⟨b, hb, rfl⟩ := Option.map_eq_some_iff.mp hc
    have hflip : ∀ b : UInt8, b ^^^ 1 ≠ b := fun b hsame => by
      have hone := congrArg (b ^^^ ·) hsame
      rw [← UInt8.xor_assoc, UInt8.xor_self, UInt8.zero_xor] at hone
      exact absurd hone (by decide)
    obtain ⟨o, b', ho, hb', hkind⟩ := hunpacks.rewritten.read (hread.trans hc)
    rw [byte_at, ho, Option.bind_some, hb'] at hb
    obtain rfl := Option.some.inj hb
    simp only [va_key_byte, key_byte, call_key, hused, length_unit, if_neg (show ¬ "xor_multi" = "xor_rolling" by decide),
      Nat.mod_eq_of_lt hi, unit_getD hi, if_true] at hkind
    rcases hkind with ⟨k, hk, rfl, hsame⟩ | ⟨-, hsame⟩
    · rw [Nat.mod_eq_of_lt hk] at hsame
      split at hsame
      · rename_i heq
        rw [ho, heq]
      · rw [UInt8.xor_zero] at hsame
        exact absurd hsame (hflip _)
    · exact absurd hsame (hflip _)
  · intro hrun method key_hex hok
    refine unpackLaw_of_oneRun (hrun ?_) hok
    obtain ⟨off, hdecryptable, -⟩ | ⟨-, hfailed, -⟩ := unpack_xor_spec bin va size method key_hex
    · exact hdecryptable.sized
    · rw [hok] at hfailed
      cases hfailed

/-- What is written at addresses is read from them, whatever is written or decrypted there, exactly if the range is on
one run of the section table. -/
theorem writes_at_addresses_iff (bin : binary_t) (va : UInt64) (n : Nat) :
    ((∀ bytes, bytes.length = n → WriteLaw bin va bytes) ↔ OnOneRun bin va n) ∧
      ((∀ method key_hex, UnpackLaw bin va n method key_hex) ↔ (0 < n ∧ n ≤ kMaxRegion → OnOneRun bin va n)) :=
  ⟨writeLaw_iff bin va n, unpackLaw_iff bin va n⟩

/-- A file of headers, with a section at the second page. -/
def page_file : List UInt8 :=
  [0x4D, 0x5A] ++ List.replicate 58 0 ++ [0x40, 0, 0, 0] ++ [0x50, 0x45, 0, 0, 0x4C, 1, 1, 0] ++ List.replicate 12 0 ++
    [96, 0, 0, 0] ++ [0x0B, 1] ++ List.replicate 26 0 ++ [0, 0, 0x40, 0] ++ List.replicate 64 0 ++ List.replicate 8 0 ++
    [0, 2, 0, 0, 0, 0x10, 0, 0, 0, 2, 0, 0, 0, 4, 0, 0] ++ List.replicate 1328 0

/-- Two bytes are written at the end of the headers. The second is behind what the section table gives an offset. -/
theorem write_leaves_headers : ¬ ∀ (bin : binary_t) (va : UInt64), pe_parse bin.file = some bin.pe → bin.ready = true →
    bin.base = bin.pe.image_base →
    (∀ bytes, WriteLaw bin va bytes) ∧ ∀ size method key_hex, UnpackLaw bin va size method key_hex := by
  intro hlaws
  have hparse : (pe_parse page_file).map (fun pe => (pe.image_base, pe.rva_to_offset 0x3FF, pe.rva_to_offset 0x400)) =
      some (0x400000, some 0x3FF, none) := by
    decide +kernel
  obtain ⟨pe, hpe, hfields⟩ := Option.map_eq_some_iff.mp hparse
  obtain ⟨hbase, hfields⟩ := Prod.mk.inj hfields
  obtain ⟨hin, hout⟩ := Prod.mk.inj hfields
  have hlength : page_file.length = 1536 := by decide +kernel
  let bin : binary_t := { ready := true, file := page_file, pe, base := 0x400000, eng := ⟨fun _ _ => none⟩ }
  have hoffsets : ∀ bin : binary_t, bin.ready = true → bin.base = 0x400000 →
      bin.offset_of 0x4003FF = bin.pe.rva_to_offset 0x3FF ∧ bin.offset_of 0x400400 = bin.pe.rva_to_offset 0x400 := by
    intro bin hready hbase
    rw [binary_t.offset_of, binary_t.offset_of, hready, hbase]
    exact ⟨if_neg (by decide), if_neg (by decide)⟩
  have hoffset := hoffsets bin rfl rfl
  rw [hin, hout] at hoffset
  have hrun := (writeLaw_iff bin 0x4003FF 2).mp (fun bytes _ => (hlaws bin 0x4003FF hpe rfl hbase.symm).1 bytes) 0x3FF hoffset.1
    (by change 0x3FF + 2 ≤ page_file.length; omega)
  have hsecond := (consecutive_offsets_iff hoffset.1).mpr hrun 1 (by omega)
  exact absurd (hoffset.2.symm.trans hsecond) (by simp)

end slop.core.analysis.imgpatch
