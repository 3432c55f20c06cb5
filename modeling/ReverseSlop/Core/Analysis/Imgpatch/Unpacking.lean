import ReverseSlop.Core.Analysis.Imgpatch.Regions

namespace slop.core.analysis.imgpatch

open disasm disasm.binary_state

/-- Encrypt each byte with the encrypted one before it. -/
def encode (prev : UInt8) : List UInt8 → List UInt8
  | [] => []
  | p :: plain => (p ^^^ prev) :: encode (p ^^^ prev) plain

variable {bin : binary_t} {va : UInt64} {off0 size : Nat} {method key_hex : String} {key : List UInt8}

theorem length_encode (prev : UInt8) (plain : List UInt8) : (encode prev plain).length = plain.length := by
  induction plain generalizing prev with
  | nil => rfl
  | cons p plain ih => rw [encode, List.length_cons, List.length_cons, ih]

theorem encode_getElem? (prev : UInt8) (plain : List UInt8) (i : Nat) :
    (encode prev plain)[i]? = plain[i]?.map (· ^^^ if i = 0 then prev else (encode prev plain).getD (i - 1) 0) := by
  induction plain generalizing prev i with
  | nil => rfl
  | cons p plain ih =>
    cases i with
    | zero => rfl
    | succ i =>
      rw [encode, List.getElem?_cons_succ, List.getElem?_cons_succ, ih, if_neg (Nat.succ_ne_zero i), Nat.add_sub_cancel]
      cases i with
      | zero => rfl
      | succ i => rfl

variable {out : op_result_t × binary_t}

/-- The region after a decryption. -/
theorem Unpacks.region (h : Unpacks bin va off0 size method key out)
    (hin : off0 + size ≤ bin.file.length) {i : Nat} (hi : i < size) :
    out.2.file[off0 + i]? = some (bin.file.getD (off0 + i) 0 ^^^ key_byte method key bin.file off0 i) := by
  have hlt : off0 + i < bin.file.length := by omega
  rw [h.image]
  change (rewrite_region ..).file[off0 + i]? = _
  rw [rewrite_region_file, if_pos (by omega), Nat.add_sub_cancel_left, List.getD_eq_getElem?_getD, List.getElem?_eq_getElem hlt]
  rfl

theorem Unpacks.outside (h : Unpacks bin va off0 size method key out) {j : Nat}
    (hj : ¬ (off0 ≤ j ∧ j < off0 + size)) : out.2.file[j]? = bin.file[j]? := by
  rw [h.image]
  change (rewrite_region ..).file[j]? = _
  rw [rewrite_region_file, if_neg hj]

theorem Unpacks.length_file (h : Unpacks bin va off0 size method key out) :
    out.2.file.length = bin.file.length := by
  rw [h.image]
  exact length_rewrite_region

theorem Unpacks.sameHeader (h : Unpacks bin va off0 size method key out) :
    SameHeader bin out.2 := by
  rw [h.image]
  exact SameHeader.trans rewrite_region_sameHeader ⟨rfl, rfl, rfl⟩

/-- The call succeeds where the region can be decrypted. -/
theorem Decryptable.unpacks (h : Decryptable bin va off0 size method key_hex) :
    Unpacks bin va off0 size method (used_key ((bin.file.drop off0).take size) method key_hex)
      (unpack_xor bin va size method key_hex) := by
  obtain ⟨off, hoff, hunpacks⟩ | ⟨hnone, -⟩ := unpack_xor_spec bin va size method key_hex
  · obtain rfl := Option.some.inj (hoff.offset.symm.trans h.offset)
    exact hunpacks
  · exact absurd h (hnone off0)

/-- A repeated key inverts itself. -/
theorem unpack_twice (hmethod : method = "xor_multi" ∨ method = "xor_single") (hva : bin.offset_of va = some off0)
    (hin : off0 + size ≤ bin.file.length) (hsize : 0 < size ∧ size ≤ kMaxRegion) (hkey : parse_key key_hex ≠ []) :
    (unpack_xor bin va size method key_hex).1.ok = true ∧
      (unpack_xor (unpack_xor bin va size method key_hex).2 va size method key_hex).1.ok = true ∧
      (unpack_xor (unpack_xor bin va size method key_hex).2 va size method key_hex).2.file = bin.file := by
  have hplain : method ≠ "auto" ∧ method ≠ "xor_rolling" ∧ known_method method = true := by
    rcases hmethod with rfl | rfl <;> decide
  have hused : ∀ data, used_key data method key_hex = parse_key key_hex := fun data => if_neg hplain.1
  have hfirst := Decryptable.unpacks ⟨hva, hin, hsize, hplain.2.2, by rwa [hused]⟩
  rw [hused] at hfirst
  have hagain : Decryptable (unpack_xor bin va size method key_hex).2 va off0 size method key_hex :=
    ⟨by rwa [hfirst.sameHeader.offset_of], by rwa [hfirst.length_file], hsize, hplain.2.2, by rwa [hused]⟩
  have hsecond := hagain.unpacks
  rw [hused] at hsecond
  refine ⟨hfirst.ok, hsecond.ok, List.ext_getElem? fun j => ?_⟩
  by_cases hj : off0 ≤ j ∧ j < off0 + size
  · obtain ⟨i, rfl⟩ := Nat.exists_eq_add_of_le hj.1
    have hlt : off0 + i < bin.file.length := by omega
    rw [hsecond.region (by rwa [hfirst.length_file]) (by omega), List.getD_eq_getElem?_getD, hfirst.region hin (by omega),
      Option.getD_some, List.getD_eq_getElem?_getD, List.getElem?_eq_getElem hlt, Option.getD_some, key_byte, if_neg hplain.2.1,
      key_byte, if_neg hplain.2.1, UInt8.xor_assoc, UInt8.xor_self, UInt8.xor_zero]
  · rw [hsecond.outside hj, hfirst.outside hj]

/-- The rolling key decrypts what has been encrypted with it. -/
theorem unpack_rolling {seed : UInt8} {plain : List UInt8} (hva : bin.offset_of va = some off0)
    (hin : off0 + size ≤ bin.file.length) (hsize : 0 < size ∧ size ≤ kMaxRegion) (hkey : (parse_key key_hex).head? = some seed)
    (hregion : (bin.file.drop off0).take size = encode seed plain) :
    (unpack_xor bin va size "xor_rolling" key_hex).1.ok = true ∧
      ((unpack_xor bin va size "xor_rolling" key_hex).2.file.drop off0).take size = plain := by
  have hused : ∀ data, used_key data "xor_rolling" key_hex = parse_key key_hex := fun data => if_neg (by decide)
  have hne : parse_key key_hex ≠ [] := by
    intro hnil
    rw [hnil] at hkey
    cases hkey
  have hdecryptable : Decryptable bin va off0 size "xor_rolling" key_hex := ⟨hva, hin, hsize, by decide, by rwa [hused]⟩
  have hunpacks := hdecryptable.unpacks
  rw [hused] at hunpacks
  have hhead : (parse_key key_hex).headD 0 = seed := by
    rw [List.headD_eq_head?_getD, hkey, Option.getD_some]
  have hlength : plain.length = size := by
    rw [← length_encode seed, ← hregion, List.length_take, List.length_drop]
    omega
  have hcipher : ∀ i < size, bin.file[off0 + i]? = (encode seed plain)[i]? := fun i hi => by
    rw [← hregion, List.getElem?_take_of_lt hi, List.getElem?_drop]
  refine ⟨hunpacks.ok, List.ext_getElem? fun i => ?_⟩
  by_cases hi : i < size
  · have hprev : key_byte "xor_rolling" (parse_key key_hex) bin.file off0 i =
        if i = 0 then seed else (encode seed plain).getD (i - 1) 0 := by
      rw [key_byte, if_pos rfl, hhead]
      split
      · rfl
      · rw [List.getD_eq_getElem?_getD, Nat.add_sub_assoc (by omega), hcipher _ (by omega), List.getD_eq_getElem?_getD]
    have hplain : i < plain.length := by omega
    rw [List.getElem?_take_of_lt hi, List.getElem?_drop, hunpacks.region hin hi, hprev, List.getD_eq_getElem?_getD, hcipher i hi,
      encode_getElem?, List.getElem?_eq_getElem hplain, Option.map_some, Option.getD_some, UInt8.xor_assoc, UInt8.xor_self,
      UInt8.xor_zero]
  · rw [List.getElem?_eq_none (by rw [List.length_take]; omega), List.getElem?_eq_none (by omega)]

/-- Up to the largest region, a repeated key inverts itself and the rolling key inverts its encryption. -/
theorem unpack_xor_inverts (bin : binary_t) (va : UInt64) (off0 size : Nat) (key_hex : String)
    (hva : bin.offset_of va = some off0) (hin : off0 + size ≤ bin.file.length) (hsize : 0 < size ∧ size ≤ kMaxRegion) :
    (∀ method, method = "xor_multi" ∨ method = "xor_single" → parse_key key_hex ≠ [] →
      (unpack_xor bin va size method key_hex).1.ok = true ∧
        (unpack_xor (unpack_xor bin va size method key_hex).2 va size method key_hex).1.ok = true ∧
        (unpack_xor (unpack_xor bin va size method key_hex).2 va size method key_hex).2.file = bin.file) ∧
    ∀ seed plain, (parse_key key_hex).head? = some seed → (bin.file.drop off0).take size = encode seed plain →
      (unpack_xor bin va size "xor_rolling" key_hex).1.ok = true ∧
        ((unpack_xor bin va size "xor_rolling" key_hex).2.file.drop off0).take size = plain :=
  ⟨fun _ hmethod hkey => unpack_twice hmethod hva hin hsize hkey,
    fun _ _ hkey hregion => unpack_rolling hva hin hsize hkey hregion⟩

theorem sample_inverts :
    (unpack_xor sample_image 0x400000 2 "xor_multi" "5A").1.ok = true ∧
      (unpack_xor (unpack_xor sample_image 0x400000 2 "xor_multi" "5A").2 0x400000 2 "xor_multi" "5A").1.ok = true ∧
      (unpack_xor (unpack_xor sample_image 0x400000 2 "xor_multi" "5A").2 0x400000 2 "xor_multi" "5A").2.file = sample_file := by
  refine (unpack_xor_inverts sample_image 0x400000 0 2 "5A" (by decide) ?_ (by decide)).1 _ (Or.inl rfl) (by decide)
  rw [sample_image, sample_file, List.length_replicate]
  decide

/-- An image with a section of one byte more than the largest region. -/
def large_image : binary_t :=
  { ready := true, file := List.replicate (kMaxRegion + 1) 1, base := 0x400000, eng := ⟨fun _ _ => none⟩
    pe := { sections := [{ rva := 0x1000, virtual_size := 0x400001, raw_offset := 0, raw_size := 0x400001 }] } }

theorem encode_zeros (prev : UInt8) (n : Nat) : encode prev (List.replicate n 0) = List.replicate n prev := by
  induction n with
  | zero => rfl
  | succ n ih => rw [List.replicate_succ, encode, UInt8.zero_xor, ih, ← List.replicate_succ]

/-- The section is refused for its size. -/
theorem large_not_inverted : ¬ ∀ (bin : binary_t) (va : UInt64) (off0 size : Nat) (key_hex : String),
    bin.offset_of va = some off0 → off0 + size ≤ bin.file.length → 0 < size →
    (∀ method, method = "xor_multi" ∨ method = "xor_single" → parse_key key_hex ≠ [] →
      (unpack_xor (unpack_xor bin va size method key_hex).2 va size method key_hex).2.file = bin.file) ∧
    ∀ seed plain, (parse_key key_hex).head? = some seed → (bin.file.drop off0).take size = encode seed plain →
      ((unpack_xor bin va size "xor_rolling" key_hex).2.file.drop off0).take size = plain := by
  intro hinverts
  have hlength : large_image.file.length = kMaxRegion + 1 := List.length_replicate
  have hregion := (hinverts large_image 0x401000 0 (kMaxRegion + 1) "01" (by decide)
    (Nat.le_of_eq ((Nat.zero_add _).trans hlength.symm)) (Nat.succ_pos _)).2 1 (List.replicate (kMaxRegion + 1) 0) (by decide) ?_
  · have hrefused : (unpack_xor large_image 0x401000 (kMaxRegion + 1) "xor_rolling" "01").2 = large_image := by
      rw [unpack_xor, if_pos (by simp)]
    rw [hrefused, List.drop_zero, List.take_of_length_le (Nat.le_of_eq hlength)] at hregion
    have hfirst : some (1 : UInt8) = some 0 := congrArg List.head? hregion
    exact absurd hfirst (by decide)
  · rw [encode_zeros, List.drop_zero, List.take_of_length_le (Nat.le_of_eq hlength)]
    rfl

end slop.core.analysis.imgpatch
