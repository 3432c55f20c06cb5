import Mathlib.Data.List.Induction
import ReverseSlop.Core.Analysis.Imgpatch.Code
import ReverseSlop.Core.Analysis.Imgpatch.Quiescence

namespace slop.core.analysis.imgpatch

open disasm disasm.binary_state

/-- A number of records has been appended to the journal. -/
def Appends (bin bin' : binary_t) (n : Nat) : Prop := ∃ recs, bin'.patches = bin.patches ++ recs ∧ recs.length = n

theorem Appends.refl (bin : binary_t) : Appends bin bin 0 := ⟨[], (List.append_nil _).symm, rfl⟩

theorem Appends.trans {bin bin' bin'' : binary_t} {m n : Nat} (h : Appends bin bin' m) (h' : Appends bin' bin'' n) :
    Appends bin bin'' (m + n) := by
  obtain ⟨recs, hrecs, rfl⟩ := h
  obtain ⟨recs', hrecs', rfl⟩ := h'
  exact ⟨recs ++ recs', by rw [hrecs', hrecs, List.append_assoc], List.length_append⟩

theorem Appends.unique {bin bin' : binary_t} {m n : Nat} (h : Appends bin bin' m) : Appends bin bin' n ↔ n = m := by
  obtain ⟨recs, hrecs, hlength⟩ := h
  constructor
  · rintro ⟨recs', hrecs', hlength'⟩
    rw [← List.append_cancel_left (hrecs.symm.trans hrecs'), hlength] at hlength'
    exact hlength'.symm
  · rintro rfl
    exact ⟨recs, hrecs, hlength⟩

theorem journal_write_appends (bin : binary_t) (va : UInt64) (offset : Nat) (after : UInt8) :
    Appends bin (journal_write bin va offset after) 1 := ⟨_, rfl, rfl⟩

/-- Rewrite the bytes of a region one behind the other through the journal, each from its index and what it was. -/
def rewrite_region (bin : binary_t) (va : UInt64) (off0 size : Nat) (val : Nat → UInt8 → UInt8) : binary_t :=
  (List.range size).foldl
    (fun bin i => journal_write bin (va + UInt64.ofNat i) (off0 + i) (val i (bin.file.getD (off0 + i) 0))) bin

section

variable {bin : binary_t} {va : UInt64} {off0 size j : Nat} {val val' : Nat → UInt8 → UInt8}

theorem rewrite_region_succ :
    rewrite_region bin va off0 (size + 1) val =
      journal_write (rewrite_region bin va off0 size val) (va + UInt64.ofNat size) (off0 + size)
        (val size ((rewrite_region bin va off0 size val).file.getD (off0 + size) 0)) := by
  rw [rewrite_region, List.range_succ, List.foldl_append, List.foldl_cons, List.foldl_nil, ← rewrite_region]

theorem rewrite_region_sameHeader : SameHeader bin (rewrite_region bin va off0 size val) := by
  induction size with
  | zero => exact SameHeader.refl bin
  | succ size ih =>
    rw [rewrite_region_succ]
    exact ih.trans ⟨rfl, rfl, rfl⟩

theorem length_rewrite_region : (rewrite_region bin va off0 size val).file.length = bin.file.length := by
  induction size with
  | zero => rfl
  | succ size ih =>
    rw [rewrite_region_succ]
    exact (List.length_set ..).trans ih

theorem rewrite_region_file :
    (rewrite_region bin va off0 size val).file[j]? =
      if off0 ≤ j ∧ j < off0 + size then bin.file[j]?.map (val (j - off0)) else bin.file[j]? := by
  induction size with
  | zero => exact (if_neg (by omega)).symm
  | succ size ih =>
    rw [rewrite_region_succ]
    change ((rewrite_region bin va off0 size val).file.set (off0 + size) _)[j]? = _
    by_cases hj : j = off0 + size
    · subst hj
      rw [if_neg (by omega)] at ih
      rw [if_pos (by omega), List.getElem?_set_self', List.getD_eq_getElem?_getD, ih, Nat.add_sub_cancel_left]
      cases bin.file[off0 + size]? <;> rfl
    · rw [List.getElem?_set_ne (Ne.symm hj), ih]
      exact if_congr (by omega) rfl rfl

/-- There is one record for each byte. -/
theorem rewrite_region_appends : Appends bin (rewrite_region bin va off0 size val) size := by
  induction size with
  | zero => exact Appends.refl bin
  | succ size ih =>
    rw [rewrite_region_succ]
    exact ih.trans (journal_write_appends _ _ _ _)

end

/-- The byte that the `i`-th one of a region is decrypted with. -/
def key_byte (method : String) (key file : List UInt8) (off0 i : Nat) : UInt8 :=
  if method = "xor_rolling" then (if i = 0 then key.headD 0 else file.getD (off0 + i - 1) 0)
  else key.getD (i % key.length) 0

theorem xor_region_eq (bin : binary_t) (va : UInt64) (off0 size : Nat) (key : List UInt8) :
    xor_region bin va off0 size key = rewrite_region bin va off0 size fun i cur => cur ^^^ key.getD (i % key.length) 0 := rfl

/-- The byte behind the last one decrypted is still encrypted, and so is the one that it is decrypted with. -/
theorem xor_rolling_eq (bin : binary_t) (va : UInt64) (off0 size : Nat) (rolling : UInt8) :
    xor_rolling bin va off0 size rolling =
      (if size = 0 then rolling else bin.file.getD (off0 + size - 1) 0,
        rewrite_region bin va off0 size fun i cur => cur ^^^ if i = 0 then rolling else bin.file.getD (off0 + i - 1) 0) := by
  induction size with
  | zero => rfl
  | succ size ih =>
    have hstep : xor_rolling bin va off0 (size + 1) rolling =
        let before := xor_rolling bin va off0 size rolling
        let cur := before.2.file.getD (off0 + size) 0
        (cur, journal_write before.2 (va + UInt64.ofNat size) (off0 + size) (cur ^^^ before.1)) := by
      rw [xor_rolling, List.range_succ, List.foldl_append, List.foldl_cons, List.foldl_nil, ← xor_rolling]
    have hnext : (rewrite_region bin va off0 size fun i cur => cur ^^^ if i = 0 then rolling else bin.file.getD (off0 + i - 1) 0).file.getD
        (off0 + size) 0 = bin.file.getD (off0 + size) 0 := by
      rw [List.getD_eq_getElem?_getD, rewrite_region_file, if_neg (by omega), List.getD_eq_getElem?_getD]
    rw [hstep, ih, rewrite_region_succ]
    dsimp only
    rw [hnext, if_neg (Nat.succ_ne_zero size), ← Nat.add_assoc, Nat.add_sub_cancel]

theorem rewrite_region_congr {bin : binary_t} {va : UInt64} {off0 size : Nat} {val val' : Nat → UInt8 → UInt8}
    (hval : ∀ i < size, val i = val' i) : rewrite_region bin va off0 size val = rewrite_region bin va off0 size val' := by
  induction size with
  | zero => rfl
  | succ size ih =>
    rw [rewrite_region_succ, rewrite_region_succ, ih fun i hi => hval i (Nat.lt_succ_of_lt hi), hval size (Nat.lt_succ_self size)]

theorem journal_bytes_eq (bin : binary_t) (va : UInt64) (off : Nat) (bytes : List UInt8) :
    journal_bytes bin va off bytes = rewrite_region bin va off bytes.length fun i _ => bytes.getD i 0 := by
  induction bytes using List.reverseRecOn with
  | nil => rfl
  | append_singleton bytes byte ih =>
    have hstep : journal_bytes bin va off (bytes ++ [byte]) =
        journal_write (journal_bytes bin va off bytes) (va + UInt64.ofNat bytes.length) (off + bytes.length) byte := by
      rw [journal_bytes, List.zipIdx_append, List.foldl_append, Nat.zero_add]
      rfl
    have hinit : (rewrite_region bin va off bytes.length fun i _ => (bytes ++ [byte]).getD i 0) =
        rewrite_region bin va off bytes.length fun i _ => bytes.getD i 0 :=
      rewrite_region_congr fun i hi => by
        rw [List.getD_eq_getElem?_getD, List.getElem?_append_left hi, List.getD_eq_getElem?_getD]
    rw [hstep, ih, List.length_append, List.length_singleton, rewrite_region_succ, hinit, List.getD_eq_getElem?_getD,
      List.getElem?_concat_length, Option.getD_some]

/-- The key that is found in the data or given. -/
def used_key (data : List UInt8) (method key_hex : String) : List UInt8 :=
  if method = "auto" then
    match detect_key data with
    | .ok (key, _) => [key]
    | .error _ => []
  else parse_key key_hex

/-- What a decryption gives that is done. -/
structure Unpacks (bin : binary_t) (va : UInt64) (off0 size : Nat) (method : String) (key : List UInt8)
    (out : op_result_t × binary_t) : Prop where
  ok : out.1.ok = true
  count : out.1.bytes_changed = size
  image : out.2 = { rewrite_region bin va off0 size (fun i cur => cur ^^^ key_byte method key bin.file off0 i) with indexes_dirty := true }

theorem unpack_with_spec (bin : binary_t) (va : UInt64) (off0 size : Nat) (method : String) (key : List UInt8) {res : op_result_t}
    (hres : res.ok = false) :
    (Decrypts method key ∧ Unpacks bin va off0 size method key (unpack_with bin va off0 size method key res)) ∨
      (¬ Decrypts method key ∧ (unpack_with bin va off0 size method key res).1.ok = false ∧
        (unpack_with bin va off0 size method key res).2 = bin) := by
  rw [unpack_with.eq_def, Decrypts, known_method]
  cases key with
  | nil => exact Or.inr ⟨fun h => h.2 rfl, hres, rfl⟩
  | cons first rest =>
    have hkey : first :: rest ≠ [] := List.cons_ne_nil first rest
    dsimp only
    split
    · rename_i hmethod
      have hother : method ≠ "xor_rolling" := by
        rintro rfl
        exact absurd hmethod (by decide)
      refine Or.inl ⟨⟨by rw [hmethod, Bool.true_or], hkey⟩, rfl, rfl, ?_⟩
      simp only [xor_region_eq, key_byte, if_neg hother]
    rename_i hmethod
    split
    · rename_i hrolling
      refine Or.inl ⟨⟨by rw [eq_false_of_ne_true hmethod, Bool.false_or]; exact decide_eq_true hrolling, hkey⟩, rfl, rfl, ?_⟩
      simp only [xor_rolling_eq, key_byte, if_pos hrolling, List.headD_cons]
    · rename_i hrolling
      refine Or.inr ⟨fun h => ?_, hres, rfl⟩
      have hknown := h.1
      rw [eq_false_of_ne_true hmethod, Bool.false_or] at hknown
      exact hrolling (of_decide_eq_true hknown)

/-- The region, the key and the method are such that the region is decrypted. -/
structure Decryptable (bin : binary_t) (va : UInt64) (off0 size : Nat) (method key_hex : String) : Prop where
  offset : bin.offset_of va = some off0
  inside : off0 + size ≤ bin.file.length
  sized : 0 < size ∧ size ≤ kMaxRegion
  keyed : Decrypts method (used_key ((bin.file.drop off0).take size) method key_hex)

theorem unpack_xor_spec (bin : binary_t) (va : UInt64) (size : Nat) (method key_hex : String) :
    (∃ off0, Decryptable bin va off0 size method key_hex ∧
        Unpacks bin va off0 size method (used_key ((bin.file.drop off0).take size) method key_hex)
          (unpack_xor bin va size method key_hex)) ∨
      ((∀ off0, ¬ Decryptable bin va off0 size method key_hex) ∧ (unpack_xor bin va size method key_hex).1.ok = false ∧
        (unpack_xor bin va size method key_hex).2 = bin) := by
  rw [unpack_xor]
  by_cases hsize : 0 < size ∧ size ≤ kMaxRegion
  · have hlegal : ¬ (decide (size = 0) || decide (size > kMaxRegion)) = true := by
      simp only [Bool.or_eq_true, decide_eq_true_eq]
      omega
    rw [if_neg hlegal]
    cases hoff : (bin.offset_of va).filter fun off => off + size ≤ bin.file.length with
    | none =>
      refine Or.inr ⟨fun off0 h => ?_, rfl, rfl⟩
      rw [h.offset, Option.filter_some, if_pos (decide_eq_true h.inside)] at hoff
      cases hoff
    | some off0 =>
      obtain ⟨hva, hin⟩ := Option.filter_eq_some_iff.mp hoff
      have hin := of_decide_eq_true hin
      have honly : ∀ {off}, Decryptable bin va off size method key_hex → off = off0 := fun h =>
        Option.some.inj (h.offset.symm.trans hva)
      have hdecrypts : ∀ {res : op_result_t}, res.ok = false →
          (∃ off, Decryptable bin va off size method key_hex ∧
            Unpacks bin va off size method (used_key ((bin.file.drop off).take size) method key_hex)
              (unpack_with bin va off0 size method (used_key ((bin.file.drop off0).take size) method key_hex) res)) ∨
          ((∀ off, ¬ Decryptable bin va off size method key_hex) ∧
            (unpack_with bin va off0 size method (used_key ((bin.file.drop off0).take size) method key_hex) res).1.ok = false ∧
            (unpack_with bin va off0 size method (used_key ((bin.file.drop off0).take size) method key_hex) res).2 = bin) := by
        intro res hres
        obtain ⟨hkeyed, hunpacks⟩ | ⟨hkeyed, hfailed⟩ := unpack_with_spec bin va off0 size method
          (used_key ((bin.file.drop off0).take size) method key_hex) hres
        · exact Or.inl ⟨off0, ⟨hva, hin, hsize, hkeyed⟩, hunpacks⟩
        · exact Or.inr ⟨fun off h => hkeyed (honly h ▸ h.keyed), hfailed⟩
      dsimp only
      split
      · rename_i hauto
        cases hfound : detect_key ((bin.file.drop off0).take size) with
        | error error =>
          refine Or.inr ⟨fun off h => h.keyed.2 ?_, rfl, rfl⟩
          rw [honly h, used_key, if_pos hauto, hfound]
        | ok found =>
          have hkey : used_key ((bin.file.drop off0).take size) method key_hex = [found.1] := by
            rw [used_key, if_pos hauto, hfound]
          rw [hkey] at hdecrypts
          exact hdecrypts rfl
      · rename_i hauto
        have hkey : used_key ((bin.file.drop off0).take size) method key_hex = parse_key key_hex := if_neg hauto
        rw [hkey] at hdecrypts
        exact hdecrypts rfl
  · have hillegal : (decide (size = 0) || decide (size > kMaxRegion)) = true := by
      simp only [Bool.or_eq_true, decide_eq_true_eq]
      omega
    rw [if_pos hillegal]
    exact Or.inr ⟨fun off0 h => hsize h.sized, rfl, rfl⟩

/-- A write that succeeds rewrites the region. -/
theorem write_bytes_spec (bin : binary_t) (va : UInt64) (bytes : List UInt8) :
    (∃ off, bin.offset_of va = some off ∧ off + bytes.length ≤ bin.file.length ∧ (write_bytes bin va bytes).1.ok = true ∧
        (write_bytes bin va bytes).1.bytes_changed = bytes.length ∧
        (write_bytes bin va bytes).2 =
          { rewrite_region (quiesce bin) va off bytes.length (fun i _ => bytes.getD i 0) with indexes_dirty := true }) ∨
      ((write_bytes bin va bytes).1.ok = false ∧ (write_bytes bin va bytes).2 = bin) := by
  rw [write_bytes]
  cases hoff : (bin.offset_of va).filter fun off => off + bytes.length ≤ bin.file.length with
  | none => exact Or.inr ⟨rfl, rfl⟩
  | some off =>
    obtain ⟨hva, hin⟩ := Option.filter_eq_some_iff.mp hoff
    refine Or.inl ⟨off, hva, of_decide_eq_true hin, rfl, rfl, ?_⟩
    rw [← journal_bytes_eq]

end slop.core.analysis.imgpatch
