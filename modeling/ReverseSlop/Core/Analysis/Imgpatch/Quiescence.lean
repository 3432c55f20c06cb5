import ReverseSlop.Core.Analysis.Imgpatch.Reversibility
import ReverseSlop.Library.Transition

namespace slop.core.analysis.imgpatch

open disasm disasm.binary_state

def is_write (a : access_t) : Prop := ∃ offset, a = .write offset

/-- Every write to the image among some accesses comes after a stop of the analysis. -/
def StoppedFirst (trace : List access_t) : Prop := Trace.Guarded (· = .stop) is_write trace

theorem StoppedFirst.nil : StoppedFirst [] := Trace.Guarded.of_no_act (List.forall_mem_nil _)

theorem StoppedFirst.stop (trace : List access_t) : StoppedFirst (.stop :: trace) := by
  refine Trace.Guarded.of_head rfl ?_
  rintro ⟨_, h⟩
  cases h

/-- Between two states of an image the analysis was stopped before the first write. -/
def QuiescedWrites (bin bin' : binary_t) : Prop := Trace.Adds binary_t.accesses StoppedFirst bin bin'

/-- An image with an analysis keeps it and quiesces it before it is written. -/
def Quiesces (bin bin' : binary_t) : Prop :=
  bin.hype.isSome = true → bin'.hype.isSome = true ∧ QuiescedWrites bin bin'

theorem Quiesces.refl (bin : binary_t) : Quiesces bin bin :=
  fun hhype => ⟨hhype, [], (List.append_nil _).symm, StoppedFirst.nil⟩

theorem Quiesces.trans {bin bin' bin'' : binary_t} (h : Quiesces bin bin') (h' : Quiesces bin' bin'') :
    Quiesces bin bin'' := by
  intro hhype
  obtain ⟨hhype', hwrites⟩ := h hhype
  obtain ⟨hhype'', hwrites'⟩ := h' hhype'
  exact ⟨hhype'', hwrites.trans (fun _ _ => Trace.Guarded.append) hwrites'⟩

theorem Quiesces.of_eq {bin bin' : binary_t} (hhype : bin'.hype = bin.hype) (haccesses : bin'.accesses = bin.accesses) :
    Quiesces bin bin' := by
  intro hsome
  refine ⟨hhype ▸ hsome, [], ?_, StoppedFirst.nil⟩
  rw [haccesses, List.append_nil]

variable {bin : binary_t}

theorem quiesce_accesses (hhype : bin.hype.isSome = true) :
    (quiesce bin).accesses = bin.accesses ++ [.stop] := if_pos hhype

theorem quiesce_hype (hhype : bin.hype.isSome = true) : (quiesce bin).hype.isSome = true := by
  rw [quiesce, Option.isSome_map]
  exact hhype

theorem poke_quiesces (bin : binary_t) (va : UInt64) (byte : UInt8) : Quiesces bin (poke bin va byte).2 := by
  rw [poke]
  split
  · exact Quiesces.refl bin
  rename_i off hoff
  split
  · exact Quiesces.refl bin
  · intro hhype
    refine ⟨quiesce_hype hhype, [.stop, .write off], ?_, StoppedFirst.stop [.write off]⟩
    rw [journal_write, quiesce_accesses hhype, List.append_assoc]
    rfl

theorem Pokes.quiesces {bin bin' : binary_t} (h : Pokes bin bin') : Quiesces bin bin' := by
  induction h with
  | refl => exact Quiesces.refl bin
  | tail _ hpoked ih =>
    refine ih.trans ?_
    cases hpoked with
    | poke va byte => exact poke_quiesces _ va byte
    | mark => exact Quiesces.of_eq rfl rfl

/-! The bulk writes. -/

/-- What the accesses of an image grow by, whatever it is. -/
def Extends (bin bin' : binary_t) : Prop := Trace.Adds binary_t.accesses (fun _ => True) bin bin'

theorem journal_write_extends (bin : binary_t) (va : UInt64) (offset : Nat) (after : UInt8) :
    Extends bin (journal_write bin va offset after) := ⟨[.write offset], rfl, trivial⟩

theorem Extends.foldl {β α : Type} (get : β → binary_t) {f : β → α → β}
    (hbody : ∀ b a, Extends (get b) (get (f b a))) (items : List α) (b : β) :
    Extends (get b) (get (items.foldl f b)) :=
  Trace.Adds.foldl get trivial (fun _ _ _ _ => trivial) hbody items b

/-- Behind a stop the image may be written in any way. -/
theorem Extends.quiesced {bin bin' : binary_t} (hhype : bin.hype.isSome = true) (h : Extends (quiesce bin) bin') :
    QuiescedWrites bin bin' := by
  obtain ⟨trace, haccesses, -⟩ := h
  refine ⟨.stop :: trace, ?_, StoppedFirst.stop trace⟩
  rw [haccesses, quiesce_accesses hhype, List.append_assoc]
  rfl

/-- An image that is written at once is not quiesced. -/
theorem Extends.unquiesced {bin bin' : binary_t} {va : UInt64} {offset : Nat} {after : UInt8}
    (h : Extends (journal_write bin va offset after) bin') : ¬ QuiescedWrites bin bin' := by
  obtain ⟨trace, haccesses, -⟩ := h
  have hlog : bin'.accesses = bin.accesses ++ (.write offset :: trace) := by
    rw [haccesses, journal_write, List.append_assoc]
    rfl
  rw [QuiescedWrites, Trace.Adds.of_eq hlog]
  exact Trace.Guarded.not_of_head ⟨offset, rfl⟩

theorem write_bytes_quiesces (hhype : bin.hype.isSome = true) (va : UInt64) (bytes : List UInt8) :
    QuiescedWrites bin (write_bytes bin va bytes).2 := by
  rw [write_bytes]
  split
  · exact (Quiesces.refl bin hhype).2
  · refine Extends.quiesced hhype ?_
    refine Extends.foldl id ?_ _ (quiesce bin)
    intro bin p
    exact journal_write_extends bin _ _ p.1

theorem revert_all_quiesces (hhype : bin.hype.isSome = true) :
    QuiescedWrites bin (revert_all bin).2 := by
  cases hpatches : bin.patches with
  | nil =>
    refine ⟨[], ?_, StoppedFirst.nil⟩
    simp [revert_all, hpatches]
  | cons rec recs =>
    have haccesses : Extends (quiesce bin) (revert_all bin).2 := by
      rw [revert_all, hpatches]
      exact ⟨_, rfl, trivial⟩
    exact haccesses.quiesced hhype

def known_method (method : String) : Bool :=
  method = "xor_single" || method = "xor_multi" || method = "auto" || method.isEmpty || method = "xor_rolling"

/-- The method is known and the key is not empty. -/
def Decrypts (method : String) (key : List UInt8) : Prop := known_method method = true ∧ key ≠ []

/-- A key for the data is found, or given with a known method. -/
def Keyed (data : List UInt8) (method key_hex : String) : Prop :=
  if method = "auto" then ∃ found, detect_key data = .ok found else Decrypts method (parse_key key_hex)

/-- The arguments pass all checks of `unpack_xor`: the size, the region, the method
and the key. -/
def Unpackable (bin : binary_t) (va : UInt64) (size : Nat) (method key_hex : String) : Prop :=
  0 < size ∧ size ≤ kMaxRegion ∧
    ∃ off0, bin.offset_of va = some off0 ∧ off0 + size ≤ bin.file.length ∧
      Keyed ((bin.file.drop off0).take size) method key_hex

theorem xor_region_unquiesced (bin : binary_t) (va : UInt64) (off0 : Nat) {size : Nat} (hsize : 0 < size)
    (key : List UInt8) : ¬ QuiescedWrites bin (xor_region bin va off0 size key) := by
  obtain ⟨size, rfl⟩ := Nat.exists_eq_succ_of_ne_zero (Nat.ne_of_gt hsize)
  rw [xor_region, List.range_succ_eq_map, List.foldl_cons]
  refine Extends.unquiesced (Extends.foldl id ?_ _ _)
  intro bin i
  exact journal_write_extends bin _ _ _

theorem xor_rolling_unquiesced (bin : binary_t) (va : UInt64) (off0 : Nat) {size : Nat} (hsize : 0 < size)
    (rolling : UInt8) : ¬ QuiescedWrites bin (xor_rolling bin va off0 size rolling).2 := by
  obtain ⟨size, rfl⟩ := Nat.exists_eq_succ_of_ne_zero (Nat.ne_of_gt hsize)
  rw [xor_rolling, List.range_succ_eq_map, List.foldl_cons]
  refine Extends.unquiesced (Extends.foldl Prod.snd ?_ _ (_, _))
  intro acc i
  exact journal_write_extends acc.2 _ _ _

theorem unpack_with_quiesces_iff (hhype : bin.hype.isSome = true) (va : UInt64) (off0 : Nat)
    {size : Nat} (hsize : 0 < size) (method : String) (key : List UInt8) (res : op_result_t) :
    QuiescedWrites bin (unpack_with bin va off0 size method key res).2 ↔ ¬ Decrypts method key := by
  rw [unpack_with.eq_def, Decrypts, known_method]
  cases key with
  | nil => exact iff_of_true (Quiesces.refl bin hhype).2 fun h => h.2 rfl
  | cons first rest =>
    have hkey : first :: rest ≠ [] := List.cons_ne_nil first rest
    simp only
    split
    · rename_i hmethod
      rw [hmethod, Bool.true_or]
      exact iff_of_false (xor_region_unquiesced bin va off0 hsize _) (not_not_intro ⟨rfl, hkey⟩)
    rename_i hmethod
    rw [eq_false_of_ne_true hmethod, Bool.false_or]
    split
    · rename_i hrolling
      exact iff_of_false (xor_rolling_unquiesced bin va off0 hsize first)
        (not_not_intro ⟨decide_eq_true hrolling, hkey⟩)
    · rename_i hrolling
      exact iff_of_true (Quiesces.refl bin hhype).2 fun h => hrolling (of_decide_eq_true h.1)

theorem unpack_xor_quiesces_iff (hhype : bin.hype.isSome = true) (va : UInt64) (size : Nat)
    (method key_hex : String) :
    QuiescedWrites bin (unpack_xor bin va size method key_hex).2 ↔ ¬ Unpackable bin va size method key_hex := by
  rw [unpack_xor, Unpackable]
  have hkept : QuiescedWrites bin bin := (Quiesces.refl bin hhype).2
  by_cases hsize : 0 < size ∧ size ≤ kMaxRegion
  · have hlegal : ¬ (decide (size = 0) || decide (size > kMaxRegion)) = true := by
      simp only [Bool.or_eq_true, decide_eq_true_eq]
      omega
    rw [if_neg hlegal]
    cases hoff : (bin.offset_of va).filter fun off => off + size ≤ bin.file.length with
    | none =>
      refine iff_of_true hkept ?_
      rintro ⟨-, -, off0, hva, hmapped, -⟩
      have hsome : (bin.offset_of va).filter (fun off => off + size ≤ bin.file.length) = some off0 :=
        Option.filter_eq_some_iff.mpr ⟨hva, decide_eq_true hmapped⟩
      rw [hoff] at hsome
      cases hsome
    | some off0 =>
      obtain ⟨hva, hmapped⟩ := Option.filter_eq_some_iff.mp hoff
      have hkeyed : (0 < size ∧ size ≤ kMaxRegion ∧ ∃ off0, bin.offset_of va = some off0 ∧
          off0 + size ≤ bin.file.length ∧ Keyed ((bin.file.drop off0).take size) method key_hex) ↔
          Keyed ((bin.file.drop off0).take size) method key_hex := by
        constructor
        · rintro ⟨-, -, off, hoff', -, hkeyed⟩
          rw [hva, Option.some.injEq] at hoff'
          exact hoff' ▸ hkeyed
        · exact fun hkeyed => ⟨hsize.1, hsize.2, off0, hva, of_decide_eq_true hmapped, hkeyed⟩
      rw [hkeyed, Keyed]
      simp only
      split
      · rename_i hauto
        cases hfound : detect_key ((bin.file.drop off0).take size) with
        | error error =>
          refine iff_of_true hkept ?_
          rintro ⟨_, h⟩
          cases h
        | ok found =>
          refine (unpack_with_quiesces_iff hhype va off0 hsize.1 method _ _).trans (not_congr ?_)
          exact iff_of_true ⟨hauto ▸ rfl, List.cons_ne_nil _ _⟩ ⟨found, rfl⟩
      · exact unpack_with_quiesces_iff hhype va off0 hsize.1 method _ _
  · have hillegal : (decide (size = 0) || decide (size > kMaxRegion)) = true := by
      simp only [Bool.or_eq_true, decide_eq_true_eq]
      omega
    rw [if_pos hillegal]
    exact iff_of_true hkept fun h => hsize ⟨h.1, h.2.1⟩

theorem apply_quiesces (hhype : bin.hype.isSome = true) {op : op_t}
    (hop : ∀ va size method key_hex, op ≠ .unpack_xor va size method key_hex) : QuiescedWrites bin (apply bin op) := by
  cases op with
  | nop_junk fn_va aggressive nop_threshold =>
    exact ((nop_junk_pokes bin fn_va aggressive nop_threshold).quiesces hhype).2
  | resolve_opaque_predicates fn_va dry_run =>
    exact ((resolve_opaque_predicates_pokes bin fn_va dry_run).quiesces hhype).2
  | patch_anti_debug fn_va opts dry_run => exact ((patch_anti_debug_pokes bin fn_va opts dry_run).quiesces hhype).2
  | unpack_xor va size method key_hex => exact absurd rfl (hop va size method key_hex)
  | write_bytes va bytes => exact write_bytes_quiesces hhype va bytes
  | full_pass fn_va dry_run => exact ((full_pass_pokes bin fn_va dry_run).quiesces hhype).2
  | rebuild fn_va => exact ((rebuild_pokes bin fn_va).quiesces hhype).2
  | revert_all => exact revert_all_quiesces hhype

/-- Every operation on an image with an analysis stops it before its first write, but
for an `unpack_xor` that decrypts something. -/
theorem apply_quiesces_iff (bin : binary_t) (hhype : bin.hype.isSome = true) (op : op_t) :
    QuiescedWrites bin (apply bin op) ↔
      ∀ va size method key_hex, op = .unpack_xor va size method key_hex → ¬ Unpackable bin va size method key_hex := by
  by_cases hop : ∃ va size method key_hex, op = .unpack_xor va size method key_hex
  · obtain ⟨va, size, method, key_hex, rfl⟩ := hop
    refine (unpack_xor_quiesces_iff hhype va size method key_hex).trans ⟨?_, fun h => h _ _ _ _ rfl⟩
    intro hrefused va' size' method' key_hex' hsame
    cases hsame
    exact hrefused
  · have hother : ∀ va size method key_hex, op ≠ .unpack_xor va size method key_hex :=
      fun va size method key_hex h => hop ⟨va, size, method, key_hex, h⟩
    exact iff_of_true (apply_quiesces hhype hother) fun va size method key_hex h => absurd h (hother va size method key_hex)

/-- A raw write to an image under analysis. -/
theorem write_bytes_stops_analysis :
    QuiescedWrites sample_image (apply sample_image (.write_bytes 0x400000 [0x90])) :=
  (apply_quiesces_iff sample_image rfl (.write_bytes 0x400000 [0x90])).mpr fun _ _ _ _ h => by cases h

theorem unpack_xor_accesses :
    (apply sample_image (.unpack_xor 0x400000 1 "xor_single" "5A")).accesses = sample_image.accesses ++ [.write 0] := by
  decide +kernel

/-- A region is decrypted while the analysis may be reading it. -/
theorem unpack_xor_under_analysis :
    ¬ QuiescedWrites sample_image (apply sample_image (.unpack_xor 0x400000 1 "xor_single" "5A")) := by
  rw [QuiescedWrites, Trace.Adds.of_eq unpack_xor_accesses]
  exact Trace.Guarded.not_of_head ⟨0, rfl⟩

end slop.core.analysis.imgpatch
