import ReverseSlop.Core.Analysis.Imgpatch.Pokes
import Mathlib.Data.List.Nodup

namespace slop.core.analysis.imgpatch

open disasm disasm.binary_state

/-- The byte that the image has at an address. -/
def byte_at (bin : binary_t) (va : UInt64) : Option UInt8 := (bin.offset_of va).bind fun off => bin.file[off]?

/-- The bytes from an address on, if all of them are in the file. -/
def fetch (bin : binary_t) (va : UInt64) (len : Nat) : Option (List UInt8) :=
  match len with
  | 0 => some []
  | len + 1 => (byte_at bin va).bind fun byte => (fetch bin (va + 1) len).map (byte :: ·)

/-- The addresses of some bytes. -/
def range (va : UInt64) (len : Nat) : List UInt64 :=
  match len with
  | 0 => []
  | len + 1 => va :: range (va + 1) len

/-- Where in the file the bytes from an address on lie. -/
def offsets (bin : binary_t) (va : UInt64) (len : Nat) : List (Option Nat) := (range va len).map bin.offset_of

/-- The bytes of an instruction in the image. -/
def code (bin : binary_t) (insn : insn_t) : Option (List UInt8) := fetch bin insn.va insn.length.toNat

/-- The bytes of some instructions lie at distinct places of the file. -/
def Apart (bin : binary_t) (insns : List insn_t) : Prop :=
  (insns.flatMap fun insn => offsets bin insn.va insn.length.toNat).Nodup

theorem add_succ (va : UInt64) (i : Nat) : va + UInt64.ofNat (i + 1) = va + 1 + UInt64.ofNat i := by
  rw [Nat.add_comm, UInt64.ofNat_add, UInt64.add_assoc]
  rfl

theorem mem_range (va : UInt64) {len i : Nat} (hi : i < len) : va + UInt64.ofNat i ∈ range va len := by
  induction len generalizing va i with
  | zero => exact absurd hi (Nat.not_lt_zero i)
  | succ len ih =>
    cases i with
    | zero => exact List.mem_cons.mpr (Or.inl (UInt64.add_zero va))
    | succ i =>
      rw [add_succ]
      exact List.mem_cons_of_mem va (ih (va + 1) (Nat.lt_of_succ_lt_succ hi))

/-- What maps addresses to the file and to import names is the same. -/
def SameHeader (bin bin' : binary_t) : Prop := bin'.ready = bin.ready ∧ bin'.base = bin.base ∧ bin'.pe = bin.pe

theorem SameHeader.refl (bin : binary_t) : SameHeader bin bin := ⟨rfl, rfl, rfl⟩

theorem SameHeader.trans {bin bin' bin'' : binary_t} (h : SameHeader bin bin') (h' : SameHeader bin' bin'') :
    SameHeader bin bin'' := ⟨h'.1.trans h.1, h'.2.1.trans h.2.1, h'.2.2.trans h.2.2⟩

theorem SameHeader.offset_of {bin bin' : binary_t} (h : SameHeader bin bin') (va : UInt64) :
    bin'.offset_of va = bin.offset_of va := by
  rw [binary_t.offset_of, h.1, h.2.1, h.2.2, binary_t.offset_of]

theorem SameHeader.offsets {bin bin' : binary_t} (h : SameHeader bin bin') (va : UInt64) (len : Nat) :
    offsets bin' va len = offsets bin va len := List.map_congr_left fun va _ => h.offset_of va

theorem poke_sameHeader (bin : binary_t) (va : UInt64) (byte : UInt8) : SameHeader bin (poke bin va byte).2 := by
  rw [poke]
  split
  · exact SameHeader.refl bin
  split
  · exact SameHeader.refl bin
  · exact ⟨rfl, rfl, rfl⟩

theorem Pokes.sameHeader {bin bin' : binary_t} (h : Pokes bin bin') : SameHeader bin bin' := by
  induction h with
  | refl => exact SameHeader.refl bin
  | tail _ hpoked ih =>
    refine ih.trans ?_
    cases hpoked with
    | poke va byte => exact poke_sameHeader _ va byte
    | mark => exact ⟨rfl, rfl, rfl⟩

theorem poke_file (bin : binary_t) (va : UInt64) (byte : UInt8) :
    (poke bin va byte).2.file = (bin.offset_of va).elim bin.file fun off => bin.file.set off byte := by
  rw [poke]
  cases bin.offset_of va with
  | none => rfl
  | some off =>
    simp only
    by_cases hin : bin.file.length ≤ off
    · rw [if_pos hin, Option.elim_some, List.set_eq_of_length_le hin]
    · rw [if_neg hin]
      rfl

/-- A poke changes the bytes that lie where it writes. -/
theorem byte_at_poke (bin : binary_t) (va va' : UInt64) (byte : UInt8) :
    byte_at (poke bin va byte).2 va' =
      if bin.offset_of va' = bin.offset_of va then (byte_at bin va').map fun _ => byte else byte_at bin va' := by
  rw [byte_at, (poke_sameHeader bin va byte).offset_of, poke_file, byte_at]
  cases bin.offset_of va' with
  | none => simp
  | some off' =>
    cases bin.offset_of va with
    | none => rfl
    | some off =>
      simp only [Option.elim_some, Option.bind_some, Option.some.injEq]
      by_cases hsame : off' = off
      · rw [if_pos hsame, hsame, List.getElem?_set_self']
        rfl
      · rw [if_neg hsame, List.getElem?_set_ne fun h => hsame h.symm]

variable {bin : binary_t} {va : UInt64}

theorem byte_at_poke_same (byte : UInt8) :
    byte_at (poke bin va byte).2 va = (byte_at bin va).map fun _ => byte := by
  rw [byte_at_poke, if_pos rfl]

theorem byte_at_poke_other {va va' : UInt64} (byte : UInt8)
    (hapart : bin.offset_of va' ≠ bin.offset_of va) : byte_at (poke bin va byte).2 va' = byte_at bin va' := by
  rw [byte_at_poke, if_neg hapart]

theorem fetch_poke_other {len : Nat} {va' : UInt64} (byte : UInt8)
    (hapart : bin.offset_of va' ∉ offsets bin va len) : fetch (poke bin va' byte).2 va len = fetch bin va len := by
  induction len generalizing va with
  | zero => rfl
  | succ len ih =>
    rw [offsets, range, List.map_cons, List.mem_cons, not_or] at hapart
    rw [fetch, fetch, byte_at_poke_other byte fun h => hapart.1 h.symm, ih hapart.2]

/-- A poke into a stretch of code sets that byte of it. -/
theorem fetch_poke {len i : Nat} (byte : UInt8) (hi : i < len)
    (hapart : (offsets bin va len).Nodup) :
    fetch (poke bin (va + UInt64.ofNat i) byte).2 va len = (fetch bin va len).map fun code => code.set i byte := by
  induction len generalizing va i with
  | zero => exact absurd hi (Nat.not_lt_zero i)
  | succ len ih =>
    rw [offsets, range, List.map_cons, List.nodup_cons] at hapart
    cases i with
    | zero =>
      have hrest := fetch_poke_other byte hapart.1
      have hva : va + UInt64.ofNat 0 = va := UInt64.add_zero va
      rw [hva, fetch, fetch, byte_at_poke_same, hrest]
      cases byte_at bin va <;> cases fetch bin (va + 1) len <;> rfl
    | succ i =>
      have hi' : i < len := Nat.lt_of_succ_lt_succ hi
      have hother : bin.offset_of va ≠ bin.offset_of (va + 1 + UInt64.ofNat i) := by
        intro h
        rw [h] at hapart
        exact hapart.1 (List.mem_map_of_mem (mem_range (va + 1) hi'))
      rw [add_succ, fetch, fetch, byte_at_poke_other byte hother, ih hi' hapart.2]
      cases byte_at bin va <;> cases fetch bin (va + 1) len <;> rfl

theorem fetch_congr {bin bin' : binary_t} (hheader : SameHeader bin bin') (hfile : bin'.file = bin.file) (va : UInt64)
    (len : Nat) : fetch bin' va len = fetch bin va len := by
  induction len generalizing va with
  | zero => rfl
  | succ len ih => rw [fetch, fetch, ih, byte_at, byte_at, hheader.offset_of, hfile]

theorem finish_code (res : op_result_t) (bin : binary_t) (insn : insn_t) : code (finish res bin).2 insn = code bin insn := by
  rw [finish]
  split
  · rfl
  · rw [code, code]
    apply fetch_congr
    · exact ⟨rfl, rfl, rfl⟩
    · rfl

theorem length_fetch {len : Nat} {bytes : List UInt8}
    (hfetch : fetch bin va len = some bytes) : bytes.length = len := by
  induction len generalizing va bytes with
  | zero =>
    rw [fetch, Option.some.injEq] at hfetch
    rw [← hfetch, List.length_nil]
  | succ len ih =>
    rw [fetch] at hfetch
    obtain ⟨byte, -, hrest⟩ := Option.bind_eq_some_iff.mp hfetch
    obtain ⟨rest, hfetch', rfl⟩ := Option.map_eq_some_iff.mp hrest
    rw [List.length_cons, ih hfetch']

theorem fetch_first {len : Nat} {bytes : List UInt8} (hlen : 0 < len)
    (hfetch : fetch bin va len = some bytes) : byte_at bin va = some (bytes.getD 0 0) := by
  obtain ⟨len, rfl⟩ := Nat.exists_eq_succ_of_ne_zero (Nat.ne_of_gt hlen)
  rw [fetch] at hfetch
  obtain ⟨byte, hbyte, hrest⟩ := Option.bind_eq_some_iff.mp hfetch
  obtain ⟨rest, -, rfl⟩ := Option.map_eq_some_iff.mp hrest
  exact hbyte

theorem read_bin_first {len : Nat} {buf : List UInt8} (hlen : 0 < len)
    (hread : read_bin bin va len = some buf) : byte_at bin va = some (buf.getD 0 0) := by
  rw [read_bin] at hread
  split at hread
  · cases hread
  rename_i off hoff
  split at hread
  · cases hread
  rename_i hin
  cases hread
  have hlt : off < bin.file.length := by omega
  rw [byte_at, hoff, Option.bind_some, List.getD_eq_getElem?_getD, List.getElem?_take_of_lt hlen, List.getElem?_drop,
    Nat.add_zero, List.getElem?_eq_getElem hlt, Option.getD_some]

/-- A decoded instruction has a length and comes from the bytes at its address. -/
theorem decode_fn_mem {max : Nat} {insn : insn_t}
    (hmem : insn ∈ decode_fn bin va max) :
    ∃ va' buf, read_bin bin va' 16 = some buf ∧ bin.eng.decode va' buf = some insn ∧ 0 < insn.length.toNat := by
  induction max generalizing va with
  | zero => cases hmem
  | succ max ih =>
    rw [decode_fn] at hmem
    split at hmem
    · cases hmem
    rename_i insn' hdecode
    split at hmem
    · cases hmem
    rename_i hlength
    cases hmem with
    | head =>
      obtain ⟨buf, hread, hdecode⟩ := Option.bind_eq_some_iff.mp hdecode
      refine ⟨va, buf, hread, hdecode, Nat.pos_of_ne_zero fun hzero => hlength ?_⟩
      exact UInt8.toNat_inj.mp hzero
    | tail _ hrest => exact ih hrest

/-! Patches that stay within one instruction. -/

/-- Pokes into the bytes of an instruction. -/
def PokesIn (insn : insn_t) (bin bin' : binary_t) : Prop :=
  Relation.ReflTransGen (fun bin bin' => ∃ i < insn.length.toNat, ∃ byte, bin' = (poke bin (insn.va + UInt64.ofNat i) byte).2)
    bin bin'

theorem PokesIn.refl (insn : insn_t) (bin : binary_t) : PokesIn insn bin bin := Relation.ReflTransGen.refl

theorem PokesIn.trans {insn : insn_t} {bin bin' bin'' : binary_t} (h : PokesIn insn bin bin')
    (h' : PokesIn insn bin' bin'') : PokesIn insn bin bin'' := Relation.ReflTransGen.trans h h'

theorem poke_pokesIn {insn : insn_t} (bin : binary_t) {i : Nat} (hi : i < insn.length.toNat) (byte : UInt8) :
    PokesIn insn bin (poke bin (insn.va + UInt64.ofNat i) byte).2 :=
  Relation.ReflTransGen.single ⟨i, hi, byte, rfl⟩

theorem PokesIn.sameHeader {insn : insn_t} {bin bin' : binary_t} (h : PokesIn insn bin bin') : SameHeader bin bin' := by
  induction h with
  | refl => exact SameHeader.refl bin
  | tail _ hpoke ih =>
    obtain ⟨i, -, byte, rfl⟩ := hpoke
    exact ih.trans (poke_sameHeader _ _ byte)

/-- Poke bytes at some distances from an address. -/
def poke_all (bin : binary_t) (va : UInt64) (pokes : List (Nat × UInt8)) : binary_t :=
  pokes.foldl (fun bin p => (poke bin (va + UInt64.ofNat p.1) p.2).2) bin

/-- Set the bytes at some positions. -/
def set_all (bytes : List UInt8) (pokes : List (Nat × UInt8)) : List UInt8 :=
  pokes.foldl (fun bytes p => bytes.set p.1 p.2) bytes

theorem poke_all_pokesIn {insn : insn_t} {pokes : List (Nat × UInt8)} (hpokes : ∀ p ∈ pokes, p.1 < insn.length.toNat)
    (bin : binary_t) : PokesIn insn bin (poke_all bin insn.va pokes) := by
  induction pokes generalizing bin with
  | nil => exact PokesIn.refl insn bin
  | cons p rest ih =>
    obtain ⟨hp, hrest⟩ := List.forall_mem_cons.mp hpokes
    exact (poke_pokesIn bin hp p.2).trans (ih hrest _)

theorem poke_all_code {insn : insn_t} {pokes : List (Nat × UInt8)} (hpokes : ∀ p ∈ pokes, p.1 < insn.length.toNat)
    {bin : binary_t} (hapart : (offsets bin insn.va insn.length.toNat).Nodup) :
    code (poke_all bin insn.va pokes) insn = (code bin insn).map fun bytes => set_all bytes pokes := by
  induction pokes generalizing bin with
  | nil => exact Option.map_id'.symm
  | cons p rest ih =>
    obtain ⟨hp, hrest⟩ := List.forall_mem_cons.mp hpokes
    have hapart' : (offsets (poke bin (insn.va + UInt64.ofNat p.1) p.2).2 insn.va insn.length.toNat).Nodup := by
      rw [(poke_sameHeader bin _ _).offsets]
      exact hapart
    rw [poke_all, List.foldl_cons]
    refine (ih hrest hapart').trans ?_
    rw [code, fetch_poke p.2 hp hapart, Option.map_map]
    rfl

/-- The bytes of two instructions share no place of the file. -/
def DisjointCode (bin : binary_t) (insn other : insn_t) : Prop :=
  (offsets bin insn.va insn.length.toNat).Disjoint (offsets bin other.va other.length.toNat)

theorem PokesIn.code_other {insn other : insn_t} {bin bin' : binary_t} (h : PokesIn insn bin bin')
    (hdisjoint : DisjointCode bin insn other) : code bin' other = code bin other := by
  induction h with
  | refl => rfl
  | tail hpokes hpoke ih =>
    obtain ⟨i, hi, byte, rfl⟩ := hpoke
    have hheader := PokesIn.sameHeader hpokes
    refine (fetch_poke_other byte fun hmem => ?_).trans ih
    rw [hheader.offsets, hheader.offset_of] at hmem
    exact hdisjoint (List.mem_map_of_mem (mem_range insn.va hi)) hmem

section

variable {patch : binary_t → insn_t → binary_t}

theorem foldl_code_other {insns : List insn_t} (hlocal : ∀ insn ∈ insns, ∀ bin, PokesIn insn bin (patch bin insn))
    {other : insn_t} {bin : binary_t} (hdisjoint : ∀ insn ∈ insns, DisjointCode bin insn other) :
    SameHeader bin (insns.foldl patch bin) ∧ code (insns.foldl patch bin) other = code bin other := by
  induction insns generalizing bin with
  | nil => exact ⟨SameHeader.refl bin, rfl⟩
  | cons insn rest ih =>
    obtain ⟨hfirst, hrest⟩ := List.forall_mem_cons.mp hdisjoint
    obtain ⟨hlocal, hlocals⟩ := List.forall_mem_cons.mp hlocal
    have hpatch := hlocal bin
    have hrest' : ∀ insn' ∈ rest, DisjointCode (patch bin insn) insn' other := by
      intro insn' hmem
      rw [DisjointCode, hpatch.sameHeader.offsets, hpatch.sameHeader.offsets]
      exact hrest insn' hmem
    obtain ⟨hheader, hcode⟩ := ih hlocals hrest'
    exact ⟨hpatch.sameHeader.trans hheader, hcode.trans (hpatch.code_other hfirst)⟩

/-- Patches of instructions that lie apart act on each of them alone. -/
theorem foldl_code {before after : List insn_t} {insn : insn_t} {bin : binary_t}
    (hlocal : ∀ x ∈ before ++ insn :: after, ∀ bin, PokesIn x bin (patch bin x))
    (hapart : Apart bin (before ++ insn :: after)) :
    SameHeader bin (before.foldl patch bin) ∧ code (before.foldl patch bin) insn = code bin insn ∧
      code ((before ++ insn :: after).foldl patch bin) insn = code (patch (before.foldl patch bin) insn) insn := by
  obtain ⟨-, hpairs⟩ := List.nodup_flatMap.mp hapart
  obtain ⟨-, htail, hbefore⟩ := List.pairwise_append.mp hpairs
  obtain ⟨hafter, -⟩ := List.pairwise_cons.mp htail
  obtain ⟨hlocal, hlocals⟩ := List.forall_mem_append.mp hlocal
  obtain ⟨hinsn, hlocals⟩ := List.forall_mem_cons.mp hlocals
  have hdisjoint : ∀ x ∈ before, DisjointCode bin x insn := fun x hx => hbefore x hx insn List.mem_cons_self
  obtain ⟨hheader, hcode⟩ := foldl_code_other hlocal hdisjoint
  refine ⟨hheader, hcode, ?_⟩
  rw [List.foldl_append, List.foldl_cons]
  refine (foldl_code_other hlocals fun x hx => ?_).2
  have hheader' := hheader.trans (hinsn (before.foldl patch bin)).sameHeader
  rw [DisjointCode, hheader'.offsets, hheader'.offsets]
  exact fun off hoff hoff' => hafter x hx hoff' hoff

end

end slop.core.analysis.imgpatch
