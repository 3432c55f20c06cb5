import ReverseSlop.Core.Analysis.Xray.Partition
import ReverseSlop.Library.Arithmetic

namespace slop.core.analysis.xray

open disasm (insn_t pe_section_t)

/-- The first section that an address is in, by the larger of its two sizes. -/
def section_for_va (img : image_ref_t) (va : UInt64) : Option pe_section_t :=
  let rva := (va - img.base).toUInt32
  img.pe.sections.find? fun s => rva ≥ s.rva && rva < s.rva + max s.virtual_size s.raw_size

def is_exec_va (img : image_ref_t) (va : UInt64) : Bool :=
  match section_for_va img va with
  | none => false
  | some s => s.is_executable

structure gadget_t where
  address : UInt64
  text : String

def add_text (text : String) (insn : insn_t) : String := (if text = "" then text else text ++ " ; ") ++ insn.text

/-- Whether a chain ends at the site with a `ret`, how many of its instructions are used, and their text. -/
def follow (max_gadget_len : Nat) (ret_va : UInt64) : List insn_t → UInt64 → Nat → String → Bool × Nat × String
  | [], _, used, text => (false, used, text)
  | insn :: chain, cur, used, text =>
    if used = max_gadget_len then (false, used, text)
    else
      let text := add_text text insn
      let cur := cur + insn.length.toUInt64
      if cur = ret_va then (insn.mnemonic = .RET, used + 1, text)
      else if insn.flow ≠ .none then (false, used + 1, text)
      else follow max_gadget_len ret_va chain cur (used + 1) text

/-- The gadget from one start before the site. -/
def gadget_from (img : image_ref_t) (max_gadget_len ret_va start : UInt64) : Option gadget_t :=
  if is_exec_va img start = false then none
  else
    let chain := decode_range img 0 (max_gadget_len + 1).toNat start
    if chain = [] then none
    else
      let (ends_at_ret, used, text) := follow max_gadget_len.toNat ret_va chain start 0 ""
      if ends_at_ret = false then none else if used < 2 then none else some ⟨start, text⟩

def emit_gadget (img : image_ref_t) (max_gadget_len ret_va : UInt64) : Option gadget_t :=
  (List.range' 1 15).findSome? fun back => gadget_from img max_gadget_len ret_va (ret_va - back.toUInt64)

/-- The addresses of the bytes `C3` in the executable sections, section by section. A byte that is not
in the file is taken for another one. -/
def ret_sites (img : image_ref_t) : List UInt64 :=
  img.pe.sections.flatMap fun (sec : pe_section_t) =>
    if sec.is_executable = false ∨ sec.raw_size = 0 then []
    else
      match img.pe.rva_to_offset sec.rva with
      | none => []
      | some off =>
        let len := min sec.raw_size.toNat (Word.sub64 img.file.length off % 2 ^ 32)
        ((List.range len).filter fun i => img.file[off + i]? = some 0xC3).map fun i =>
          img.base + sec.rva.toUInt64 + i.toUInt64

def emit_gadgets (img : image_ref_t) (limit : Nat) (max_gadget_len : UInt64) : List UInt64 → List gadget_t → List gadget_t
  | [], out => out
  | site :: sites, out =>
    let out := out ++ (emit_gadget img max_gadget_len site).toList
    if out.length ≥ limit then out else emit_gadgets img limit max_gadget_len sites out

def rop_gadgets (img : image_ref_t) (limit : Nat) (max_gadget_len : UInt64) : List gadget_t :=
  emit_gadgets img limit max_gadget_len (ret_sites img) []

/-- The instruction at an address, where the file has the 16 bytes that are fetched for it. -/
def decode_at (img : image_ref_t) (va : UInt64) : Option insn_t :=
  match read_img img va 16 with
  | none => none
  | some buf => (img.eng.decode va buf).filter fun insn => insn.length ≠ 0

/-- The bytes of the file from an address on: as many as an instruction can have, and at the
end of the file as many as there are. -/
def code_at (img : image_ref_t) (va : UInt64) : Option (List UInt8) :=
  if va < img.base then none
  else (img.pe.rva_to_offset (va - img.base).toUInt32).map fun off => (img.file.drop off).take 16

/-- The instruction that the bytes at an address are, however many there are. -/
def insn_at (img : image_ref_t) (va : UInt64) : Option insn_t :=
  (code_at img va).bind fun buf => (img.eng.decode va buf).filter fun insn => insn.length ≠ 0

/-- Straight-line code from one address to another. -/
def Straight (img : image_ref_t) : UInt64 → List insn_t → UInt64 → Prop
  | a, [], b => a = b
  | a, insn :: insns, b =>
    insn_at img a = some insn ∧ insn.flow = .none ∧ Straight img (a + insn.length.toUInt64) insns b

/-- The instructions of a gadget, with the `ret` at the site as the last one. -/
def GadgetAt (img : image_ref_t) (g : gadget_t) (site : UInt64) : Prop :=
  ∃ insns ret, insns ≠ [] ∧ Straight img g.address insns site ∧ insn_at img site = some ret ∧ ret.mnemonic = .RET ∧
    g.text = (insns ++ [ret]).foldl add_text ""

/-- Some start at most 15 bytes before the site leads to it, with no more instructions than a
gadget may have. The bytes count as they are in the file, also where fewer than 16 are left. -/
def Good (img : image_ref_t) (max_gadget_len site : UInt64) : Prop :=
  ∃ back insns, 1 ≤ back ∧ back ≤ 15 ∧ insns ≠ [] ∧ Straight img (site - back.toUInt64) insns site ∧
    insns.length + 1 ≤ max_gadget_len.toNat

/-- Below the limit every good site has its gadget, and every gadget ends with the `ret` at a site. -/
def GadgetsRight (img : image_ref_t) (limit : Nat) (max_gadget_len : UInt64) : Prop :=
  ((rop_gadgets img limit max_gadget_len).length < limit → ∀ site ∈ ret_sites img, Good img max_gadget_len site →
      ∃ g ∈ rop_gadgets img limit max_gadget_len, GadgetAt img g site) ∧
    ∀ g ∈ rop_gadgets img limit max_gadget_len, ∃ site ∈ ret_sites img, GadgetAt img g site

/-- Straight-line code from one address to another that does not end at the site on its way,
as it is fetched. -/
def Leads (img : image_ref_t) (site : UInt64) : UInt64 → List insn_t → UInt64 → Prop
  | a, [], b => a = b
  | a, insn :: insns, b =>
    decode_at img a = some insn ∧ insn.flow = .none ∧ a + insn.length.toUInt64 ≠ site ∧
      Leads img site (a + insn.length.toUInt64) insns b

/-- Straight-line code from an executable start to a `ret` at `q`, which ends where the site begins. -/
structure Feeds (img : image_ref_t) (max_gadget_len start site q : UInt64) (insns : List insn_t) (ret : insn_t) : Prop where
  exec : is_exec_va img start = true
  leads : Leads img site start insns q
  nonempty : insns ≠ []
  decode : decode_at img q = some ret
  is_ret : ret.mnemonic = .RET
  ends : q + ret.length.toUInt64 = site
  short : insns.length + 1 < (max_gadget_len + 1).toNat

/-- No start nearer to the site feeds it. -/
structure NearestFeed (img : image_ref_t) (max_gadget_len site : UInt64) (back : Nat) (q : UInt64) (insns : List insn_t)
    (ret : insn_t) : Prop where
  pos : 1 ≤ back
  le : back ≤ 15
  feeds : Feeds img max_gadget_len (site - back.toUInt64) site q insns ret
  nearest : ∀ nearer, 1 ≤ nearer → nearer < back → ∀ q insns ret,
    ¬ Feeds img max_gadget_len (site - nearer.toUInt64) site q insns ret

/-- The nearest start before the site leads to a `ret` at `q`, right before the site. -/
def FedBy (img : image_ref_t) (max_gadget_len site q : UInt64) : Prop :=
  ∃ back insns ret, NearestFeed img max_gadget_len site back q insns ret

section

variable {img : image_ref_t} {max_gadget_len site start q a b b' : UInt64} {insns insns' : List insn_t} {insn ret ret' : insn_t}
  {limit used used' m n : Nat} {text text' : String} {g : gadget_t} {sites : List UInt64} {out : List gadget_t}

private theorem decode_at_of_read {buf : List UInt8} (hread : read_img img a 16 = some buf) (hdecode : img.eng.decode a buf = some insn)
    (hlength : insn.length ≠ 0) : decode_at img a = some insn := by
  rw [decode_at, hread]
  exact Option.filter_eq_some_iff.mpr ⟨hdecode, decide_eq_true hlength⟩

/-- What is fetched and decoded are the bytes that are there. -/
theorem insn_at_of_decode_at (h : decode_at img a = some insn) : insn_at img a = some insn := by
  unfold decode_at at h
  cases hread : read_img img a 16 with
  | none =>
    rw [hread] at h
    cases h
  | some buf =>
    rw [hread] at h
    rw [read_img] at hread
    by_cases hbase : a < img.base
    · rw [if_pos hbase] at hread
      cases hread
    rw [if_neg hbase] at hread
    cases hoff : img.pe.rva_to_offset (a - img.base).toUInt32 with
    | none =>
      rw [hoff] at hread
      cases hread
    | some off =>
      rw [hoff] at hread
      dsimp only at hread
      split at hread
      · cases hread
      · cases hread
        rwa [insn_at, code_at, if_neg hbase, hoff, Option.map_some, Option.bind_some]

private theorem decode_of_insn_at (h : insn_at img a = some insn) : ∃ buf, img.eng.decode a buf = some insn := by
  obtain ⟨buf, -, hdecode⟩ := Option.bind_eq_some_iff.mp h
  exact ⟨buf, (Option.filter_eq_some_iff.mp hdecode).1⟩

private theorem decode_range_succ (img : image_ref_t) (n : Nat) (cur : UInt64) :
    decode_range img 0 (n + 1) cur =
      match decode_at img cur with
      | none => []
      | some insn => insn :: decode_range img 0 n (cur + insn.length.toUInt64) := by
  rw [decode_range, if_neg (by simp), decode_at]
  cases read_img img cur 16 with
  | none => rfl
  | some buf =>
    dsimp only
    cases img.eng.decode cur buf with
    | none => rfl
    | some insn =>
      by_cases hlength : insn.length = 0 <;> simp [Option.filter, hlength]

private theorem Leads.straight (hleads : Leads img site a insns b) : Straight img a insns b := by
  induction insns generalizing a with
  | nil => exact hleads
  | cons insn insns ih =>
    obtain ⟨hdecode, hflow, -, hrest⟩ := hleads
    exact ⟨insn_at_of_decode_at hdecode, hflow, ih hrest⟩

/-- Straight-line code that runs into a branch has one end. -/
theorem Straight.unique (h : Straight img a insns b) (h' : Straight img a insns' b') (hret : insn_at img b = some ret)
    (hret' : insn_at img b' = some ret') (hflow : ret.flow ≠ .none) (hflow' : ret'.flow ≠ .none) : b = b' := by
  induction insns generalizing a insns' with
  | nil =>
    cases insns' with
    | nil => exact (Eq.symm h).trans h'
    | cons insn insns' =>
      rw [← show a = b from h, h'.1] at hret
      cases hret
      exact absurd h'.2.1 hflow
  | cons insn insns ih =>
    cases insns' with
    | nil =>
      rw [← show a = b' from h', h.1] at hret'
      cases hret'
      exact absurd h.2.1 hflow'
    | cons insn' insns' =>
      obtain ⟨hdecode, -, hrest⟩ := h
      obtain ⟨hdecode', -, hrest'⟩ := h'
      rw [hdecode] at hdecode'
      cases hdecode'
      exact ih hrest hrest'

/-- The chain from a start ends at the site with a `ret` exactly if it leads to one there in time. -/
theorem follow_iff (img : image_ref_t) (site : UInt64) (n : Nat) (hused : used ≤ m) :
    follow m site (decode_range img 0 n a) a used text = (true, used', text') ↔
      ∃ insns q ret, Leads img site a insns q ∧ decode_at img q = some ret ∧ ret.mnemonic = .RET ∧
        q + ret.length.toUInt64 = site ∧ used + insns.length < m ∧ insns.length < n ∧ used' = used + insns.length + 1 ∧
        text' = (insns ++ [ret]).foldl add_text text := by
  induction n generalizing a used text with
  | zero =>
    refine iff_of_false (fun h => ?_) ?_
    · cases h
    · rintro ⟨insns, q, ret, -, -, -, -, -, hn, -⟩
      omega
  | succ n ih =>
    rw [decode_range_succ]
    cases hdecode : decode_at img a with
    | none =>
      refine iff_of_false (fun h => ?_) ?_
      · cases h
      · rintro ⟨insns, q, ret, hleads, hret, -⟩
        cases insns with
        | nil =>
          rw [← show a = q from hleads, hdecode] at hret
          cases hret
        | cons insn insns =>
          rw [hleads.1] at hdecode
          cases hdecode
    | some insn =>
      dsimp only
      rw [follow]
      by_cases hfull : used = m
      · rw [if_pos hfull]
        refine iff_of_false (fun h => ?_) ?_
        · cases h
        · rintro ⟨insns, q, ret, -, -, -, -, hm, -⟩
          omega
      rw [if_neg hfull]
      dsimp only
      by_cases hend : a + insn.length.toUInt64 = site
      · rw [if_pos hend, Prod.mk.injEq, Prod.mk.injEq, decide_eq_true_iff]
        constructor
        · rintro ⟨his, rfl, rfl⟩
          exact ⟨[], a, insn, rfl, hdecode, his, hend, by rw [List.length_nil]; omega, Nat.succ_pos n, rfl, rfl⟩
        · rintro ⟨insns, q, ret, hleads, hret, his, -, -, -, rfl, rfl⟩
          cases insns with
          | nil =>
            rw [← show a = q from hleads, hdecode] at hret
            cases hret
            exact ⟨his, rfl, rfl⟩
          | cons first insns =>
            obtain ⟨hfirst, -, hnot, -⟩ := hleads
            rw [hdecode] at hfirst
            cases hfirst
            exact absurd hend hnot
      rw [if_neg hend]
      by_cases hflow : insn.flow = .none
      · rw [if_neg (not_not_intro hflow), ih (by omega)]
        constructor
        · rintro ⟨insns, q, ret, hleads, hret, his, hends, hm, hn, rfl, rfl⟩
          refine ⟨insn :: insns, q, ret, ⟨hdecode, hflow, hend, hleads⟩, hret, his, hends, ?_, ?_, ?_, rfl⟩
          all_goals rw [List.length_cons]; omega
        · rintro ⟨insns, q, ret, hleads, hret, his, hends, hm, hn, rfl, rfl⟩
          cases insns with
          | nil =>
            rw [← show a = q from hleads, hdecode] at hret
            cases hret
            rw [← show a = q from hleads] at hends
            exact absurd hends hend
          | cons first insns =>
            obtain ⟨hfirst, -, -, hleads⟩ := hleads
            rw [hdecode] at hfirst
            cases hfirst
            rw [List.length_cons] at hm hn
            exact ⟨insns, q, ret, hleads, hret, his, hends, by omega, by omega, by rw [List.length_cons]; omega, rfl⟩
      · rw [if_pos hflow]
        refine iff_of_false (fun h => ?_) ?_
        · cases h
        · rintro ⟨insns, q, ret, hleads, hret, -, hends, -⟩
          cases insns with
          | nil =>
            rw [← show a = q from hleads, hdecode] at hret
            cases hret
            rw [← show a = q from hleads] at hends
            exact hend hends
          | cons first insns =>
            obtain ⟨hfirst, hplain, -⟩ := hleads
            rw [hdecode] at hfirst
            cases hfirst
            exact hflow hplain

/-- The chain fits exactly if it is shorter than the limit; the largest limit of all leaves room for none. -/
theorem short_iff (max_gadget_len : UInt64) (n : Nat) :
    n + 1 < (max_gadget_len + 1).toNat ↔ 0 + n < max_gadget_len.toNat ∧ n < (max_gadget_len + 1).toNat := by
  have hlt := max_gadget_len.toNat_lt
  rw [UInt64.toNat_add, UInt64.toNat_one]
  omega

private theorem gadget_from_iff :
    gadget_from img max_gadget_len site start = some g ↔
      ∃ q insns ret, Feeds img max_gadget_len start site q insns ret ∧ g = ⟨start, (insns ++ [ret]).foldl add_text ""⟩ := by
  have hfollow (used : Nat) (text : String) :
      follow max_gadget_len.toNat site (decode_range img 0 (max_gadget_len + 1).toNat start) start 0 "" = (true, used, text) ↔
        _ :=
    follow_iff img site _ (Nat.zero_le _)
  unfold gadget_from
  split
  · rename_i hexec
    refine iff_of_false (fun h => ?_) ?_
    · cases h
    · rintro ⟨q, insns, ret, hfeeds, -⟩
      rw [hfeeds.exec] at hexec
      cases hexec
  rename_i hexec
  dsimp only
  constructor
  · intro hgadget
    split at hgadget
    · cases hgadget
    split at hgadget
    · cases hgadget
    rename_i hends
    split at hgadget
    · cases hgadget
    rename_i hused
    cases hgadget
    obtain ⟨insns, q, ret, hleads, hdecode, his, hsite, hm, hn, hlen, htext⟩ :=
      (hfollow _ _).mp (Prod.ext (Bool.not_eq_false _ ▸ hends) rfl)
    refine ⟨q, insns, ret, ⟨Bool.not_eq_false _ ▸ hexec, hleads, ?_, hdecode, his, hsite, ?_⟩, ?_⟩
    · rintro rfl
      rw [List.length_nil] at hlen
      omega
    · exact (short_iff _ _).mpr ⟨hm, hn⟩
    · rw [← htext]
  · rintro ⟨q, insns, ret, hfeeds, rfl⟩
    obtain ⟨hm, hn⟩ := (short_iff _ _).mp hfeeds.short
    have hrun := (hfollow _ _).mpr
      ⟨insns, q, ret, hfeeds.leads, hfeeds.decode, hfeeds.is_ret, hfeeds.ends, hm, hn, rfl, rfl⟩
    have hpos := List.length_pos_iff.mpr hfeeds.nonempty
    have hchain : decode_range img 0 (max_gadget_len + 1).toNat start ≠ [] := by
      intro hnil
      rw [hnil] at hrun
      cases hrun
    rw [if_neg hchain, hrun]
    dsimp only
    rw [if_neg Bool.true_eq_false.mp, if_neg (by omega)]

private theorem gadget_from_eq_none :
    gadget_from img max_gadget_len site start = none ↔ ∀ q insns ret, ¬ Feeds img max_gadget_len start site q insns ret := by
  rw [Option.eq_none_iff_forall_ne_some]
  constructor
  · intro hnone q insns ret hfeeds
    exact hnone _ (gadget_from_iff.mpr ⟨q, insns, ret, hfeeds, rfl⟩)
  · intro hnot g hg
    obtain ⟨q, insns, ret, hfeeds, -⟩ := gadget_from_iff.mp hg
    exact hnot q insns ret hfeeds

/-- The gadget for a site is that of the nearest start that feeds it. -/
theorem emit_gadget_iff :
    emit_gadget img max_gadget_len site = some g ↔
      ∃ back q insns ret, NearestFeed img max_gadget_len site back q insns ret ∧
        g = ⟨site - back.toUInt64, (insns ++ [ret]).foldl add_text ""⟩ := by
  unfold emit_gadget
  rw [List.findSome?_eq_some_iff]
  constructor
  · rintro ⟨before, back, after, hsplit, hgadget, hnone⟩
    obtain ⟨q, insns, ret, hfeeds, rfl⟩ := gadget_from_iff.mp hgadget
    have hback := List.mem_range'_1.mp (hsplit ▸ List.mem_append_right before List.mem_cons_self)
    refine ⟨back, q, insns, ret, ⟨hback.1, by omega, hfeeds, fun nearer hpos hlt => ?_⟩, rfl⟩
    have hsorted : (before ++ back :: after).Pairwise (· < ·) := hsplit ▸ List.pairwise_lt_range'
    have hmem : nearer ∈ before ++ back :: after := hsplit ▸ List.mem_range'_1.mpr ⟨hpos, by omega⟩
    rcases List.mem_append.mp hmem with hbefore | hafter
    · exact gadget_from_eq_none.mp (hnone nearer hbefore)
    · have hle : back ≤ nearer := by
        rcases List.mem_cons.mp hafter with rfl | hafter
        · exact le_rfl
        · exact ((List.pairwise_cons.mp (List.pairwise_append.mp hsorted).2.1).1 nearer hafter).le
      omega
  · rintro ⟨back, q, insns, ret, ⟨hpos, hle, hfeeds, hnearest⟩, rfl⟩
    refine ⟨List.range' 1 (back - 1), back, List.range' (back + 1) (15 - back), ?_, ?_, ?_⟩
    · have hsplit : List.range' 1 15 = List.range' 1 (back - 1) ++ List.range' (1 + (back - 1)) (1 + (15 - back)) := by
        rw [List.range'_append_1]
        congr 1
        omega
      rw [hsplit, Nat.add_comm 1 (15 - back), List.range'_succ, Nat.add_sub_cancel' hpos]
    · exact gadget_from_iff.mpr ⟨q, insns, ret, hfeeds, rfl⟩
    · intro nearer hnearer
      obtain ⟨hlo, hhi⟩ := List.mem_range'_1.mp hnearer
      exact gadget_from_eq_none.mpr (hnearest nearer hlo (by omega))

private theorem emit_gadget_isSome_iff : (emit_gadget img max_gadget_len site).isSome ↔ ∃ q, FedBy img max_gadget_len site q := by
  rw [Option.isSome_iff_exists]
  constructor
  · rintro ⟨g, hg⟩
    obtain ⟨back, q, insns, ret, hnearest, -⟩ := emit_gadget_iff.mp hg
    exact ⟨q, back, insns, ret, hnearest⟩
  · rintro ⟨q, back, insns, ret, hnearest⟩
    exact ⟨_, emit_gadget_iff.mpr ⟨back, q, insns, ret, hnearest, rfl⟩⟩

private theorem length_filterMap_emit_cons (site : UInt64) (sites : List UInt64) :
    ((site :: sites).filterMap (emit_gadget img max_gadget_len)).length =
      (emit_gadget img max_gadget_len site).toList.length + (sites.filterMap (emit_gadget img max_gadget_len)).length := by
  rw [List.filterMap_cons]
  cases emit_gadget img max_gadget_len site with
  | none => exact (Nat.zero_add _).symm
  | some g => exact Nat.add_comm _ 1

/-- A site is searched as long as those before it have not filled the result; the first one always is. -/
theorem mem_emit_gadgets :
    g ∈ emit_gadgets img limit max_gadget_len sites out ↔
      g ∈ out ∨ ∃ before site after, sites = before ++ site :: after ∧
        (before = [] ∨ out.length + (before.filterMap (emit_gadget img max_gadget_len)).length < limit) ∧
        emit_gadget img max_gadget_len site = some g := by
  induction sites generalizing out with
  | nil =>
    refine (or_iff_left ?_).symm
    rintro ⟨before, site, after, hsplit, -⟩
    exact absurd hsplit.symm (List.append_ne_nil_of_right_ne_nil before (List.cons_ne_nil _ _))
  | cons first sites ih =>
    rw [emit_gadgets]
    have hadd : g ∈ out ++ (emit_gadget img max_gadget_len first).toList ↔
        g ∈ out ∨ emit_gadget img max_gadget_len first = some g := by
      rw [List.mem_append, Option.mem_toList]
    split
    · rename_i hfull
      rw [hadd]
      refine or_congr_right ⟨fun hg => ⟨[], first, sites, rfl, .inl rfl, hg⟩, ?_⟩
      rintro ⟨before, site, after, hsplit, hroom, hg⟩
      cases before with
      | nil =>
        cases hsplit
        exact hg
      | cons site' before =>
        cases hsplit
        rw [length_filterMap_emit_cons] at hroom
        rw [List.length_append] at hfull
        rcases hroom with hnil | hroom
        · cases hnil
        · omega
    · rename_i hroom
      rw [ih, hadd, or_assoc]
      refine or_congr_right ⟨?_, ?_⟩
      · rintro (hg | ⟨before, site, after, rfl, hbefore, hg⟩)
        · exact ⟨[], first, sites, rfl, .inl rfl, hg⟩
        · refine ⟨first :: before, site, after, rfl, .inr ?_, hg⟩
          rw [length_filterMap_emit_cons]
          rw [List.length_append] at hroom hbefore
          rcases hbefore with rfl | hbefore
          · rw [List.filterMap_nil, List.length_nil]
            omega
          · omega
      · rintro ⟨before, site, after, hsplit, hbefore, hg⟩
        cases before with
        | nil =>
          cases hsplit
          exact .inl hg
        | cons site' before =>
          cases hsplit
          rw [length_filterMap_emit_cons] at hbefore
          refine .inr ⟨before, site, after, rfl, .inr ?_, hg⟩
          rw [List.length_append]
          rcases hbefore with hnil | hbefore
          · cases hnil
          · omega

private theorem length_emit_gadgets_lt_iff :
    (emit_gadgets img limit max_gadget_len sites out).length < limit ↔
      out.length + (sites.filterMap (emit_gadget img max_gadget_len)).length < limit := by
  induction sites generalizing out with
  | nil => rfl
  | cons first sites ih =>
    rw [emit_gadgets, length_filterMap_emit_cons]
    split
    · rename_i hfull
      rw [List.length_append] at hfull ⊢
      omega
    · rw [ih, List.length_append, Nat.add_assoc]

/-- A gadget ends with the `ret` that its start leads to, and with no other one. -/
theorem Feeds.gadgetAt_iff {site' : UInt64}
    (hret : ∀ va buf insn, img.eng.decode va buf = some insn → insn.mnemonic = .RET → insn.flow ≠ .none)
    (hfeeds : Feeds img max_gadget_len start site q insns ret) :
    GadgetAt img ⟨start, (insns ++ [ret]).foldl add_text ""⟩ site' ↔ q = site' := by
  have hflow {va : UInt64} {insn : insn_t} (hdecode : insn_at img va = some insn) (his : insn.mnemonic = .RET) :
      insn.flow ≠ .none := by
    obtain ⟨buf, hbuf⟩ := decode_of_insn_at hdecode
    exact hret va buf insn hbuf his
  have hends := insn_at_of_decode_at hfeeds.decode
  constructor
  · rintro ⟨insns', ret', -, hstraight, hdecode, his, -⟩
    exact hfeeds.leads.straight.unique hstraight hends hdecode (hflow hends hfeeds.is_ret) (hflow hdecode his)
  · rintro rfl
    exact ⟨insns, ret, hfeeds.nonempty, hfeeds.leads.straight, hends, hfeeds.is_ret, rfl⟩

end

def Fed (img : image_ref_t) (max_gadget_len site : UInt64) : Prop := ∃ q, FedBy img max_gadget_len site q

instance (img : image_ref_t) (max_gadget_len site : UInt64) : Decidable (Fed img max_gadget_len site) :=
  decidable_of_iff _ emit_gadget_isSome_iff

/-- The sites before this one leave room for a gadget, or there are none. -/
def Reached (img : image_ref_t) (limit : Nat) (max_gadget_len site : UInt64) : Prop :=
  ∃ before after, ret_sites img = before ++ site :: after ∧ (before = [] ∨ before.countP (Fed img max_gadget_len ·) < limit)

/-- Every `ret` that feeds a site is at a site itself, and below the limit every good site feeds one. -/
structure RetsMeet (img : image_ref_t) (limit : Nat) (max_gadget_len : UInt64) : Prop where
  good : (ret_sites img).countP (Fed img max_gadget_len ·) < limit → ∀ site ∈ ret_sites img, Good img max_gadget_len site →
    ∃ next ∈ ret_sites img, FedBy img max_gadget_len next site
  sound : ∀ site, Reached img limit max_gadget_len site → ∀ q, FedBy img max_gadget_len site q → q ∈ ret_sites img

private theorem length_filterMap_emit (img : image_ref_t) (max_gadget_len : UInt64) (sites : List UInt64) :
    (sites.filterMap (emit_gadget img max_gadget_len)).length = sites.countP (Fed img max_gadget_len ·) := by
  rw [List.length_filterMap_eq_countP]
  refine List.countP_congr fun site _ => ?_
  rw [decide_eq_true_iff]
  exact emit_gadget_isSome_iff

/-- The search is right exactly if the `ret`s before the sites are sites, and those behind the chains stand before one. -/
theorem rop_gadgets_right (img : image_ref_t) (limit : Nat) (max_gadget_len : UInt64)
    (hret : ∀ va buf insn, img.eng.decode va buf = some insn → insn.mnemonic = .RET → insn.flow ≠ .none) :
    GadgetsRight img limit max_gadget_len ↔ RetsMeet img limit max_gadget_len := by
  have hmem (g : gadget_t) : g ∈ rop_gadgets img limit max_gadget_len ↔ ∃ site, Reached img limit max_gadget_len site ∧
      emit_gadget img max_gadget_len site = some g := by
    rw [rop_gadgets, mem_emit_gadgets, or_iff_right List.not_mem_nil]
    constructor
    · rintro ⟨before, site, after, hsplit, hroom, hg⟩
      rw [List.length_nil, Nat.zero_add, length_filterMap_emit] at hroom
      exact ⟨site, ⟨before, after, hsplit, hroom⟩, hg⟩
    · rintro ⟨site, ⟨before, after, hsplit, hroom⟩, hg⟩
      rw [← length_filterMap_emit, ← Nat.zero_add (List.length _)] at hroom
      exact ⟨before, site, after, hsplit, hroom, hg⟩
  have hbelow : (rop_gadgets img limit max_gadget_len).length < limit ↔
      (ret_sites img).countP (Fed img max_gadget_len ·) < limit := by
    rw [rop_gadgets, length_emit_gadgets_lt_iff, List.length_nil, Nat.zero_add, length_filterMap_emit]
  constructor
  · rintro ⟨hgood, hsound⟩
    constructor
    · intro hlimit site hsite hgoodSite
      obtain ⟨g, hg, hat⟩ := hgood (hbelow.mpr hlimit) site hsite hgoodSite
      obtain ⟨next, ⟨before, after, hsplit, -⟩, hemit⟩ := (hmem g).mp hg
      obtain ⟨back, q, insns, ret, hnearest, rfl⟩ := emit_gadget_iff.mp hemit
      obtain rfl := (hnearest.feeds.gadgetAt_iff hret).mp hat
      exact ⟨next, hsplit ▸ List.mem_append_right before List.mem_cons_self, back, insns, ret, hnearest⟩
    · rintro site hreached q ⟨back, insns, ret, hnearest⟩
      obtain ⟨site', hsite', hat⟩ := hsound _ ((hmem _).mpr
        ⟨site, hreached, emit_gadget_iff.mpr ⟨back, q, insns, ret, hnearest, rfl⟩⟩)
      rwa [(hnearest.feeds.gadgetAt_iff hret).mp hat]
  · rintro ⟨hgood, hsound⟩
    refine ⟨fun hlimit site hsite hgoodSite => ?_, fun g hg => ?_⟩
    · obtain ⟨next, hnext, back, insns, ret, hnearest⟩ := hgood (hbelow.mp hlimit) site hsite hgoodSite
      obtain ⟨before, after, hsplit⟩ := List.append_of_mem hnext
      have hcount := hbelow.mp hlimit
      rw [hsplit, List.countP_append] at hcount
      refine ⟨_, (hmem _).mpr ⟨next, ⟨before, after, hsplit, .inr (by omega)⟩,
        emit_gadget_iff.mpr ⟨back, site, insns, ret, hnearest, rfl⟩⟩, (hnearest.feeds.gadgetAt_iff hret).mpr rfl⟩
    · obtain ⟨site, hreached, hemit⟩ := (hmem g).mp hg
      obtain ⟨back, q, insns, ret, hnearest, rfl⟩ := emit_gadget_iff.mp hemit
      exact ⟨q, hsound site hreached q ⟨back, insns, ret, hnearest⟩, (hnearest.feeds.gadgetAt_iff hret).mpr rfl⟩

private theorem small_decode_ret {va : UInt64} {buf : List UInt8} {insn : insn_t} (hdecode : small_decode va buf = some insn)
    (his : insn.mnemonic = .RET) : insn.length = 1 ∧ insn.flow = .ret := by
  rw [small_decode.eq_def] at hdecode
  split at hdecode <;> cases hdecode
  · cases his
  · exact ⟨rfl, rfl⟩
  · cases his

/-- An image of one executable section, with zeros behind its code. -/
def small_code (code : List UInt8) : image_ref_t :=
  { small_image (List.replicate 0x200 0 ++ code ++ List.replicate 16 0) with
    pe := { sections := [
      { rva := 0x1000, virtual_size := 0x10, raw_offset := 0x200, raw_size := 0x10, characteristics := 0x20000000 }] } }

def nop_ret_ret : image_ref_t := small_code [0x90, 0xC3, 0xC3]

theorem gadgets_nop_ret_ret : GadgetsRight nop_ret_ret 200 5 := by
  have hsites : ret_sites nop_ret_ret = [0x140001001, 0x140001002] := by decide +kernel
  have hread : read_img nop_ret_ret 0x140001000 16 = some (0x90 :: 0xC3 :: 0xC3 :: List.replicate 13 0) := by decide +kernel
  have hread' : read_img nop_ret_ret 0x140001001 16 = some (0xC3 :: 0xC3 :: List.replicate 14 0) := by decide +kernel
  have hunread : ∀ back ∈ List.range' 3 13, code_at nop_ret_ret (0x140001002 - back.toUInt64) = none := by decide +kernel
  have hnop : decode_at nop_ret_ret 0x140001000 = some { va := 0x140001000, length := 1, mnemonic := .NOP } :=
    decode_at_of_read hread rfl (by decide)
  have hret : decode_at nop_ret_ret 0x140001001 = some { va := 0x140001001, length := 1, flow := .ret, mnemonic := .RET } :=
    decode_at_of_read hread' rfl (by decide)
  have hfeeds : Feeds nop_ret_ret 5 0x140001000 0x140001002 0x140001001 [{ va := 0x140001000, length := 1, mnemonic := .NOP }]
      { va := 0x140001001, length := 1, flow := .ret, mnemonic := .RET } :=
    ⟨by decide +kernel, ⟨hnop, rfl, by decide, rfl⟩, List.cons_ne_nil _ _, hret, rfl, rfl, by decide⟩
  refine (rop_gadgets_right nop_ret_ret 200 5 fun va buf insn hdecode his => ?_).mpr ⟨fun _ site hsite hgood => ?_, ?_⟩
  · rw [(small_decode_ret hdecode his).2]
    decide
  · rw [hsites, List.mem_cons, List.mem_singleton] at hsite
    rcases hsite with rfl | rfl
    · have hsite : 0x140001002 ∈ ret_sites nop_ret_ret := hsites ▸ List.mem_cons_of_mem _ (List.mem_singleton_self _)
      refine ⟨0x140001002, hsite, 2, _, _, by decide, by decide, hfeeds, ?_⟩
      intro nearer hpos hlt
      obtain rfl : nearer = 1 := by omega
      exact gadget_from_eq_none.mp (Option.isNone_iff_eq_none.mp (by decide +kernel))
    · -- behind the first `ret` no straight-line code ends
      obtain ⟨back, insns, hpos, hle, hne, hstraight, -⟩ := hgood
      obtain ⟨insn, insns, rfl⟩ := List.exists_cons_of_ne_nil hne
      obtain ⟨hdecode, hflow, hrest⟩ := hstraight
      obtain rfl | rfl | hfar : back = 1 ∨ back = 2 ∨ 3 ≤ back := by omega
      · obtain rfl := Option.some.inj ((insn_at_of_decode_at hret).symm.trans hdecode)
        cases hflow
      · obtain rfl := Option.some.inj ((insn_at_of_decode_at hnop).symm.trans hdecode)
        cases insns with
        | nil => exact absurd (show (0x140001001 : UInt64) = 0x140001002 from hrest) (by decide)
        | cons insn insns =>
          obtain rfl := Option.some.inj ((insn_at_of_decode_at hret).symm.trans hrest.1)
          cases hrest.2.1
      · rw [insn_at, hunread back (List.mem_range'_1.mpr ⟨hfar, by omega⟩)] at hdecode
        cases hdecode
  · rintro site ⟨before, after, hsplit, -⟩ q ⟨back, insns, ret, hnearest⟩
    have hsite : site ∈ ret_sites nop_ret_ret := hsplit ▸ List.mem_append_right before List.mem_cons_self
    obtain ⟨buf, hdecode⟩ := decode_of_insn_at (insn_at_of_decode_at hnearest.feeds.decode)
    have hends := hnearest.feeds.ends
    rw [(small_decode_ret hdecode hnearest.feeds.is_ret).1] at hends
    obtain rfl : q = site - 1 := hends ▸ (UInt64.add_sub_cancel q 1).symm
    rw [hsites, List.mem_cons, List.mem_singleton] at hsite
    rcases hsite with rfl | rfl
    · obtain rfl := Option.some.inj (hnop.symm.trans hnearest.feeds.decode)
      cases hnearest.feeds.is_ret
    · exact hsites ▸ List.mem_cons_self

/-- The `ret` right behind a `nop`. -/
theorem nop_ret_missed : ¬ GadgetsRight (small_code [0x90, 0xC3]) 200 5 := by
  have hnone : rop_gadgets (small_code [0x90, 0xC3]) 200 5 = [] := List.isEmpty_iff.mp (by decide +kernel)
  have hread : read_img (small_code [0x90, 0xC3]) 0x140001000 16 = some (0x90 :: 0xC3 :: List.replicate 14 0) := by decide +kernel
  have hnop : decode_at (small_code [0x90, 0xC3]) 0x140001000 = some { va := 0x140001000, length := 1, mnemonic := .NOP } :=
    decode_at_of_read hread rfl (by decide)
  intro h
  obtain ⟨g, hg, -⟩ := h.1 (by rw [hnone]; decide) 0x140001001 (by decide +kernel)
    ⟨1, [{ va := 0x140001000, length := 1, mnemonic := .NOP }], by decide, by decide, List.cons_ne_nil _ _, ⟨insn_at_of_decode_at hnop, rfl, rfl⟩,
      by decide⟩
  rw [hnone] at hg
  exact List.not_mem_nil hg

end slop.core.analysis.xray
