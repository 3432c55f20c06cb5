import ReverseSlop.Core.Analysis.Xray.Cfg
import ReverseSlop.Library.Spans

namespace slop.core.analysis.xray

open disasm (insn_t)
open Pieces (pieces mem_pieces pairwise_pieces exists_piece)

/-- Instructions one behind the other. -/
def Run : UInt64 → List insn_t → Prop
  | _, [] => True
  | va, insn :: insns => insn.va = va ∧ insn.length ≠ 0 ∧ Run (behind insn) insns

/-- The end of the instructions from an address on. -/
def range_end : UInt64 → List insn_t → UInt64
  | va, [] => va
  | _, insn :: insns => range_end (behind insn) insns

def extent (insns : List insn_t) : Nat := (insns.map fun insn => insn.length.toNat).sum

/-- A jump whose target the scan takes for a head. -/
def Branch (insn : insn_t) : Prop := insn.flow ≠ .ret ∧ insn.flow ≠ .call ∧ insn.has_rel_target = true

/-- A jump that ends the scan. -/
def Indirect (insn : insn_t) : Prop := insn.flow = .jmp ∧ insn.has_rel_target = false

/-- An instruction behind which the control need not go on. -/
def Leaves (insn : insn_t) : Prop := insn.flow = .ret ∨ insn.flow = .jmp ∨ insn.flow = .jcc

instance (insn : insn_t) : Decidable (Branch insn) := inferInstanceAs (Decidable (_ ∧ _ ∧ _))

instance (insn : insn_t) : Decidable (Indirect insn) := inferInstanceAs (Decidable (_ ∧ _))

instance (insn : insn_t) : Decidable (Leaves insn) := inferInstanceAs (Decidable (_ ∨ _ ∨ _))

/-- The instructions up to the first one that ends the scan. -/
def scanned : List insn_t → List insn_t
  | [] => []
  | insn :: insns => if Indirect insn then [insn] else insn :: scanned insns

section

variable {img : image_ref_t} {va : UInt64} {insns : List insn_t} {insn x y : insn_t}

theorem run_decode_range (end_va : UInt64) (max : Nat) (va : UInt64) : Run va (decode_range img end_va max va) := by
  induction max generalizing va with
  | zero => trivial
  | succ max ih =>
    rw [decode_range]
    split
    · trivial
    · split
      · trivial
      · split
        · trivial
        · rename_i insn hdecode
          split
          · trivial
          · rename_i hlength
            have hva := img.placed _ _ _ hdecode
            refine ⟨hva, hlength, ?_⟩
            rw [behind, hva]
            exact ih _

theorem length_decode_range (end_va : UInt64) (max : Nat) (va : UInt64) : (decode_range img end_va max va).length ≤ max := by
  induction max generalizing va with
  | zero => exact Nat.le_refl 0
  | succ max ih =>
    rw [decode_range]
    split
    · exact Nat.zero_le _
    · split
      · exact Nat.zero_le _
      · split
        · exact Nat.zero_le _
        · split
          · exact Nat.zero_le _
          · exact Nat.succ_le_succ (ih _)

theorem extent_le (insns : List insn_t) : extent insns ≤ 255 * insns.length := by
  induction insns with
  | nil => exact Nat.le_refl 0
  | cons insn insns ih =>
    have hlength := insn.length.toNat_lt
    simp only [extent, List.map_cons, List.sum_cons, List.length_cons] at ih ⊢
    omega

theorem length_pos (h : insn.length ≠ 0) : 0 < insn.length.toNat := by
  refine Nat.pos_of_ne_zero fun hzero => h ?_
  rw [← UInt8.toNat_inj, hzero]
  rfl

theorem toNat_behind (h : insn.va.toNat + insn.length.toNat < 2 ^ 64) :
    (behind insn).toNat = insn.va.toNat + insn.length.toNat := by
  rw [behind, UInt64.toNat_add, UInt8.toNat_toUInt64, Nat.mod_eq_of_lt h]

theorem toNat_range_end (hrun : Run va insns) : (range_end va insns).toNat = (va.toNat + extent insns) % 2 ^ 64 := by
  induction insns generalizing va with
  | nil =>
    have hva := va.toNat_lt
    simp only [range_end, extent, List.map_nil, List.sum_nil, Nat.add_zero]
    omega
  | cons insn insns ih =>
    obtain ⟨rfl, -, hrest⟩ := hrun
    rw [range_end, ih hrest, behind, UInt64.toNat_add, UInt8.toNat_toUInt64]
    simp only [extent, List.map_cons, List.sum_cons]
    omega

/-- Where the instructions of a run are. -/
structure Placed (va : UInt64) (insns : List insn_t) : Prop where
  inside : ∀ insn ∈ insns, va.toNat ≤ insn.va.toNat ∧ insn.va.toNat < (behind insn).toNat ∧
    (behind insn).toNat ≤ (range_end va insns).toNat ∧ (behind insn).toNat = insn.va.toNat + insn.length.toNat
  apart : insns.Pairwise fun x y => (behind x).toNat ≤ y.va.toNat
  located : ∀ a, va.toNat ≤ a → a < (range_end va insns).toNat → ∃ x ∈ insns, x.va.toNat ≤ a ∧ a < (behind x).toNat

theorem placed_of_run (hrun : Run va insns) (hfits : va.toNat + extent insns < 2 ^ 64) : Placed va insns := by
  induction insns generalizing va with
  | nil =>
    refine ⟨nofun, List.Pairwise.nil, fun a hle hlt => ?_⟩
    exact absurd hlt (Nat.not_lt.mpr hle)
  | cons insn insns ih =>
    have hend := toNat_range_end hrun
    obtain ⟨rfl, hlength, hrest⟩ := hrun
    have hpos := length_pos hlength
    simp only [extent, List.map_cons, List.sum_cons] at hfits hend
    have hbehind : (behind insn).toNat = insn.va.toNat + insn.length.toNat := toNat_behind (by omega)
    have hlater := ih hrest (by rw [hbehind, extent]; omega)
    refine ⟨List.forall_mem_cons.mpr ⟨⟨Nat.le_refl _, by omega, by omega, hbehind⟩, fun x hx => ?_⟩,
      List.pairwise_cons.mpr ⟨fun x hx => (hlater.inside x hx).1, hlater.apart⟩, fun a hle hlt => ?_⟩
    · obtain ⟨hge, hin⟩ := hlater.inside x hx
      exact ⟨by omega, hin⟩
    · by_cases hfirst : a < (behind insn).toNat
      · exact ⟨insn, List.mem_cons_self, hle, hfirst⟩
      · obtain ⟨x, hx, hin⟩ := hlater.located a (Nat.not_lt.mp hfirst) hlt
        exact ⟨x, List.mem_cons_of_mem insn hx, hin⟩

/-- Of two instructions one is behind the other. -/
theorem Placed.eq_of_meet (h : Placed va insns) (hx : x ∈ insns) (hy : y ∈ insns) (hxy : x.va.toNat < (behind y).toNat)
    (hyx : y.va.toNat < (behind x).toNat) : x = y := by
  let Meet (x y : insn_t) : Prop := x.va.toNat < (behind y).toNat → y.va.toNat < (behind x).toNat → x = y
  have hforward : insns.Pairwise Meet := h.apart.imp fun hle _ hlt => absurd hle (Nat.not_le.mpr hlt)
  have hback : insns.Pairwise (flip Meet) := h.apart.imp fun hle hlt _ => absurd hle (Nat.not_le.mpr hlt)
  exact List.Pairwise.forall_of_forall_of_flip (fun _ _ _ _ => rfl) hforward hback hx hy hxy hyx

/-- Behind an instruction is the next one, or the end. -/
theorem Placed.next (h : Placed va insns) (hx : x ∈ insns) (hnot : behind x ≠ range_end va insns) :
    ∃ y ∈ insns, y.va = behind x := by
  obtain ⟨hge, hlt, hle, -⟩ := h.inside x hx
  have hne : (behind x).toNat ≠ (range_end va insns).toNat := fun heq => hnot (UInt64.toNat_inj.mp heq)
  obtain ⟨y, hy, hyx, hxy⟩ := h.located (behind x).toNat (by omega) (by omega)
  refine ⟨y, hy, UInt64.toNat_inj.mp ?_⟩
  by_contra hoff
  have hsame := h.eq_of_meet hx hy (by omega) (by omega)
  subst hsame
  exact absurd hxy (Nat.lt_irrefl _)

theorem fits_tail (hrun : Run va (insn :: insns)) (hfits : va.toNat + extent (insn :: insns) < 2 ^ 64) :
    (behind insn).toNat + extent insns < 2 ^ 64 := by
  obtain ⟨rfl, -, -⟩ := hrun
  simp only [extent, List.map_cons, List.sum_cons] at hfits ⊢
  rw [toNat_behind (by omega)]
  omega

/-- All is scanned if an indirect jump is at the end only. -/
theorem scanned_eq (hrun : Run va insns) (hfits : va.toNat + extent insns < 2 ^ 64)
    (htail : ∀ insn ∈ insns, Indirect insn → behind insn = range_end va insns) : scanned insns = insns := by
  induction insns generalizing va with
  | nil => rfl
  | cons insn insns ih =>
    obtain ⟨hfirst, htail⟩ := List.forall_mem_cons.mp htail
    have hfits := fits_tail hrun hfits
    have hrest := hrun.2.2
    rw [scanned]
    split
    · rename_i hindirect
      cases insns with
      | nil => rfl
      | cons x insns =>
        obtain ⟨hge, hlt, hle, -⟩ := (placed_of_run hrest hfits).inside x List.mem_cons_self
        have hend : behind insn = range_end (behind insn) (x :: insns) := hfirst hindirect
        rw [← hend] at hle
        omega
    · rw [ih hrest hfits htail]

/-- The scan ends at the first indirect jump at the latest. -/
theorem range_end_scanned_le (hrun : Run va insns) (hfits : va.toNat + extent insns < 2 ^ 64) (hinsn : insn ∈ insns)
    (hindirect : Indirect insn) : (range_end va (scanned insns)).toNat ≤ (behind insn).toNat := by
  induction insns generalizing va with
  | nil => cases hinsn
  | cons x insns ih =>
    have hfits := fits_tail hrun hfits
    have hrest := hrun.2.2
    rw [scanned]
    split
    · rcases List.mem_cons.mp hinsn with rfl | hlater
      · exact Nat.le_refl _
      · obtain ⟨hge, hlt, -⟩ := (placed_of_run hrest hfits).inside insn hlater
        rw [range_end, range_end]
        omega
    · rename_i hnot
      refine ih hrest hfits ((List.mem_cons.mp hinsn).resolve_left ?_)
      rintro rfl
      exact hnot hindirect

theorem mem_of_mem_scanned (h : x ∈ scanned insns) : x ∈ insns := by
  induction insns with
  | nil => exact h
  | cons insn insns ih =>
    rw [scanned] at h
    split at h
    · rw [List.mem_singleton.mp h]
      exact List.mem_cons_self
    · rcases List.mem_cons.mp h with rfl | h
      · exact List.mem_cons_self
      · exact List.mem_cons_of_mem insn (ih h)

/-- The heads that a jump brings. -/
def HeadOf (insn : insn_t) (a : Nat) : Prop :=
  Branch insn ∧ (a = insn.rel_target.toNat ∨ (a = (behind insn).toNat ∧ behind insn < behind insn + 16))

theorem mem_branch {t : scan_t} {a : Nat} (hstop : t.stop = behind insn) (hbranch : Branch insn) :
    a ∈ (t.branch insn).heads ↔ HeadOf insn a ∨ a ∈ t.heads := by
  rw [HeadOf, and_iff_right hbranch, scan_t.branch]
  dsimp only
  split
  · rename_i hlt
    rw [hstop] at hlt
    rw [SortedSet.mem_insert, SortedSet.mem_insert, and_iff_left hlt]
    tauto
  · rename_i hnot
    rw [hstop] at hnot
    rw [SortedSet.mem_insert, iff_false_intro hnot, and_false, or_false]

theorem pairwise_branch {t : scan_t} (h : t.heads.Pairwise (· < ·)) (insn : insn_t) :
    (t.branch insn).heads.Pairwise (· < ·) := by
  rw [scan_t.branch]
  dsimp only
  split
  · exact SortedSet.pairwise_insert (SortedSet.pairwise_insert h _) _
  · exact SortedSet.pairwise_insert h _

/-- What a scan of instructions adds to what was found. -/
structure Found (t t' : scan_t) (insns : List insn_t) : Prop where
  stop : t'.stop = range_end t.stop insns
  sorted : t'.heads.Pairwise (· < ·)
  heads : ∀ a, a ∈ t'.heads ↔ a ∈ t.heads ∨ ∃ insn ∈ insns, HeadOf insn a
  edges : ∀ e ∈ t'.edges, e ∈ t.edges ∨ ∃ insn ∈ insns, Branch insn ∧ e.2 = insn.rel_target.toNat

theorem Found.skip {t t' : scan_t} (hnot : ¬ Branch insn) (h : Found { t with stop := behind insn } t' insns) :
    Found t t' (insn :: insns) := by
  refine ⟨h.stop, h.sorted, fun a => ?_, fun e he => ?_⟩
  · rw [h.heads, List.exists_mem_cons_iff, or_iff_right fun hhead : HeadOf insn a => hnot hhead.1]
  · rcases h.edges e he with hold | ⟨x, hx, hedge⟩
    · exact Or.inl hold
    · exact Or.inr ⟨x, List.mem_cons_of_mem insn hx, hedge⟩

theorem Found.branch {t t' : scan_t} (hbranch : Branch insn)
    (h : Found (scan_t.branch { t with stop := behind insn } insn) t' insns) : Found t t' (insn :: insns) := by
  refine ⟨h.stop, h.sorted, fun a => ?_, fun e he => ?_⟩
  · rw [h.heads, mem_branch rfl hbranch, List.exists_mem_cons_iff, or_assoc, or_left_comm]
  · rcases h.edges e he with hold | ⟨x, hx, hedge⟩
    · rcases List.mem_append.mp hold with hold | hnew
      · exact Or.inl hold
      · exact Or.inr ⟨insn, List.mem_cons_self, hbranch, by rw [List.mem_singleton.mp hnew]⟩
    · exact Or.inr ⟨x, List.mem_cons_of_mem insn hx, hedge⟩

theorem found_scan (insns : List insn_t) {t : scan_t} (h : t.heads.Pairwise (· < ·)) :
    Found t (scan insns t) (scanned insns) := by
  induction insns generalizing t with
  | nil => exact ⟨rfl, h, fun a => by simp [scan, scanned], fun e he => Or.inl he⟩
  | cons insn insns ih =>
    have hrest : Found { t with stop := behind insn } (scan insns { t with stop := behind insn }) (scanned insns) := ih h
    rw [scan, scanned]
    split
    · rename_i hflow
      have hindirect : ¬ Indirect insn := by
        rintro ⟨hjmp, -⟩
        rw [hjmp] at hflow
        simp at hflow
      rw [if_neg hindirect]
      exact hrest.skip fun hbranch => hflow.elim hbranch.1 hbranch.2.1
    · rename_i hflow
      rw [not_or] at hflow
      split
      · rename_i hrel
        have hindirect : ¬ Indirect insn := by
          rintro ⟨-, hnot⟩
          rw [hrel] at hnot
          cases hnot
        rw [if_neg hindirect]
        exact Found.branch ⟨hflow.1, hflow.2, hrel⟩ (ih (pairwise_branch (t := { t with stop := behind insn }) h insn))
      · rename_i hrel
        have hnot : ¬ Branch insn := fun hbranch => hrel hbranch.2.2
        split
        · rename_i hjmp
          rw [if_pos ⟨hjmp, Bool.not_eq_true _ ▸ hrel⟩]
          exact Found.skip hnot ⟨rfl, h, fun a => by simp, fun e he => Or.inl he⟩
        · rename_i hjmp
          rw [if_neg fun hindirect : Indirect insn => hjmp hindirect.1]
          exact hrest.skip hnot

end

section

variable {max_blocks stop n : Nat} {heads : List Nat} {blocks : List block_t} {insns : List insn_t}

def span (b : block_t) : Nat × Nat := (b.start, b.stop)

/-- The blocks are the pieces between the heads, if there are not too many. -/
theorem span_cut (h : cut max_blocks stop n heads = (blocks, false)) : blocks.map span = pieces stop heads := by
  induction heads generalizing n blocks with
  | nil =>
    cases h
    rfl
  | cons start heads ih =>
    rw [cut] at h
    rw [pieces]
    dsimp only at h
    split at h
    · rename_i hle
      rw [if_neg (Nat.not_lt.mpr hle)]
      exact ih h
    · rename_i hlt
      rw [if_pos (Nat.not_le.mp hlt)]
      split at h
      · cases h
      · cases hcut : cut max_blocks stop (n + 1) heads with
        | mk later truncated =>
          rw [hcut] at h
          cases h
          rw [List.map_cons, ih hcut]
          rfl

theorem span_count_instructions (insns : List insn_t) (blocks : List block_t) :
    (count_instructions insns blocks).map span = blocks.map span := by
  induction blocks generalizing insns with
  | nil => rfl
  | cons b blocks ih =>
    rw [count_instructions, List.map_cons, List.map_cons, ih]
    rfl

theorem add_successor_spec (b : block_t) (va : Nat) :
    span (b.add_successor va) = span b ∧ ∀ t ∈ (b.add_successor va).successors, t ∈ b.successors ∨ t = va := by
  rw [block_t.add_successor]
  split
  · exact ⟨rfl, fun t ht => Or.inl ht⟩
  · refine ⟨rfl, fun t ht => ?_⟩
    rwa [List.mem_append, List.mem_singleton] at ht

theorem modify_spec {f : block_t → block_t} (hf : ∀ b, span (f b) = span b) (i : Nat) (blocks : List block_t) :
    (blocks.modify i f).map span = blocks.map span ∧ ∀ b ∈ blocks.modify i f, ∃ c ∈ blocks, b = c ∨ b = f c := by
  induction blocks generalizing i with
  | nil => simp
  | cons b blocks ih =>
    cases i with
    | zero =>
      rw [List.modify_zero_cons, List.map_cons, List.map_cons, hf]
      refine ⟨rfl, List.forall_mem_cons.mpr ⟨⟨b, List.mem_cons_self, Or.inr rfl⟩, fun c hc => ?_⟩⟩
      exact ⟨c, List.mem_cons_of_mem b hc, Or.inl rfl⟩
    | succ i =>
      obtain ⟨hspan, hmem⟩ := ih i
      rw [List.modify_succ_cons, List.map_cons, List.map_cons, hspan]
      refine ⟨rfl, List.forall_mem_cons.mpr ⟨⟨b, List.mem_cons_self, Or.inl rfl⟩, fun c hc => ?_⟩⟩
      obtain ⟨d, hd, hor⟩ := hmem c hc
      exact ⟨d, List.mem_cons_of_mem b hd, hor⟩

end

/-- The successors of blocks. -/
def Targets (p : Nat → Prop) (blocks : List block_t) : Prop := ∀ b ∈ blocks, ∀ t ∈ b.successors, p t

section

variable {p : Nat → Prop} {blocks : List block_t} {b : block_t} {insns : List insn_t}

theorem Targets.add_successor (h : ∀ t ∈ b.successors, p t) {va : Nat} (hva : p va) :
    ∀ t ∈ (b.add_successor va).successors, p t := by
  intro t ht
  rcases (add_successor_spec b va).2 t ht with hold | rfl
  · exact h t hold
  · exact hva

theorem targets_cut (p : Nat → Prop) (max_blocks stop n : Nat) (heads : List Nat) :
    Targets p (cut max_blocks stop n heads).1 := by
  induction heads generalizing n with
  | nil => exact nofun
  | cons start heads ih =>
    rw [cut]
    dsimp only
    split
    · exact ih n
    · split
      · exact List.forall_mem_singleton.mpr nofun
      · exact List.forall_mem_cons.mpr ⟨nofun, ih (n + 1)⟩

theorem Targets.count_instructions (h : Targets p blocks) (insns : List insn_t) :
    Targets p (count_instructions insns blocks) := by
  induction blocks generalizing insns with
  | nil => exact h
  | cons b blocks ih =>
    obtain ⟨hb, hblocks⟩ := List.forall_mem_cons.mp h
    exact List.forall_mem_cons.mpr ⟨hb, ih hblocks _⟩

theorem add_edges_spec (edges : List (Nat × Nat)) (h : Targets p blocks) (hedges : ∀ e ∈ edges, p e.2) :
    (edges.foldl add_edge blocks).map span = blocks.map span ∧ Targets p (edges.foldl add_edge blocks) := by
  induction edges generalizing blocks with
  | nil => exact ⟨rfl, h⟩
  | cons e edges ih =>
    obtain ⟨he, hedges⟩ := List.forall_mem_cons.mp hedges
    have hstep : (add_edge blocks e).map span = blocks.map span ∧ Targets p (add_edge blocks e) := by
      rw [add_edge]
      split
      · rename_i i _
        obtain ⟨hspan, hmem⟩ := modify_spec (fun b => (add_successor_spec b e.2).1) i blocks
        refine ⟨hspan, fun b hb => ?_⟩
        obtain ⟨c, hc, rfl | rfl⟩ := hmem b hb
        · exact h b hc
        · exact Targets.add_successor (h c hc) he
      · exact ⟨rfl, h⟩
    obtain ⟨hspan, htargets⟩ := ih hstep.2 hedges
    exact ⟨hspan.trans hstep.1, htargets⟩

theorem add_fall_spec (starts : List Nat) (insns : List insn_t) (b : block_t) :
    span (b.add_fall starts insns) = span b ∧
      ∀ t ∈ (b.add_fall starts insns).successors, t ∈ b.successors ∨ t ∈ starts := by
  rw [block_t.add_fall]
  split
  · exact ⟨rfl, fun t ht => Or.inl ht⟩
  · split
    · rename_i hfall
      obtain ⟨hspan, hsuccessors⟩ := add_successor_spec b (behind _).toNat
      refine ⟨hspan, fun t ht => (hsuccessors t ht).imp_right ?_⟩
      rintro rfl
      exact hfall.2
    · exact ⟨rfl, fun t ht => Or.inl ht⟩

theorem add_falls_spec (insns : List insn_t) (h : Targets p blocks) (hstarts : ∀ b ∈ blocks, p b.start) :
    (blocks.map (block_t.add_fall (blocks.map block_t.start) insns)).map span = blocks.map span ∧
      Targets p (blocks.map (block_t.add_fall (blocks.map block_t.start) insns)) := by
  constructor
  · rw [List.map_map]
    exact List.map_congr_left fun b _ => (add_fall_spec _ _ b).1
  · intro b hb a ha
    obtain ⟨c, hc, rfl⟩ := List.mem_map.mp hb
    rcases (add_fall_spec _ _ c).2 a ha with hold | hstart
    · exact h c hc a hold
    · obtain ⟨d, hd, rfl⟩ := List.mem_map.mp hstart
      exact hstarts d hd

end

/-- Where the scan of instructions ends. -/
def scan_end (va : UInt64) (insns : List insn_t) : Nat := (range_end va (scanned insns)).toNat

/-- The target of a jump, or the start of a piece. -/
def IsTarget (va : UInt64) (insns : List insn_t) (heads : List Nat) (a : Nat) : Prop :=
  (∃ insn ∈ scanned insns, Branch insn ∧ a = insn.rel_target.toNat) ∨ ∃ q ∈ pieces (scan_end va insns) heads, q.1 = a

/-- Blocks that are the pieces between some heads. -/
structure CutAt (va : UInt64) (insns : List insn_t) (heads : List Nat) (blocks : List block_t) : Prop where
  sorted : heads.Pairwise (· < ·)
  mem : ∀ a, a ∈ heads ↔ (a = va.toNat ∨ ∃ insn ∈ scanned insns, HeadOf insn a) ∧ a ≤ scan_end va insns
  spans : blocks.map span = pieces (scan_end va insns) heads
  targets : Targets (IsTarget va insns heads) blocks

section

variable {img : image_ref_t} {va : UInt64} {max_blocks : Nat}

/-- The instructions of a function. -/
def fn_insns (img : image_ref_t) (fn_va : UInt64) : List insn_t := decode_range img (function_bound img fn_va) 8192 fn_va

/-- The blocks of a function are the pieces between its heads. -/
theorem cut_build_cfg (hok : (build_cfg img va max_blocks).ok = true)
    (hall : (build_cfg img va max_blocks).truncated = false) :
    fn_insns img va ≠ [] ∧ ∃ heads, CutAt va (fn_insns img va) heads (build_cfg img va max_blocks).blocks := by
  have hinsns : decode_range img (function_bound img va) 8192 va = fn_insns img va := rfl
  rw [build_cfg, hinsns] at hok hall ⊢
  split at hok
  · cases hok
  · rename_i hne
    rw [if_neg hne] at hall ⊢
    refine ⟨hne, ?_⟩
    dsimp only at hall ⊢
    have hfound := found_scan (fn_insns img va) (t := { heads := [va.toNat], stop := va }) (List.pairwise_singleton _ _)
    generalize scan (fn_insns img va) { heads := [va.toNat], stop := va } = t at hfound hall ⊢
    obtain ⟨hstop, hsorted, hheads, hedges⟩ := hfound
    have hend : t.stop.toNat = scan_end va (fn_insns img va) := by rw [hstop, scan_end]
    rw [hend] at hall ⊢
    generalize hlist : t.heads.filter (· ≤ scan_end va (fn_insns img va)) = heads at hall ⊢
    have hmem : ∀ a, a ∈ heads ↔
        (a = va.toNat ∨ ∃ insn ∈ scanned (fn_insns img va), HeadOf insn a) ∧ a ≤ scan_end va (fn_insns img va) := by
      intro a
      rw [← hlist, List.mem_filter, decide_eq_true_eq, hheads, List.mem_singleton]
    cases hcut : cut max_blocks (scan_end va (fn_insns img va)) 0 heads with
    | mk blocks truncated =>
      rw [hcut] at hall
      have htruncated : truncated = false := hall
      subst htruncated
      have hbare : Targets (IsTarget va (fn_insns img va) heads) blocks := by
        have htargets := targets_cut (IsTarget va (fn_insns img va) heads) max_blocks (scan_end va (fn_insns img va)) 0 heads
        rwa [hcut] at htargets
      obtain ⟨hspan, htargets⟩ := add_edges_spec t.edges (hbare.count_instructions (fn_insns img va)) fun e he =>
        Or.inl ((hedges e he).resolve_left nofun)
      rw [span_count_instructions, span_cut hcut] at hspan
      obtain ⟨hfinal, htargets⟩ := add_falls_spec (fn_insns img va) htargets fun b hb =>
        Or.inr ⟨span b, hspan ▸ List.mem_map_of_mem hb, rfl⟩
      exact ⟨heads, hlist ▸ hsorted.filter _, hmem, hfinal.trans hspan, htargets⟩

end

end slop.core.analysis.xray
