import Mathlib.Data.List.Sort
import ReverseSlop.Core.Memory.PointerScan.Levels

namespace slop.core.memory.pointer

open infra.limits (max_pointer_chains)

/-- Every link of a chain, a holder with its offset and the address behind it, is one of `R`. -/
structure pointer_chain_result_t.All (R : Nat → Int → Nat → Prop) (target : Nat) (chain : pointer_chain_result_t) : Prop where
  same_length : chain.addresses.length = chain.offsets.length
  link : ∀ i a off dest, chain.addresses[i]? = some a → chain.offsets[i]? = some off →
    (chain.addresses ++ [target])[i + 1]? = some dest → R a off dest

def node_t.All (R : Nat → Int → Nat → Prop) : node_t → Prop
  | .target _ => True
  | .holder addr off parent => R addr off parent.addr ∧ parent.All R

/-- The address where the node leads to. -/
def node_t.goal : node_t → Nat
  | .target addr => addr
  | .holder _ _ parent => parent.goal

variable {mem : memory_t} {lib : edge_sort_t} {regions : List scan_region_t} {tok : cancel_token_t}
  {opt : pointer_scan_options_t} {edges : List edge_t} {x : node_t} {nodes : List node_t}
  {R S : Nat → Int → Nat → Prop} {chain : pointer_chain_result_t} {results : List pointer_chain_result_t}

theorem node_t.All.imp (himp : ∀ a off dest, R a off dest → S a off dest) (hx : x.All R) : x.All S := by
  induction x with
  | target => trivial
  | holder addr off parent ih => exact ⟨himp _ _ _ hx.1, ih hx.2⟩

theorem length_chain (x : node_t) : x.chain.addresses.length = x.size ∧ x.chain.offsets.length = x.size := by
  induction x with
  | target => exact ⟨rfl, rfl⟩
  | holder addr off parent ih => exact ⟨congrArg (· + 1) ih.1, congrArg (· + 1) ih.2⟩

theorem head_chain (x : node_t) : (x.chain.addresses ++ [x.goal])[0]? = some x.addr := by
  cases x <;> rfl

/-- The links of a node are those of its chain. -/
theorem all_chain_iff (x : node_t) : x.chain.All R x.goal ↔ x.All R := by
  induction x with
  | target => exact iff_of_true ⟨rfl, by rintro i a off dest ⟨⟩⟩ trivial
  | holder addr off parent ih =>
    rw [node_t.All, ← ih]
    constructor
    · rintro ⟨hlength, hlink⟩
      refine ⟨hlink 0 addr off parent.addr rfl rfl (head_chain parent), Nat.succ.inj hlength, fun i => ?_⟩
      exact hlink (i + 1)
    · rintro ⟨hfirst, hlength, hlink⟩
      refine ⟨congrArg (· + 1) hlength, fun i a off' dest ha hoff hdest => ?_⟩
      cases i with
      | zero =>
        obtain rfl := Option.some.inj ha
        obtain rfl := Option.some.inj hoff
        obtain rfl := Option.some.inj ((head_chain parent).symm.trans hdest)
        exact hfirst
      | succ i => exact hlink i a off' dest ha hoff hdest

/-- The node with given holders and offsets. -/
def node_of (target : Nat) : List Nat → List Int → node_t
  | a :: addresses, off :: offsets => .holder a off (node_of target addresses offsets)
  | _, _ => .target target

theorem node_of_spec (target : Nat) {addresses : List Nat} {offsets : List Int} (hlength : addresses.length = offsets.length) :
    (node_of target addresses offsets).chain = ⟨addresses, offsets⟩ ∧ (node_of target addresses offsets).goal = target := by
  induction addresses generalizing offsets with
  | nil =>
    obtain rfl := List.length_eq_zero_iff.mp hlength.symm
    exact ⟨rfl, rfl⟩
  | cons a addresses ih =>
    cases offsets with
    | nil => cases hlength
    | cons off offsets =>
      obtain ⟨hchain, hgoal⟩ := ih (Nat.succ.inj hlength)
      exact ⟨by simp [node_of, node_t.chain, hchain], hgoal⟩

theorem getLast_chain (hsize : 0 < x.size) : x.chain.addresses.getLast? = some x.root.addr := by
  induction x with
  | target => cases hsize
  | holder addr off parent ih =>
    cases parent with
    | target dest => rfl
    | holder addr' off' parent' =>
      rw [node_t.chain, node_t.chain]
      exact List.getLast?_cons_cons.trans (ih (Nat.succ_pos _))

/-- An edge from a holder leads to an address inside of the window. -/
def EdgeLink (opt : pointer_scan_options_t) (edges : List edge_t) (a : Nat) (off : Int) (dest : Nat) : Prop :=
  ∃ e ∈ edges, e.holder = a ∧ offset dest e.value = off ∧ opt.min_off ≤ off ∧ off ≤ opt.max_off ∧ InWindow opt dest off

/-- Edges as the sweep leaves them. -/
structure Swept (mem : memory_t) (opt : pointer_scan_options_t) (edges : List edge_t) : Prop where
  sorted : edges.Pairwise fun a b => a.value ≤ b.value
  holds : ∀ e ∈ edges, Holds mem opt.align e

theorem qword_lt {a v : Nat} (hqword : mem.qword a = some v) : v < 2 ^ 64 := by
  obtain ⟨bytes, hread, rfl⟩ := Option.map_eq_some_iff.mp hqword
  have hlt := Bytes.of_le_lt bytes
  rwa [mem.read_length hread] at hlt

theorem Holds.lt {align : Nat} {e : edge_t} (he : Holds mem align e) : e.holder < 2 ^ 64 := by
  have hspace := he.in_space
  have hend : user_space_end < 2 ^ 64 := by decide
  omega

theorem Swept.addr_lt (hedges : Swept mem opt edges) (hgoal : x.goal = opt.target.toNat) (hall : x.All (EdgeLink opt edges)) :
    x.addr < 2 ^ 64 := by
  cases x with
  | target addr =>
    obtain rfl : addr = opt.target.toNat := hgoal
    exact opt.target.toNat_lt
  | holder addr off parent =>
    obtain ⟨e, he, rfl, -⟩ := hall.1
    exact (hedges.holds e he).lt

theorem found_iff (hedges : Swept mem opt edges) :
    Found opt edges x ↔ x.goal = opt.target.toNat ∧ x.All (EdgeLink opt edges) := by
  induction x with
  | target addr => exact (and_iff_left trivial).symm
  | holder addr off parent ih =>
    rw [Found, ih, node_t.goal, node_t.All, and_left_comm]
    refine and_congr_right fun hgoal => and_congr_left fun hall => ?_
    rw [mem_links hedges.sorted (fun e he => qword_lt (hedges.holds e he).qword) (hedges.addr_lt hgoal hall)]
    refine exists_congr fun e => and_congr_right fun _ => ?_
    constructor
    · rintro ⟨heq, hwindow⟩
      cases heq
      exact ⟨rfl, rfl, hwindow⟩
    · rintro ⟨rfl, rfl, hwindow⟩
      exact ⟨rfl, hwindow⟩

/-- The chain may be reported. -/
def Passes (opt : pointer_scan_options_t) (regions : List scan_region_t) (x : node_t) : Prop :=
  opt.only_module_backed → in_module_backed x.root.addr regions

theorem mem_build_chains (hchain : chain ∈ (build_chains opt regions nodes results).1) :
    chain ∈ results ∨ ∃ x ∈ nodes, Passes opt regions x ∧ x.chain = chain := by
  induction nodes generalizing results with
  | nil => exact Or.inl hchain
  | cons node nodes ih =>
    rw [build_chains] at hchain
    have hlater : (∃ x ∈ nodes, Passes opt regions x ∧ x.chain = chain) →
        ∃ x ∈ node :: nodes, Passes opt regions x ∧ x.chain = chain :=
      fun ⟨x, hx, hchain⟩ => ⟨x, List.mem_cons_of_mem _ hx, hchain⟩
    split at hchain
    · exact Or.inl hchain
    split at hchain
    · exact (ih hchain).imp_right hlater
    case isFalse hpass =>
      rcases ih hchain with hchain | hchain
      · rcases List.mem_append.mp hchain with hchain | hchain
        · exact Or.inl hchain
        · refine Or.inr ⟨node, List.mem_cons_self, fun honly => ?_, (List.mem_singleton.mp hchain).symm⟩
          by_contra hnot
          exact hpass ⟨honly, by simpa using hnot⟩
      · exact Or.inr (hlater hchain)

theorem build_chains_keeps (hroom : (build_chains opt regions nodes results).2 = false) :
    results ⊆ (build_chains opt regions nodes results).1 ∧
      ∀ x ∈ nodes, Passes opt regions x → x.chain ∈ (build_chains opt regions nodes results).1 := by
  induction nodes generalizing results with
  | nil => exact ⟨List.Subset.refl _, by rintro x ⟨⟩⟩
  | cons node nodes ih =>
    rw [build_chains] at hroom ⊢
    split at hroom
    · cases hroom
    case isFalse hlt =>
      rw [if_neg hlt]
      split at hroom
      case isTrue hout =>
        rw [if_pos hout]
        obtain ⟨hsub, hkeeps⟩ := ih hroom
        refine ⟨hsub, List.forall_mem_cons.mpr ⟨fun hpass => ?_, hkeeps⟩⟩
        have hin := hpass hout.1
        rw [hin] at hout
        cases hout.2
      case isFalse hin =>
        rw [if_neg hin]
        obtain ⟨hsub, hkeeps⟩ := ih hroom
        refine ⟨fun c hc => hsub (List.mem_append_left _ hc), List.forall_mem_cons.mpr ⟨fun _ => ?_, hkeeps⟩⟩
        exact hsub (List.mem_append_right _ List.mem_cons_self)

/-- The edges in the order of their values. -/
def sorted_edges (mem : memory_t) (lib : edge_sort_t) (regions : List scan_region_t) (opt : pointer_scan_options_t)
    (tok : cancel_token_t) : List edge_t := lib.sort (swept mem opt regions tok).1.edges

theorem sorted_edges_swept : Swept mem opt (sorted_edges mem lib regions opt tok) where
  sorted := lib.sorted _
  holds e he := swept_sound opt e ((lib.perm _).mem_iff.mp he)

theorem target_found : ∀ x ∈ [node_t.target opt.target.toNat], Found opt edges x ∧ x.size = 0 := by
  intro x hx
  obtain rfl := List.mem_singleton.mp hx
  exact ⟨rfl, rfl⟩

theorem search_sound (hx : x ∈ (search lib opt tok (swept mem opt regions tok)).1) :
    Found opt (sorted_edges mem lib regions opt tok) x ∧ 0 < x.size ∧ x.size ≤ opt.levels := by
  rw [search] at hx
  split at hx
  · obtain ⟨hfound, hpos, hle⟩ := (expand_sound target_found hx).resolve_left List.not_mem_nil
    exact ⟨hfound, hpos, by omega⟩
  · cases hx

theorem links_nil (opt : pointer_scan_options_t) (node : node_t) : links opt [] node = [] := by
  rw [links]
  split <;> rfl

theorem search_complete (hlive : ∀ n, tok.cancelled n = false)
    (hroom : (search lib opt tok (swept mem opt regions tok)).2.truncated = false) :
    (swept mem opt regions tok).1.stats.truncated = false ∧
      ∀ x, Found opt (sorted_edges mem lib regions opt tok) x → 0 < x.size → x.size ≤ opt.levels →
        x ∈ (search lib opt tok (swept mem opt regions tok)).1 := by
  have hcancelled : (swept mem opt regions tok).1.stats.cancelled = false := sweep_spans_cancelled hlive _ _ _
  rw [search] at hroom ⊢
  simp only [hcancelled, hlive, Bool.or_self, Bool.not_false, and_true] at hroom ⊢
  split at hroom
  case isTrue hne =>
    rw [if_pos hne]
    have hswept := expand_grows.2 hroom
    refine ⟨hswept, fun x hfound hpos hle => expand_complete hlive ?_ hroom hfound hpos (by omega)⟩
    intro y hy hsize
    cases y with
    | target addr =>
      obtain rfl : addr = opt.target.toNat := hy
      exact List.mem_cons_self
    | holder => cases hsize
  case isFalse hnil =>
    refine ⟨hroom, fun x hfound hpos hle => ?_⟩
    have hedges : sorted_edges mem lib regions opt tok = [] := by
      have hperm := lib.perm (swept mem opt regions tok).1.edges
      rw [not_ne_iff.mp hnil] at hperm
      rw [sorted_edges, not_ne_iff.mp hnil]
      exact hperm.eq_nil
    cases x with
    | target => cases hpos
    | holder addr off parent =>
      have hlink := hfound.1
      rw [hedges, links_nil] at hlink
      cases hlink

/-- Every chain is the one of a node that has been found. -/
theorem mem_pointer_scan (hchain : chain ∈ (pointer_scan mem.reader lib regions opt tok).1) :
    ∃ x, Found opt (sorted_edges mem lib regions opt tok) x ∧ 0 < x.size ∧ x.size ≤ opt.levels ∧ Passes opt regions x ∧
      x.chain = chain := by
  obtain ⟨x, hx, hpass, hchain⟩ := (mem_build_chains hchain).resolve_left List.not_mem_nil
  obtain ⟨hfound, hpos, hle⟩ := search_sound hx
  exact ⟨x, hfound, hpos, hle, hpass, hchain⟩

/-- A scan that has not been cut short reports the chains of all the nodes. -/
theorem mem_pointer_scan_iff (hlive : ∀ n, tok.cancelled n = false)
    (hroom : (pointer_scan mem.reader lib regions opt tok).2.truncated = false) :
    chain ∈ (pointer_scan mem.reader lib regions opt tok).1 ↔
      ∃ x, Found opt (sorted_edges mem lib regions opt tok) x ∧ 0 < x.size ∧ x.size ≤ opt.levels ∧ Passes opt regions x ∧
        x.chain = chain := by
  refine ⟨mem_pointer_scan, ?_⟩
  rintro ⟨x, hfound, hpos, hle, hpass, rfl⟩
  obtain ⟨hsearch, hbuilt⟩ := Bool.or_eq_false_iff.mp hroom
  exact (build_chains_keeps hbuilt).2 x ((search_complete hlive hsearch).2 x hfound hpos hle) hpass

theorem mem_sorted_edges_iff (hlive : ∀ n, tok.cancelled n = false)
    (hroom : (pointer_scan mem.reader lib regions opt tok).2.truncated = false) (e : edge_t) :
    e ∈ sorted_edges mem lib regions opt tok ↔ Holds mem opt.align e ∧ Covered mem opt regions e.holder := by
  obtain ⟨hsearch, -⟩ := Bool.or_eq_false_iff.mp hroom
  rw [← swept_iff hlive (search_complete hlive hsearch).1]
  exact (lib.perm _).mem_iff

/-- The qword at `a` and an offset within the limits give `dest`. -/
def Link (mem : memory_t) (opt : pointer_scan_options_t) (a : Nat) (off : Int) (dest : Nat) : Prop :=
  opt.min_offset.toInt ≤ off ∧ off ≤ opt.max_offset.toInt ∧ ∃ v, mem.qword a = some v ∧ ((v : Int) + off) % 2 ^ 64 = dest

/-- A chain of links up to the target that is not too long. -/
structure Sound (mem : memory_t) (opt : pointer_scan_options_t) (chain : pointer_chain_result_t) : Prop where
  links : chain.All (Link mem opt) opt.target.toNat
  depth_le : chain.addresses.length ≤ opt.levels

/-- Every chain of a pointer scan leads to the target. -/
theorem pointer_scan_sound (mem : memory_t) (lib : edge_sort_t) (regions : List scan_region_t) (opt : pointer_scan_options_t)
    (tok : cancel_token_t) (hlimits : opt.min_offset ≤ opt.max_offset) :
    ∀ chain ∈ (pointer_scan mem.reader lib regions opt tok).1, Sound mem opt chain := by
  intro chain hchain
  obtain ⟨x, hfound, -, hle, -, rfl⟩ := mem_pointer_scan hchain
  have hedges : Swept mem opt (sorted_edges mem lib regions opt tok) := sorted_edges_swept
  obtain ⟨hgoal, hall⟩ := (found_iff hedges).mp hfound
  have hmax : opt.max_off = opt.max_offset.toInt := max_eq_left (Int32.le_iff_toInt_le.mp hlimits)
  refine ⟨hgoal ▸ (all_chain_iff x).mpr ?_, (length_chain x).1.trans_le hle⟩
  -- the addresses of all the nodes behind are words
  have hlinks : ∀ x : node_t, x.goal = opt.target.toNat → x.All (EdgeLink opt (sorted_edges mem lib regions opt tok)) →
      x.All (Link mem opt) := by
    intro x hgoal hall
    induction x with
    | target => trivial
    | holder addr off parent ih =>
      obtain ⟨⟨e, he, rfl, rfl, hmin, hle, -⟩, hrest⟩ := hall
      refine ⟨⟨hmin, hmax ▸ hle, e.value, (hedges.holds e he).qword, ?_⟩, ih hgoal hrest⟩
      exact (offset_spec (hedges.addr_lt (x := parent) hgoal hrest) e.value).1
  exact hlinks x hgoal hall

def sort_by_value : edge_sort_t where
  sort l := l.mergeSort fun a b => a.value ≤ b.value
  perm l := List.mergeSort_perm l _
  sorted l := by
    refine (List.pairwise_mergeSort (fun a b c hab hbc => ?_) (fun a b => ?_) l).imp fun hab => of_decide_eq_true hab
    · simp only [decide_eq_true_eq] at *
      omega
    · simp only [Bool.or_eq_true, decide_eq_true_eq]
      omega

/-- A region of two qwords. -/
def sixteen_bytes : scan_region_t := ⟨0x10000, 16, 0, 0, by decide⟩

theorem sound_in_sixteen_bytes :
    Sound (planted 0x10000 [0, 0, 2, 0, 0, 0, 0, 0, 0, 0, 0, 0, 0, 0, 0, 0]) { target := 0x20000 } ⟨[0x10000], [0]⟩ := by
  refine pointer_scan_sound _ sort_by_value [sixteen_bytes] _ ⟨fun _ => false⟩ (by decide) _ ?_
  decide +kernel

variable {target : Nat}

/-- A chain to the target that a scan should report. -/
structure Wanted (mem : memory_t) (opt : pointer_scan_options_t) (regions : List scan_region_t)
    (chain : pointer_chain_result_t) : Prop where
  links : chain.All (Link mem opt) opt.target.toNat
  aligned : ∀ a ∈ chain.addresses, opt.align ∣ a
  inside : ∀ a ∈ chain.addresses, ∃ reg ∈ regions, reg.Holds a 8
  not_null : ∀ a ∈ chain.addresses, mem.qword a ≠ some 0
  some_link : chain.addresses ≠ []
  depth_le : chain.addresses.length ≤ opt.levels

/-- The sweep reads all the holders and the search accepts all the offsets, and the filter lets the chain pass. -/
structure Visible (mem : memory_t) (opt : pointer_scan_options_t) (regions : List scan_region_t)
    (chain : pointer_chain_result_t) : Prop where
  covered : ∀ a ∈ chain.addresses, Covered mem opt regions a
  in_window : chain.All (fun _ off dest => InWindow opt dest off) opt.target.toNat
  backed : opt.only_module_backed → ∀ a ∈ chain.addresses.getLast?, in_module_backed a regions

theorem node_t.All.and (hR : x.All R) (hS : x.All S) : x.All fun a off dest => R a off dest ∧ S a off dest := by
  induction x with
  | target => trivial
  | holder addr off parent ih => exact ⟨⟨hR.1, hS.1⟩, ih hR.2 hS.2⟩

theorem all_of_addresses {P : Nat → Prop} (hP : ∀ a ∈ x.chain.addresses, P a) : x.All fun a _ _ => P a := by
  induction x with
  | target => trivial
  | holder addr off parent ih =>
    obtain ⟨hfirst, hrest⟩ := List.forall_mem_cons.mp hP
    exact ⟨hfirst, ih hrest⟩

theorem addresses_of_all {P : Nat → Prop} (hx : x.All fun a _ _ => P a) : ∀ a ∈ x.chain.addresses, P a := by
  induction x with
  | target => rintro a ⟨⟩
  | holder addr off parent ih => exact List.forall_mem_cons.mpr ⟨hx.1, ih hx.2⟩

/-- The node of a chain. -/
theorem exists_node (hlength : chain.addresses.length = chain.offsets.length) (target : Nat) :
    ∃ x : node_t, x.chain = chain ∧ x.goal = target :=
  ⟨_, node_of_spec target hlength⟩

/-- A chain that a scan should report is reported exactly if it is visible. -/
theorem wanted_reported_iff (hlive : ∀ n, tok.cancelled n = false)
    (hroom : (pointer_scan mem.reader lib regions opt tok).2.truncated = false) (hwanted : Wanted mem opt regions chain) :
    chain ∈ (pointer_scan mem.reader lib regions opt tok).1 ↔ Visible mem opt regions chain := by
  have hedges : Swept mem opt (sorted_edges mem lib regions opt tok) := sorted_edges_swept
  rw [mem_pointer_scan_iff hlive hroom]
  constructor
  · rintro ⟨x, hfound, hpos, -, hpass, rfl⟩
    obtain ⟨hgoal, hall⟩ := (found_iff hedges).mp hfound
    refine ⟨addresses_of_all (hall.imp fun a off dest hlink => ?_), hgoal ▸ (all_chain_iff x).mpr (hall.imp fun a off dest hlink => ?_),
      fun honly a ha => ?_⟩
    · obtain ⟨e, he, rfl, -⟩ := hlink
      exact ((mem_sorted_edges_iff hlive hroom e).mp he).2
    · obtain ⟨e, -, -, -, -, -, hwindow⟩ := hlink
      exact hwindow
    · rw [getLast_chain hpos] at ha
      obtain rfl := Option.some.inj ha
      exact hpass honly
  · rintro ⟨hcovered, hwindow, hbacked⟩
    obtain ⟨x, rfl, hgoal⟩ := exists_node hwanted.links.same_length opt.target.toNat
    have hsize := (length_chain x).1
    have hpos : 0 < x.size := hsize ▸ List.length_pos_iff.mpr hwanted.some_link
    refine ⟨x, (found_iff hedges).mpr ⟨hgoal, ?_⟩, hpos, hsize ▸ hwanted.depth_le, fun honly => ?_, rfl⟩
    · have hlinks := (all_chain_iff x).mp (hgoal ▸ hwanted.links)
      have hwindows := (all_chain_iff x).mp (hgoal ▸ hwindow)
      have hholders := all_of_addresses (P := fun a => opt.align ∣ a ∧ (∃ reg ∈ regions, reg.Holds a 8) ∧ mem.qword a ≠ some 0 ∧
        Covered mem opt regions a) fun a ha =>
          ⟨hwanted.aligned a ha, hwanted.inside a ha, hwanted.not_null a ha, hcovered a ha⟩
      refine ((hlinks.and hwindows).and hholders).imp ?_
      rintro a off dest ⟨⟨⟨hmin, hmax, v, hqword, hdest⟩, hin⟩, haligned, ⟨reg, -, hreg⟩, hnull, hcov⟩
      have hspace := reg.in_user_space
      obtain ⟨hlo, hhi⟩ := hreg
      have hword : dest < 2 ^ 64 := by omega
      have hle : opt.max_offset.toInt ≤ opt.max_off := le_max_left _ _
      obtain ⟨hge, -, hlt⟩ := off_bounds opt
      have hge' : opt.min_offset.toInt = opt.min_off := rfl
      refine ⟨⟨v, a⟩, (mem_sorted_edges_iff hlive hroom _).mpr ⟨⟨haligned, by dsimp only; omega, hqword, ?_⟩, hcov⟩, rfl,
        offset_unique hword hdest (by omega) (by omega), hmin, hmax.trans hle, hin⟩
      rintro rfl
      exact hnull hqword
    · exact hbacked honly _ (getLast_chain hpos)

/-- A scan that has not been cut short reports all the chains exactly if all of them are visible: each holder is
in one readable piece of one chunk, and no offset counts past either end of the address space. -/
theorem pointer_scan_complete_iff (hlive : ∀ n, tok.cancelled n = false)
    (hroom : (pointer_scan mem.reader lib regions opt tok).2.truncated = false) :
    (∀ chain, Wanted mem opt regions chain → chain ∈ (pointer_scan mem.reader lib regions opt tok).1) ↔
      ∀ chain, Wanted mem opt regions chain → Visible mem opt regions chain :=
  forall₂_congr fun _ hwanted => wanted_reported_iff hlive hroom hwanted

/-- A qword with the address `0x20000`. -/
def one_pointer : memory_t := planted 0x10000 [0, 0, 2, 0, 0, 0, 0, 0]

/-- The region of the qword alone. -/
def eight_bytes : scan_region_t := ⟨0x10000, 8, 0, 0, by decide⟩

theorem eight_bytes_skipped :
    pointer_scan one_pointer.reader sort_by_value [eight_bytes] { target := 0x20000 } ⟨fun _ => false⟩ = ([], {}) := by
  have hspans : aligned_spans (pointer_scan_options_t.align { target := 0x20000 }) [eight_bytes] = [] := by decide
  rw [pointer_scan, hspans]
  rfl

theorem eight_bytes_complete_iff :
    (∀ chain, Wanted one_pointer { target := 0x20000 } [eight_bytes] chain →
        chain ∈ (pointer_scan one_pointer.reader sort_by_value [eight_bytes] { target := 0x20000 } ⟨fun _ => false⟩).1) ↔
      ∀ chain, Wanted one_pointer { target := 0x20000 } [eight_bytes] chain →
        Visible one_pointer { target := 0x20000 } [eight_bytes] chain :=
  pointer_scan_complete_iff (fun _ => rfl) (by rw [eight_bytes_skipped])

/-- The only qword of its region is not found. -/
theorem last_qword_missed : ¬ ∀ (mem : memory_t) (lib : edge_sort_t) (regions : List scan_region_t)
    (opt : pointer_scan_options_t) (tok : cancel_token_t), (∀ n, tok.cancelled n = false) →
    (pointer_scan mem.reader lib regions opt tok).2.truncated = false →
    ∀ chain, Wanted mem opt regions chain → chain ∈ (pointer_scan mem.reader lib regions opt tok).1 := by
  intro hcomplete
  have hchain := hcomplete one_pointer sort_by_value [eight_bytes] { target := 0x20000 } ⟨fun _ => false⟩ (fun _ => rfl)
    (by rw [eight_bytes_skipped]) ⟨[0x10000], [0]⟩ ?_
  · rw [eight_bytes_skipped] at hchain
    cases hchain
  have hqword : one_pointer.qword 0x10000 = some 0x20000 := by decide
  refine ⟨⟨rfl, fun i a off dest ha hoff hdest => ?_⟩, List.forall_mem_singleton.mpr (by decide),
    List.forall_mem_singleton.mpr ⟨eight_bytes, List.mem_cons_self, by decide⟩,
    List.forall_mem_singleton.mpr (by rw [hqword]; decide), by rintro ⟨⟩, by decide⟩
  cases i with
  | zero =>
    obtain rfl := Option.some.inj ha
    obtain rfl := Option.some.inj hoff
    obtain rfl := Option.some.inj hdest
    exact ⟨by decide, by decide, 0x20000, hqword, by decide⟩
  | succ i => cases ha

/-- The chains that a scan finds, whichever of them it reports. -/
def candidates (r : reader_t) (lib : edge_sort_t) (regions : List scan_region_t) (opt : pointer_scan_options_t)
    (tok : cancel_token_t) : List pointer_chain_result_t :=
  (search lib opt tok (sweep_spans r tok opt.align (aligned_spans opt.align regions) 0 {})).1.map node_t.chain

/-- The holder from which the chain is followed is in a region of an image. -/
def pointer_chain_result_t.RootBacked (regions : List scan_region_t) (chain : pointer_chain_result_t) : Bool :=
  chain.addresses.head?.any fun a => in_module_backed a regions

/-- The holder in front of the target is. -/
def pointer_chain_result_t.LastBacked (regions : List scan_region_t) (chain : pointer_chain_result_t) : Bool :=
  chain.addresses.getLast?.any fun a => in_module_backed a regions

/-- The reported chains are the candidates with their root in an image, if there is room for all. -/
def FiltersByRoot (regions : List scan_region_t) (found reported : List pointer_chain_result_t) : Prop :=
  (∀ chain ∈ reported, chain ∈ found ∧ chain.RootBacked regions) ∧
    (reported.length < max_pointer_chains → ∀ chain ∈ found, chain.RootBacked regions → chain ∈ reported)

/-- The root of a candidate is in an image as its last holder is, as far as there is room. -/
def EndsAgree (regions : List scan_region_t) (found : List pointer_chain_result_t) : Prop :=
  let kept := found.filter (pointer_chain_result_t.LastBacked regions)
  (∀ chain ∈ kept.take max_pointer_chains, chain.RootBacked regions) ∧
    (kept.length < max_pointer_chains → ∀ chain ∈ found, chain.RootBacked regions → chain.LastBacked regions)

section

variable {regions : List scan_region_t} {opt : pointer_scan_options_t} {nodes : List node_t} {tok : cancel_token_t}
  {lib : edge_sort_t} {sw : sweep_t × Nat} {x : node_t} {results : List pointer_chain_result_t}

theorem search_pos (hx : x ∈ (search lib opt tok sw).1) : 0 < x.size := by
  rw [search] at hx
  split at hx
  · exact ((expand_sound target_found hx).resolve_left List.not_mem_nil).2.1
  · cases hx

/-- The chain at which the walk over the parents ends. -/
theorem lastBacked_chain (hsize : 0 < x.size) : x.chain.LastBacked regions = in_module_backed x.root.addr regions := by
  rw [pointer_chain_result_t.LastBacked, getLast_chain hsize, Option.any_some]

/-- With the filter the chains whose last holder is in an image are reported, up to the limit. -/
theorem build_chains_eq (hfilter : opt.only_module_backed = true) (hpos : ∀ x ∈ nodes, 0 < x.size) :
    (build_chains opt regions nodes results).1 =
      results ++ ((nodes.map node_t.chain).filter (pointer_chain_result_t.LastBacked regions)).take
        (max_pointer_chains - results.length) := by
  induction nodes generalizing results with
  | nil => simp [build_chains]
  | cons node nodes ih =>
    obtain ⟨hnode, hpos⟩ := List.forall_mem_cons.mp hpos
    rw [build_chains, List.map_cons, List.filter_cons, lastBacked_chain hnode]
    split
    · rename_i hfull
      rw [Nat.sub_eq_zero_of_le hfull, List.take_zero, List.append_nil]
    rename_i hroom
    split
    · rename_i hout
      have hin : in_module_backed node.root.addr regions = false := by simpa using hout.2
      rw [ih hpos, hin, if_neg Bool.false_ne_true]
    · rename_i hin
      have hin : in_module_backed node.root.addr regions = true := by simpa [hfilter] using hin
      obtain ⟨n, hn⟩ : ∃ n, max_pointer_chains - results.length = n + 1 := ⟨max_pointer_chains - results.length - 1, by omega⟩
      rw [ih hpos, hin, if_pos rfl, hn, List.take_succ_cons, List.length_append, List.length_singleton, List.append_assoc,
        show max_pointer_chains - (results.length + 1) = n by omega]
      rfl

end

theorem pointer_scan_eq (r : reader_t) (lib : edge_sort_t) (regions : List scan_region_t) (opt : pointer_scan_options_t)
    (tok : cancel_token_t) :
    (pointer_scan r lib regions { opt with only_module_backed := true } tok).1 =
      ((candidates r lib regions { opt with only_module_backed := true } tok).filter
        (pointer_chain_result_t.LastBacked regions)).take max_pointer_chains := by
  rw [pointer_scan, candidates]
  exact build_chains_eq rfl fun x hx => search_pos hx

/-- The chains with their root in an image are reported exactly when the last holders are in an image where the roots are. -/
theorem module_filter_iff (r : reader_t) (lib : edge_sort_t) (regions : List scan_region_t) (opt : pointer_scan_options_t)
    (tok : cancel_token_t) :
    FiltersByRoot regions (candidates r lib regions { opt with only_module_backed := true } tok)
        (pointer_scan r lib regions { opt with only_module_backed := true } tok).1 ↔
      EndsAgree regions (candidates r lib regions { opt with only_module_backed := true } tok) := by
  rw [pointer_scan_eq]
  generalize candidates r lib regions { opt with only_module_backed := true } tok = found
  rw [FiltersByRoot, EndsAgree]
  have hlength : ((found.filter (pointer_chain_result_t.LastBacked regions)).take max_pointer_chains).length < max_pointer_chains ↔
      (found.filter (pointer_chain_result_t.LastBacked regions)).length < max_pointer_chains := by
    rw [List.length_take]
    omega
  refine and_congr ?_ ?_
  · refine forall₂_congr fun chain hchain => and_iff_right ?_
    exact (List.mem_filter.mp (List.mem_of_mem_take hchain)).1
  · rw [hlength]
    refine forall_congr' fun hroom => forall₂_congr fun chain hfound => forall_congr' fun _ => ?_
    rw [List.take_of_length_le hroom.le, List.mem_filter, and_iff_right hfound]

/-- A holder in an image that points to a holder outside, which points to the target. -/
def behind_heap : memory_t := planted 0x10000 [16, 0, 1, 0, 0, 0, 0, 0, 0, 0, 0, 0, 0, 0, 0, 0, 0, 0, 2, 0, 0, 0, 0, 0]

def image_and_heap : List scan_region_t := [{ sixteen_bytes with type := 0x1000000 }, ⟨0x10010, 16, 0, 0, by decide⟩]

def two_levels : pointer_scan_options_t :=
  { target := 0x20000, depth := 2, min_offset := 0, max_offset := 0, only_module_backed := true }

def insert_by_value : edge_sort_t where
  sort l := l.insertionSort fun a b => a.value ≤ b.value
  perm l := List.perm_insertionSort _ l
  sorted l := by
    have : Std.Total fun a b : edge_t => a.value ≤ b.value := ⟨fun a b => Nat.le_total a.value b.value⟩
    have : IsTrans edge_t fun a b => a.value ≤ b.value := ⟨fun a b c => Nat.le_trans⟩
    exact List.pairwise_insertionSort _ l

theorem behind_heap_not_reported :
    ¬ FiltersByRoot image_and_heap (candidates behind_heap.reader insert_by_value image_and_heap two_levels ⟨fun _ => false⟩)
      (pointer_scan behind_heap.reader insert_by_value image_and_heap two_levels ⟨fun _ => false⟩).1 := by
  have hfound : candidates behind_heap.reader insert_by_value image_and_heap two_levels ⟨fun _ => false⟩ =
      [⟨[0x10010], [0]⟩, ⟨[0x10000, 0x10010], [0, 0]⟩] := by decide +kernel
  have hreported : (pointer_scan behind_heap.reader insert_by_value image_and_heap two_levels ⟨fun _ => false⟩).1 = [] := by
    decide +kernel
  rw [hfound, hreported]
  rintro ⟨-, hall⟩
  exact List.not_mem_nil (hall (by decide) ⟨[0x10000, 0x10010], [0, 0]⟩ (by decide) (by decide))

end slop.core.memory.pointer
