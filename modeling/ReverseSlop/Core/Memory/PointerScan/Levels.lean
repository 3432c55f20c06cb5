import ReverseSlop.Core.Memory.PointerScan.Edges

namespace slop.core.memory.pointer

variable {mem : memory_t} {tok : cancel_token_t} {opt : pointer_scan_options_t} {edges : List edge_t} {n levels : Nat}
  {x node : node_t} {frontier nodes : List node_t} {st : pointer_scan_stats_t} {l : level_t}

/-- The search does not count past zero or past the end of the address space, unless both limits do. -/
def InWindow (opt : pointer_scan_options_t) (dest : Nat) (off : Int) : Prop :=
  (off ≤ dest ∧ dest - opt.min_off < 2 ^ 64) ∨ 2 ^ 64 ≤ dest - opt.max_off

theorem off_bounds (opt : pointer_scan_options_t) :
    -2 ^ 31 ≤ opt.min_off ∧ opt.min_off ≤ opt.max_off ∧ opt.max_off < 2 ^ 31 := by
  have hmin := opt.min_offset.le_toInt
  have hlt := opt.min_offset.toInt_lt
  have hmax := opt.max_offset.toInt_lt
  rw [pointer_scan_options_t.max_off, pointer_scan_options_t.min_off]
  omega

/-- The offset from a value to an address, as a signed number. -/
def offset (dest v : Nat) : Int := to_int64 (Word.sub64 dest v)

theorem offset_spec {dest : Nat} (hdest : dest < 2 ^ 64) (v : Nat) :
    ((v : Int) + offset dest v) % 2 ^ 64 = dest ∧ -2 ^ 63 ≤ offset dest v ∧ offset dest v < 2 ^ 63 := by
  rw [offset, to_int64, Word.sub64]
  split <;> omega

/-- There is only one small offset from a value to an address. -/
theorem offset_unique {dest v : Nat} {off : Int} (hdest : dest < 2 ^ 64) (hoff : ((v : Int) + off) % 2 ^ 64 = dest)
    (hlo : -2 ^ 63 ≤ off) (hhi : off < 2 ^ 63) : offset dest v = off := by
  obtain ⟨hspec, hge, hlt⟩ := offset_spec hdest v
  omega

/-- A limit that is subtracted from an address, as an unsigned number. -/
theorem sub_limit {dest : Nat} {x : Int} (hdest : dest < 2 ^ 64) (hlo : -2 ^ 31 ≤ x) (hhi : x < 2 ^ 31) :
    (Word.sub64 dest (to_uint64 x) : Int) =
      if dest - x < 0 then dest - x + 2 ^ 64 else if dest - x < 2 ^ 64 then dest - x else dest - x - 2 ^ 64 := by
  rw [Word.sub64, to_uint64]
  split <;> [skip; split] <;> omega

/-- The window has the values with an offset between the limits that are in the unsigned window. -/
theorem window_iff {dest v : Nat} (hdest : dest < 2 ^ 64) (hv : v < 2 ^ 64) :
    (∃ lo hi, window opt dest = some (lo, hi) ∧ lo ≤ v ∧ v ≤ hi) ↔
      opt.min_off ≤ offset dest v ∧ offset dest v ≤ opt.max_off ∧ InWindow opt dest (offset dest v) := by
  obtain ⟨hmin, hle, hmax⟩ := off_bounds opt
  obtain ⟨hspec, hge, hlt⟩ := offset_spec hdest v
  have hlow := sub_limit hdest (hmin.trans hle) hmax
  have hhigh := sub_limit hdest hmin (hle.trans_lt hmax)
  rw [window, InWindow]
  split
  · refine iff_of_false (by rintro ⟨_, _, ⟨⟩, -⟩) ?_
    omega
  case isFalse hpos =>
    generalize hlo : (if opt.max_off > 0 ∧ opt.max_off.toNat > dest then 0 else Word.sub64 dest (to_uint64 opt.max_off)) = lo
    have hlo : (lo : Int) = if opt.max_off > dest then 0 else (Word.sub64 dest (to_uint64 opt.max_off) : Int) := by
      rw [← hlo]
      split <;> split <;> omega
    rw [hlow] at hlo
    generalize Word.sub64 dest (to_uint64 opt.min_off) = hi at *
    generalize offset dest v = off at *
    dsimp only
    split
    · refine iff_of_false (by rintro ⟨_, _, ⟨⟩, -⟩) ?_
      split_ifs at hlo hhigh <;> omega
    · constructor
      · rintro ⟨_, _, ⟨⟩, hge, hle⟩
        split_ifs at hlo hhigh <;> omega
      · intro hwindow
        refine ⟨_, _, rfl, ?_⟩
        split_ifs at hlo hhigh <;> omega

theorem mem_range {lo hi : Nat} {e : edge_t} (hsorted : edges.Pairwise fun a b => a.value ≤ b.value) :
    e ∈ (edges.dropWhile fun e => e.value < lo).takeWhile (fun e => e.value ≤ hi) ↔ e ∈ edges ∧ lo ≤ e.value ∧ e.value ≤ hi := by
  have htake : ∀ l : List edge_t, l.Pairwise (fun a b => a.value ≤ b.value) →
      (e ∈ l.takeWhile (fun e => e.value ≤ hi) ↔ e ∈ l ∧ e.value ≤ hi) := by
    intro l hl
    induction l with
    | nil => simp
    | cons a l ih =>
      obtain ⟨ha, hl⟩ := List.pairwise_cons.mp hl
      rw [List.takeWhile_cons]
      split
      case isTrue hle =>
        rw [List.mem_cons, List.mem_cons, ih hl]
        constructor
        · rintro (rfl | ⟨he, hv⟩)
          · exact ⟨Or.inl rfl, of_decide_eq_true hle⟩
          · exact ⟨Or.inr he, hv⟩
        · rintro ⟨rfl | he, hv⟩
          · exact Or.inl rfl
          · exact Or.inr ⟨he, hv⟩
      case isFalse hgt =>
        have hgt : hi < a.value := by simpa using hgt
        refine iff_of_false List.not_mem_nil ?_
        rintro ⟨he, hv⟩
        rcases List.mem_cons.mp he with rfl | he
        · omega
        · have hle := ha e he
          omega
  induction edges with
  | nil => simp
  | cons a l ih =>
    obtain ⟨ha, hl⟩ := List.pairwise_cons.mp hsorted
    rw [List.dropWhile_cons]
    split
    case isTrue hlt =>
      have hlt : a.value < lo := of_decide_eq_true hlt
      refine (ih hl).trans ?_
      rw [List.mem_cons]
      refine and_congr_left fun hv => (or_iff_right ?_).symm
      rintro rfl
      omega
    case isFalse hge =>
      have hge : lo ≤ a.value := by simpa using hge
      rw [htake _ hsorted]
      refine and_congr_right fun he => (and_iff_right ?_).symm
      rcases List.mem_cons.mp he with rfl | he
      · exact hge
      · exact hge.trans (ha e he)

theorem mem_links (hsorted : edges.Pairwise fun a b => a.value ≤ b.value) (hvalues : ∀ e ∈ edges, e.value < 2 ^ 64)
    (hdest : node.addr < 2 ^ 64) :
    x ∈ links opt edges node ↔ ∃ e ∈ edges, x = .holder e.holder (offset node.addr e.value) node ∧
      opt.min_off ≤ offset node.addr e.value ∧ offset node.addr e.value ≤ opt.max_off ∧
        InWindow opt node.addr (offset node.addr e.value) := by
  have hlinks : x ∈ links opt edges node ↔ ∃ e ∈ edges, x = .holder e.holder (offset node.addr e.value) node ∧
      ∃ lo hi, window opt node.addr = some (lo, hi) ∧ lo ≤ e.value ∧ e.value ≤ hi := by
    rw [links]
    cases window opt node.addr with
    | none => simp
    | some w =>
      dsimp only
      rw [List.mem_map]
      simp only [mem_range hsorted, Option.some.injEq]
      constructor
      · rintro ⟨e, ⟨he, hlo, hhi⟩, rfl⟩
        exact ⟨e, he, rfl, w.1, w.2, rfl, hlo, hhi⟩
      · rintro ⟨e, he, rfl, lo, hi, rfl, hlo, hhi⟩
        exact ⟨e, ⟨he, hlo, hhi⟩, rfl⟩
  rw [hlinks]
  refine exists_congr fun e => and_congr_right fun he => and_congr_right fun _ => ?_
  exact window_iff hdest (hvalues e he)

theorem mem_push_links {cap : Nat} (hx : x ∈ (push_links cap nodes l).next) : x ∈ nodes ∨ x ∈ l.next := by
  induction nodes generalizing l with
  | nil => exact Or.inr hx
  | cons node nodes ih =>
    have happend : x ∈ l.next ++ [node] → x ∈ node :: nodes ∨ x ∈ l.next := by
      intro hx
      rcases List.mem_append.mp hx with hx | hx
      · exact Or.inr hx
      · exact Or.inl (List.mem_singleton.mp hx ▸ List.mem_cons_self)
    rw [push_links] at hx
    split at hx
    · exact happend hx
    · rcases ih hx with hx | hx
      · exact Or.inl (List.mem_cons_of_mem _ hx)
      · exact happend hx

/-- Unless the level is full, all the nodes are in it. -/
theorem push_links_keeps {cap : Nat} (hroom : (push_links cap nodes l).full = false) :
    l.full = false ∧ ∀ x, x ∈ nodes ∨ x ∈ l.next → x ∈ (push_links cap nodes l).next := by
  induction nodes generalizing l with
  | nil => exact ⟨hroom, fun x hx => hx.resolve_left List.not_mem_nil⟩
  | cons node nodes ih =>
    rw [push_links] at hroom ⊢
    split at hroom
    · cases hroom
    case isFalse hlt =>
      rw [if_neg hlt]
      obtain ⟨hfull, hkeeps⟩ := ih hroom
      refine ⟨hfull, fun x hx => hkeeps x ?_⟩
      rcases hx with hx | hx
      · rcases List.mem_cons.mp hx with rfl | hx
        · exact Or.inr (List.mem_append_right _ List.mem_cons_self)
        · exact Or.inl hx
      · exact Or.inr (List.mem_append_left _ hx)

theorem mem_expand_level (hx : x ∈ (expand_level tok opt edges frontier n l).level.next) :
    (∃ node ∈ frontier, x ∈ links opt edges node) ∨ x ∈ l.next := by
  induction frontier generalizing n l with
  | nil => exact Or.inr hx
  | cons node frontier ih =>
    rw [expand_level] at hx
    split at hx
    · exact Or.inr hx
    split at hx
    · exact Or.inr hx
    · rcases ih hx with ⟨node', hnode, hx⟩ | hx
      · exact Or.inl ⟨node', List.mem_cons_of_mem _ hnode, hx⟩
      · exact (mem_push_links hx).imp_left fun hx => ⟨node, List.mem_cons_self, hx⟩

theorem expand_level_keeps (hlive : ∀ n, tok.cancelled n = false)
    (hroom : (expand_level tok opt edges frontier n l).level.full = false) :
    l.full = false ∧ ∀ x, (∃ node ∈ frontier, x ∈ links opt edges node) ∨ x ∈ l.next →
      x ∈ (expand_level tok opt edges frontier n l).level.next := by
  induction frontier generalizing n l with
  | nil => exact ⟨hroom, fun x hx => hx.resolve_left (by simp)⟩
  | cons node frontier ih =>
    have hfull : l.full = false := by
      by_contra hfull
      rw [expand_level, if_neg (by simp [hlive]), if_pos (by simpa using hfull)] at hroom
      exact hfull hroom
    rw [expand_level, if_neg (by simp [hlive]), if_neg (by simp [hfull])] at hroom ⊢
    obtain ⟨hmid, hlater⟩ := ih hroom
    obtain ⟨-, hkeeps⟩ := push_links_keeps hmid
    refine ⟨hfull, fun x hx => hlater x ?_⟩
    rcases hx with ⟨node', hnode, hx⟩ | hx
    · rcases List.mem_cons.mp hnode with rfl | hnode
      · exact Or.inr (hkeeps x (Or.inl hx))
      · exact Or.inl ⟨node', hnode, hx⟩
    · exact Or.inr (hkeeps x (Or.inr hx))

/-- How many holders there are up to the target. -/
def node_t.size : node_t → Nat
  | .target _ => 0
  | .holder _ _ parent => parent.size + 1

/-- The node leads to the target, and every holder of it is a link to the next one. -/
def Found (opt : pointer_scan_options_t) (edges : List edge_t) : node_t → Prop
  | .target addr => addr = opt.target.toNat
  | .holder addr off parent => .holder addr off parent ∈ links opt edges parent ∧ Found opt edges parent

theorem links_eq (hx : x ∈ links opt edges node) : ∃ addr off, x = .holder addr off node := by
  rw [links] at hx
  split at hx
  · cases hx
  · obtain ⟨e, -, rfl⟩ := List.mem_map.mp hx
    exact ⟨_, _, rfl⟩

theorem found_of_link (hnode : Found opt edges node) (hx : x ∈ links opt edges node) :
    Found opt edges x ∧ x.size = node.size + 1 := by
  obtain ⟨addr, off, rfl⟩ := links_eq hx
  exact ⟨⟨hx, hnode⟩, rfl⟩

/-- The levels go on from nodes of one size. -/
theorem expand_sound {size : Nat} (hfrontier : ∀ x ∈ frontier, Found opt edges x ∧ x.size = size)
    (hx : x ∈ (expand tok opt edges levels frontier n nodes st).1) :
    x ∈ nodes ∨ (Found opt edges x ∧ size < x.size ∧ x.size ≤ size + levels) := by
  induction levels generalizing frontier n nodes st size with
  | zero => exact Or.inl hx
  | succ levels ih =>
    rw [expand] at hx
    split at hx
    · exact Or.inl hx
    split at hx
    · exact Or.inl hx
    have hnext : ∀ x ∈ (expand_level tok opt edges frontier (n + 1) {}).level.next,
        Found opt edges x ∧ x.size = size + 1 := by
      intro x hx
      obtain ⟨node, hnode, hlink⟩ := (mem_expand_level hx).resolve_right List.not_mem_nil
      obtain ⟨hfound, hsize⟩ := hfrontier node hnode
      exact hsize ▸ found_of_link hfound hlink
    have hnodes : x ∈ nodes ++ (expand_level tok opt edges frontier (n + 1) {}).level.next →
        x ∈ nodes ∨ (Found opt edges x ∧ size < x.size ∧ x.size ≤ size + (levels + 1)) := by
      intro hx
      rcases List.mem_append.mp hx with hx | hx
      · exact Or.inl hx
      · obtain ⟨hfound, hsize⟩ := hnext x hx
        exact Or.inr ⟨hfound, by omega, by omega⟩
    dsimp only at hx
    split at hx
    · exact hnodes hx
    · rcases ih hnext hx with hx | ⟨hfound, hlt, hle⟩
      · exact hnodes hx
      · exact Or.inr ⟨hfound, by omega, by omega⟩

theorem expand_grows : nodes ⊆ (expand tok opt edges levels frontier n nodes st).1 ∧
    ((expand tok opt edges levels frontier n nodes st).2.truncated = false → st.truncated = false) := by
  induction levels generalizing frontier n nodes st with
  | zero => exact ⟨List.Subset.refl _, id⟩
  | succ levels ih =>
    rw [expand]
    split
    · exact ⟨List.Subset.refl _, id⟩
    split
    · exact ⟨List.Subset.refl _, id⟩
    dsimp only
    split
    · refine ⟨List.subset_append_left _ _, fun hroom => ?_⟩
      exact (Bool.or_eq_false_iff.mp hroom).1
    · exact ⟨fun x hx => ih.1 (List.mem_append_left _ hx), fun hroom => (Bool.or_eq_false_iff.mp (ih.2 hroom)).1⟩

/-- Without a limit in the way, all the nodes of the next sizes are found. -/
theorem expand_complete {size : Nat} (hlive : ∀ n, tok.cancelled n = false)
    (hfrontier : ∀ x, Found opt edges x → x.size = size → x ∈ frontier)
    (hroom : (expand tok opt edges levels frontier n nodes st).2.truncated = false)
    (hfound : Found opt edges x) (hlt : size < x.size) (hle : x.size ≤ size + levels) :
    x ∈ (expand tok opt edges levels frontier n nodes st).1 := by
  induction levels generalizing frontier n nodes st size with
  | zero => omega
  | succ levels ih =>
    have hparent : ∀ y, Found opt edges y → size < y.size → ∃ z ∈ frontier, True := by
      intro y hy hsize
      induction y with
      | target addr => exact absurd hsize (Nat.not_lt_zero _)
      | holder addr off parent ih =>
        rcases Nat.lt_or_ge size parent.size with hlt | hge
        · exact ih hy.2 hlt
        · rw [node_t.size] at hsize
          exact ⟨parent, hfrontier parent hy.2 (by omega), trivial⟩
    obtain ⟨z, hz, -⟩ := hparent x hfound hlt
    have hne : frontier ≠ [] := List.ne_nil_of_mem hz
    rw [expand, if_neg hne, if_neg (by simp [hlive])] at hroom ⊢
    dsimp only at hroom ⊢
    have hfull : (expand_level tok opt edges frontier (n + 1) {}).level.full = false := by
      split at hroom
      · exact (Bool.or_eq_false_iff.mp hroom).2
      · exact (Bool.or_eq_false_iff.mp (expand_grows.2 hroom)).2
    have hnext : ∀ y, Found opt edges y → y.size = size + 1 →
        y ∈ (expand_level tok opt edges frontier (n + 1) {}).level.next := by
      intro y hy hsize
      refine (expand_level_keeps hlive hfull).2 y (Or.inl ?_)
      cases y with
      | target addr => cases hsize
      | holder addr off parent =>
        exact ⟨parent, hfrontier parent hy.2 (Nat.succ.inj hsize), hy.1⟩
    split
    case isTrue hstop =>
      have htrunc : (st.truncated || (expand_level tok opt edges frontier (n + 1) {}).level.full) = true := hstop.1
      rw [if_pos hstop] at hroom
      rw [htrunc] at hroom
      cases hroom
    case isFalse hgo =>
      rw [if_neg hgo] at hroom
      rcases Nat.eq_or_lt_of_le (Nat.succ_le_of_lt hlt) with heq | hlt
      · exact expand_grows.1 (List.mem_append_right _ (hnext x hfound heq.symm))
      · exact ih hnext hroom hlt (by omega)

end slop.core.memory.pointer
