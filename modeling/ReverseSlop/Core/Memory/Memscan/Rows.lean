import Mathlib.Data.List.Flatten
import ReverseSlop.Core.Memory.Memscan.ScanRun
import ReverseSlop.Library.Counted

namespace slop.core.memory

open Capped

/-- The rows of a worker as a capped collector. -/
def worker_out_t.rows (out : worker_out_t) : Sink scan_result_t := ⟨out.results, out.truncated⟩

/-- The widths a scan compares at each address. -/
def scan_config_t.widths (cfg : scan_config_t) : List value_width_t :=
  if cfg.scan_all_types then kAllWidths else [cfg.width]

/-- The fewest bytes a run needs to hold a slot. -/
def scan_config_t.least (cfg : scan_config_t) : Nat := if cfg.scan_all_types then 1 else value_size cfg.width

theorem scan_config_t.least_pos (cfg : scan_config_t) : 0 < cfg.least := by
  unfold least
  split
  · exact Nat.one_pos
  · exact value_size_pos cfg.width

theorem scan_config_t.least_le {cfg : scan_config_t} {w : value_width_t} (hw : w ∈ cfg.widths) :
    cfg.least ≤ value_size w := by
  unfold widths at hw
  unfold least
  cases hall : cfg.scan_all_types with
  | true => exact value_size_pos w
  | false =>
    rw [hall] at hw
    rw [List.mem_singleton.mp hw]
    exact le_rfl

/-- The row of a width at one offset, if the bytes there are accepted. -/
def width_row (cfg : scan_config_t) (base : Nat) (data : List UInt8) (old : Option (List UInt8)) (off : Nat)
    (w : value_width_t) : List scan_result_t :=
  let curr := load_bits (data.drop off) (value_size w)
  if off + value_size w ≤ data.length ∧ check_value cfg w curr (prev_bits old off (value_size w)) then
    [⟨base + off, curr, w⟩]
  else []

/-- The gate is on the widths of an all-types scan only. -/
def slot_rows (cfg : scan_config_t) (fs : fastscan_t) (base : Nat) (data : List UInt8) (old : Option (List UInt8))
    (off : Nat) : List scan_result_t :=
  if cfg.scan_all_types then
    (kAllWidths.filter fun w => width_gate fs w (base + off)).flatMap (width_row cfg base data old off)
  else width_row cfg base data old off cfg.width

def offset_rows (cfg : scan_config_t) (fs : fastscan_t) (base : Nat) (data : List UInt8)
    (old : Option (List UInt8)) (last_off off : Nat) : List scan_result_t :=
  if off ≤ last_off then
    slot_rows cfg fs base data old off ++ offset_rows cfg fs base data old last_off (off + fs.step)
  else []
termination_by last_off + 1 - off
decreasing_by
  have := fs.step_pos
  omega

/-- All rows of a run, whatever the cap. -/
def run_rows (cfg : scan_config_t) (fs : fastscan_t) (base : Nat) (data : List UInt8)
    (old : Option (List UInt8)) : List scan_result_t :=
  if data.length < cfg.least then []
  else offset_rows cfg fs base data old (data.length - cfg.least) (fs.first_offset base)

section

variable (cfg : scan_config_t) (fs : fastscan_t) (base : Nat) (data : List UInt8) (old : Option (List UInt8))

variable {cfg base data old} in
private theorem width_row_of_accepted {off : Nat} {w : value_width_t} (hroom : off + value_size w ≤ data.length)
    (hcheck : check_value cfg w (load_bits (data.drop off) (value_size w)) (prev_bits old off (value_size w)) = true) :
    width_row cfg base data old off w = [⟨base + off, load_bits (data.drop off) (value_size w), w⟩] :=
  if_pos ⟨hroom, hcheck⟩

variable {cfg base data old} in
private theorem width_row_of_rejected {off : Nat} {w : value_width_t}
    (hcheck : ¬ check_value cfg w (load_bits (data.drop off) (value_size w)) (prev_bits old off (value_size w)) = true) :
    width_row cfg base data old off w = [] :=
  if_neg fun h => hcheck h.2

variable {cfg base data old} in
private theorem width_row_of_short {off : Nat} {w : value_width_t} (hshort : data.length < off + value_size w) :
    width_row cfg base data old off w = [] :=
  if_neg fun h => by omega

theorem adds_push_result (out : worker_out_t) (row : scan_result_t) :
    Adds cfg.result_cap [row] out.rows (out.push_result cfg.result_cap row).1.rows ∧
      ((out.push_result cfg.result_cap row).2 = true →
        (out.push_result cfg.result_cap row).1.truncated = true) := by
  unfold worker_out_t.push_result
  dsimp only
  split
  · next hcap =>
    rw [List.length_append, List.length_singleton] at hcap
    refine ⟨⟨⟨[row], .refl _, rfl⟩, fun h => (nomatch h), fun _ => rfl, ?_⟩, fun _ => rfl⟩
    intro _ hlen
    simp only [worker_out_t.rows, List.length_singleton] at hlen
    omega
  · exact ⟨⟨⟨[row], .refl _, rfl⟩, fun _ => rfl, id, fun h _ => h⟩, fun h => nomatch h⟩

private theorem adds_scan_widths (off : Nat) (widths : List value_width_t) (out : worker_out_t) :
    let step := scan_widths cfg fs base data old off widths out
    Adds cfg.result_cap ((widths.filter fun w => width_gate fs w (base + off)).flatMap (width_row cfg base data old off))
        out.rows step.1.rows ∧
      (step.2 = true → step.1.truncated = true) := by
  induction widths generalizing out with
  | nil => exact ⟨.refl _ _, fun h => nomatch h⟩
  | cons w rest ih =>
    simp only [scan_widths]
    by_cases hgate : width_gate fs w (base + off) = true
    · rw [List.filter_cons_of_pos (p := fun w => width_gate fs w (base + off)) hgate, List.flatMap_cons]
      by_cases hshort : data.length < off + value_size w
      · rw [if_pos hshort, width_row_of_short hshort]
        exact ih out
      · rw [if_neg hshort, if_neg (by simp [hgate])]
        by_cases hcheck : check_value cfg w (load_bits (data.drop off) (value_size w))
            (prev_bits old off (value_size w)) = true
        · obtain ⟨hpush, hflag⟩ := adds_push_result cfg out
            ⟨base + off, load_bits (data.drop off) (value_size w), w⟩
          rw [if_pos hcheck, width_row_of_accepted (Nat.not_lt.mp hshort) hcheck]
          split
          · next hfull => exact ⟨hpush.stop (hflag hfull) _, fun _ => hflag hfull⟩
          · obtain ⟨hrest, hstop⟩ := ih (out.push_result cfg.result_cap
              ⟨base + off, load_bits (data.drop off) (value_size w), w⟩).1
            exact ⟨hpush.trans hrest, hstop⟩
        · rw [if_neg hcheck, width_row_of_rejected hcheck]
          exact ih out
    · rw [List.filter_cons_of_neg (p := fun w => width_gate fs w (base + off)) hgate,
        if_pos (show (!width_gate fs w (base + off)) = true by simpa using hgate), ite_self]
      exact ih out

private theorem adds_scan_slot (off : Nat) (hoff : off + cfg.least ≤ data.length) (out : worker_out_t) :
    let step := scan_slot cfg fs base data old off out
    Adds cfg.result_cap (slot_rows cfg fs base data old off) out.rows step.1.rows ∧
      (step.2 = true → step.1.truncated = true) := by
  unfold scan_config_t.least at hoff
  unfold scan_slot slot_rows
  cases hall : cfg.scan_all_types with
  | true =>
    obtain ⟨hadds, hstop⟩ := adds_scan_widths cfg fs base data old off kAllWidths out
    simp only [if_true]
    split
    · next hfull => exact ⟨hadds, fun _ => hstop hfull⟩
    · exact ⟨hadds, fun h => nomatch h⟩
  | false =>
    simp only [hall, Bool.false_eq_true, if_false] at hoff ⊢
    rw [if_neg (Nat.not_lt.mpr hoff)]
    by_cases hcheck : check_value cfg cfg.width (load_bits (data.drop off) (value_size cfg.width))
        (prev_bits old off (value_size cfg.width)) = true
    · rw [width_row_of_accepted hoff hcheck]
      rw [if_pos hcheck]
      exact adds_push_result cfg out.count_slot _
    · rw [width_row_of_rejected hcheck]
      rw [if_neg hcheck]
      exact ⟨.refl _ out.rows, fun h => nomatch h⟩

private theorem adds_scan_offsets (last : Nat) (off : Nat) (out : worker_out_t)
    (hlast : last + cfg.least ≤ data.length) :
    Adds cfg.result_cap (offset_rows cfg fs base data old last off) out.rows
      (scan_offsets cfg fs base data old last off out).rows := by
  fun_induction scan_offsets cfg fs base data old last off out with
  | case1 off out hle next hslot =>
    obtain ⟨hadds, hstop⟩ := adds_scan_slot cfg fs base data old off (by omega) out
    rw [hslot] at hadds hstop
    rw [offset_rows, if_pos hle]
    exact hadds.stop (hstop rfl) _
  | case2 off out hle next hslot ih =>
    obtain ⟨hadds, _⟩ := adds_scan_slot cfg fs base data old off (by omega) out
    rw [hslot] at hadds
    rw [offset_rows, if_pos hle]
    exact hadds.trans ih
  | case3 off out hgt =>
    rw [offset_rows, if_neg hgt]
    exact .refl _ _

/-- The kernel collects the rows of its run. -/
theorem adds_scan_run (out : worker_out_t) :
    Adds cfg.result_cap (run_rows cfg fs base data old) out.rows (scan_run cfg fs base data old out).rows := by
  have hslot : value_size cfg.width ≠ 0 := (value_size_pos cfg.width).ne'
  unfold scan_run
  simp only [hslot, if_false]
  by_cases hcap : cfg.result_cap ≤ out.results.length
  · rw [if_pos hcap]
    apply Adds.at_cap hcap <;> rfl
  · rw [if_neg hcap]
    change Adds _ _ _ (if data.length < cfg.least then out
      else scan_offsets cfg fs base data old (data.length - cfg.least) (fs.first_offset base) out).rows
    unfold run_rows
    by_cases hshort : data.length < cfg.least
    · rw [if_pos hshort, if_pos hshort]
      exact .refl _ _
    · rw [if_neg hshort, if_neg hshort]
      exact adds_scan_offsets cfg fs base data old _ _ out (by omega)

end

/-- What tells rows apart. -/
def scan_result_t.key (row : scan_result_t) : Nat × value_width_t := (row.address, row.width)

/-- The keys that the rows at an address can have. -/
def scan_config_t.keys_at (cfg : scan_config_t) (a : Nat) : List (Nat × value_width_t) := cfg.widths.map (a, ·)

section

variable (cfg : scan_config_t) (fs : fastscan_t) (base : Nat) (data : List UInt8) (old : Option (List UInt8))

private theorem keys_width_row (off : Nat) (w : value_width_t) :
    ((width_row cfg base data old off w).map scan_result_t.key).Sublist [(base + off, w)] := by
  unfold width_row
  dsimp only
  split
  · exact .refl _
  · exact List.nil_sublist _

private theorem keys_width_rows (off : Nat) (widths : List value_width_t) :
    ((widths.flatMap (width_row cfg base data old off)).map scan_result_t.key).Sublist (widths.map (base + off, ·)) := by
  induction widths with
  | nil => exact .refl _
  | cons w rest ih =>
    rw [List.flatMap_cons, List.map_append, List.map_cons]
    exact (keys_width_row cfg base data old off w).append ih

private theorem keys_slot_rows (off : Nat) :
    ((slot_rows cfg fs base data old off).map scan_result_t.key).Sublist (cfg.keys_at (base + off)) := by
  unfold slot_rows scan_config_t.keys_at scan_config_t.widths
  split
  · exact (keys_width_rows cfg base data old off _).trans (List.filter_sublist.map _)
  · exact keys_width_row cfg base data old off cfg.width

private theorem keys_offset_rows (last off : Nat) :
    ((offset_rows cfg fs base data old last off).map scan_result_t.key).Sublist
      ((List.range' (base + off) (last + 1 - off)).flatMap cfg.keys_at) := by
  fun_induction offset_rows cfg fs base data old last off with
  | case1 off hle ih =>
    have hstep := fs.step_pos
    have hcount : last + 1 - off = (last - off) + 1 := by omega
    rw [List.map_append, hcount, List.range'_succ, List.flatMap_cons]
    refine (keys_slot_rows cfg fs base data old off).append (ih.trans (List.Sublist.flatMap ?_ _))
    -- the offsets from the next candidate on are among those behind this one
    exact Shares.range'_sublist (by omega) (by omega)
  | case2 off hgt => exact List.nil_sublist _

/-- A run has at most one row for each of its addresses and each width. -/
theorem keys_run_rows :
    ((run_rows cfg fs base data old).map scan_result_t.key).Sublist
      ((List.range' base data.length).flatMap cfg.keys_at) := by
  have hleast := cfg.least_pos
  unfold run_rows
  split
  · exact List.nil_sublist _
  · refine (keys_offset_rows cfg fs base data old _ _).trans (List.Sublist.flatMap ?_ _)
    exact Shares.range'_sublist (by omega) (by omega)

end

theorem keys_nodup (cfg : scan_config_t) {addresses : List Nat} (hnodup : addresses.Nodup) :
    (addresses.flatMap cfg.keys_at).Nodup := by
  have hwidths : cfg.widths.Nodup := by
    unfold scan_config_t.widths
    split
    · decide
    · exact List.nodup_singleton _
  refine List.nodup_flatMap.mpr ⟨fun a _ => hwidths.map (Prod.mk_right_injective a), hnodup.imp fun {a b} hab x hxa hxb => ?_⟩
  obtain ⟨w, -, rfl⟩ := List.mem_map.mp hxa
  obtain ⟨w', -, hb⟩ := List.mem_map.mp hxb
  exact hab (congrArg Prod.fst hb).symm

/-- The keys of addresses that go up go up. -/
theorem keys_sorted (cfg : scan_config_t) (start count : Nat) :
    ((List.range' start count).flatMap cfg.keys_at).Pairwise fun k k' => k.1 ≤ k'.1 := by
  have hkey : ∀ {a k}, k ∈ cfg.keys_at a → k.1 = a := by
    intro a k hk
    obtain ⟨w, -, rfl⟩ := List.mem_map.mp hk
    rfl
  refine List.pairwise_flatMap.mpr ⟨fun a _ => List.pairwise_of_forall_mem_list fun k hk k' hk' => ?_, ?_⟩
  · rw [hkey hk, hkey hk']
  · refine List.Pairwise.imp (fun {a b} hlt k hk k' hk' => ?_) (List.pairwise_lt_range' 1)
    rw [hkey hk, hkey hk']
    exact Nat.le_of_lt hlt

/-- The row of a width at one offset, if the bytes there are accepted. -/
def width_hit (cfg : scan_config_t) (base : Nat) (data : List UInt8) (off : Nat) (w : value_width_t) :
    List scan_result_t :=
  let curr := load_bits (data.drop off) (value_size w)
  if off + value_size w ≤ data.length ∧ check_value cfg w curr 0 then [⟨base + off, curr, w⟩] else []

def slot_hits (cfg : scan_config_t) (base : Nat) (data : List UInt8) (off : Nat) : List scan_result_t :=
  cfg.widths.flatMap (width_hit cfg base data off)

/-- All rows of a run on a first scan, whatever the cap. -/
def run_hits (cfg : scan_config_t) (base : Nat) (data : List UInt8) : List scan_result_t :=
  (List.range' 0 (data.length + 1 - cfg.least)).flatMap (slot_hits cfg base data)

theorem mem_run_hits {cfg : scan_config_t} {base : Nat} {data : List UInt8} {row : scan_result_t} :
    row ∈ run_hits cfg base data ↔
      row.width ∈ cfg.widths ∧ base ≤ row.address ∧
      row.address + value_size row.width ≤ base + data.length ∧
      row.bits = load_bits (data.drop (row.address - base)) (value_size row.width) ∧
      check_value cfg row.width row.bits 0 = true := by
  simp only [run_hits, slot_hits, List.mem_flatMap, List.mem_range'_1, width_hit]
  constructor
  · rintro ⟨off, ⟨_, _⟩, w, hw, hrow⟩
    split at hrow
    · next hhit =>
      obtain rfl := List.mem_singleton.mp hrow
      refine ⟨hw, Nat.le_add_right _ _, by dsimp only; omega, ?_, hhit.2⟩
      simp
    · simp at hrow
  · rintro ⟨hw, hlo, hhi, hbits, hcheck⟩
    have hleast := scan_config_t.least_le hw
    refine ⟨row.address - base, ⟨by omega, by omega⟩, row.width, hw, ?_⟩
    rw [← hbits, if_pos ⟨by omega, hcheck⟩, Nat.add_sub_cancel' hlo, List.mem_singleton]

section

variable (cfg : scan_config_t) (base : Nat) (data : List UInt8)

/-- Without fastscan nothing is gated. -/
theorem slot_rows_eq_slot_hits (off : Nat) : slot_rows cfg {} base data none off = slot_hits cfg base data off := by
  have hgate : kAllWidths.filter (fun w => width_gate {} w (base + off)) = kAllWidths := rfl
  unfold slot_rows slot_hits scan_config_t.widths
  split
  · rw [hgate]
    rfl
  · rw [List.flatMap_singleton]
    rfl

private theorem offset_rows_eq_slot_hits (last off : Nat) :
    offset_rows cfg {} base data none last off =
      (List.range' off (last + 1 - off)).flatMap (slot_hits cfg base data) := by
  fun_induction offset_rows cfg {} base data none last off with
  | case1 off hle ih =>
    have hcount : last + 1 - off = (last + 1 - (off + 1)) + 1 := by omega
    rw [ih, hcount, List.range'_succ, List.flatMap_cons, slot_rows_eq_slot_hits]
  | case2 off hgt =>
    rw [show last + 1 - off = 0 by omega]
    rfl

private theorem run_rows_eq_run_hits : run_rows cfg {} base data none = run_hits cfg base data := by
  unfold run_rows run_hits
  by_cases hshort : data.length < cfg.least
  · rw [if_pos hshort, show data.length + 1 - cfg.least = 0 by omega]
    rfl
  · rw [if_neg hshort, offset_rows_eq_slot_hits,
      show data.length + 1 - cfg.least = data.length - cfg.least + 1 - 0 by omega]
    rfl

/-- Without fastscan the kernel sees every slot of a run. -/
theorem adds_scan_run_hits (out : worker_out_t) :
    Adds cfg.result_cap (run_hits cfg base data) out.rows (scan_run cfg {} base data none out).rows :=
  run_rows_eq_run_hits cfg base data ▸ adds_scan_run cfg {} base data none out

end

end slop.core.memory
