import ReverseSlop.Core.Memory.Aob.Holes

namespace slop.core.memory

/-- The critical sections concatenate what the workers found, up to the cap. -/
theorem aob_result_t.foldl_merge (cap : Nat) (outs : List aob_worker_t) (res : aob_result_t)
    (hcap : res.addresses.length ≤ cap) :
    (outs.foldl (aob_result_t.merge cap) res).addresses =
      (res.addresses ++ outs.flatMap aob_worker_t.local_matches).take cap := by
  induction outs generalizing res with
  | nil => rw [List.flatMap_nil, List.append_nil, List.take_of_length_le hcap, List.foldl_nil]
  | cons out outs ih =>
    have hmerge : (res.merge cap out).addresses = (res.addresses ++ out.local_matches).take cap := by
      simp only [aob_result_t.merge]
      rw [List.take_append, List.take_of_length_le hcap]
    rw [List.foldl_cons, ih _ (hmerge ▸ List.length_take_le _ _), hmerge, Capped.take_append_left, List.flatMap_cons,
      List.append_assoc]

private theorem mapM_eq_some_of_forall {α β γ : Type} {f : α → Option β} {view : β → γ} {g : α → γ}
    (l : List α) (hf : ∀ a ∈ l, ∃ b, f a = some b ∧ view b = g a) :
    ∃ outs, l.mapM f = some outs ∧ outs.map view = l.map g := by
  induction l with
  | nil => exact ⟨[], rfl, rfl⟩
  | cons a l ih =>
    obtain ⟨b, hb, hview⟩ := hf a (by simp)
    obtain ⟨outs, houts, hmap⟩ := ih fun x hx => hf x (List.mem_cons_of_mem a hx)
    exact ⟨b :: outs, by simp [hb, houts], by simp [hview, hmap]⟩

theorem mem_of_mapM_eq_some {α β : Type} {f : α → Option β} {l : List α} {outs : List β}
    (hmap : l.mapM f = some outs) {b : β} (hb : b ∈ outs) : ∃ a, f a = some b := by
  induction l generalizing outs with
  | nil =>
    cases hmap
    simp at hb
  | cons a l ih =>
    simp only [List.mapM_cons, Option.bind_eq_bind, Option.bind_eq_some_iff, Option.pure_def,
      Option.some.injEq] at hmap
    obtain ⟨first, hfirst, rest, hrest, rfl⟩ := hmap
    rcases List.mem_cons.mp hb with rfl | hb
    · exact ⟨a, hfirst⟩
    · exact ih hrest hb

/-- The target stands still and nobody cancels. -/
structure aob_exec_t.Steady (exec : aob_exec_t) (mem : memory_t) : Prop where
  reads : ∀ worker n addr len, (exec.reader worker).read n addr len = mem.read addr len
  live : ∀ worker n, (exec.tok worker).cancelled n = false

section

variable {opt : aob_scan_options_t} {p : aob_pattern_t} {mem : memory_t} {r : reader_t}
  {tok : cancel_token_t}

private theorem aob_worker_seen (hreads : ∀ n addr len, r.read n addr len = mem.read addr len)
    (hlive : ∀ n, tok.cancelled n = false) (spans : List span_t) (n : Nat) (out : aob_worker_t)
    (hspans : ∀ s ∈ spans, s.e ≤ user_space_end ∧ opt.ChunksFit p s.b s.e)
    (hcap : out.local_matches.length ≤ opt.result_cap) :
    ∃ result, aob_worker opt p r tok spans n out = some result ∧
      result.local_matches =
        (out.local_matches ++ spans.flatMap fun s => span_seen opt p mem s.e s.b).take opt.result_cap := by
  induction spans generalizing n out with
  | nil =>
    refine ⟨out, rfl, ?_⟩
    rw [List.flatMap_nil, List.append_nil, List.take_of_length_le hcap]
  | cons s spans ih =>
    obtain ⟨⟨hspace, hfit⟩, hrest⟩ := List.forall_mem_cons.mp hspans
    obtain ⟨mid, next, hwalk, hmid⟩ := walk_span_seen hreads hlive hspace s.b (n + 1) out hfit hcap
    obtain ⟨result, hrun, hresult⟩ := ih next mid hrest (hmid ▸ List.length_take_le _ _)
    refine ⟨result, ?_, ?_⟩
    · rw [aob_worker, hlive, if_neg Bool.false_ne_true, hwalk]
      exact hrun
    · rw [hresult, hmid, Capped.take_append_left, List.flatMap_cons, List.append_assoc]

/-- A worker whose chunks are shorter than the pattern finds nothing. -/
theorem aob_worker_short (hreads : ∀ n addr len, r.read n addr len = mem.read addr len)
    (hlive : ∀ n, tok.cancelled n = false) (hshort : opt.chunk < p.size) (spans : List span_t) (n : Nat)
    (out : aob_worker_t) (hspans : ∀ s ∈ spans, ∀ a, s.b ≤ a → a < s.e → (mem a).isSome)
    {result : aob_worker_t} (hrun : aob_worker opt p r tok spans n out = some result) :
    result.local_matches = out.local_matches := by
  have hwalk : ∀ (s : span_t) (cursor n : Nat) (out result : aob_worker_t) (next : Nat),
      (∀ a, cursor ≤ a → a < s.e → (mem a).isSome) →
      walk_span opt p r tok s cursor n out = some (result, next) → result.local_matches = out.local_matches := by
    intro s cursor n out result next
    fun_induction walk_span opt p r tok s cursor n out with
    | case1 cursor n out hmore hcancel =>
      intro _ h
      rw [hlive] at hcancel
      cases hcancel
    | case2 cursor n out hmore hlive' want hread | case3 cursor n out hmore hlive' want hread =>
      intro hreadable h
      rw [hreads, mem.read_eq_bytes_at fun a hlo hhi => hreadable a hlo (by omega)] at hread
      cases hread
    | case4 => intro _ h; cases h
    | case5 cursor n out hmore hlive' want buf hread mid hwindow ih =>
      intro hreadable h
      have hbuf : buf.length < p.size := by
        have := r.read_length hread
        omega
      have hmid := scan_window_short hbuf hwindow
      rw [ih (fun a hlo hhi => hreadable a (by omega) hhi) h, hmid]
      rfl
    | case6 => intro _ h; cases h; rfl
  induction spans generalizing n out with
  | nil => cases hrun; rfl
  | cons s spans ih =>
    rw [aob_worker, hlive, if_neg (by simp)] at hrun
    cases hstep : walk_span opt p r tok s s.b (n + 1) out with
    | none =>
      rw [hstep] at hrun
      cases hrun
    | some pair =>
      obtain ⟨mid, next⟩ := pair
      rw [hstep] at hrun
      rw [ih next mid (fun s' hs' => hspans s' (List.mem_cons_of_mem s hs')) hrun,
        hwalk s s.b (n + 1) out mid next (hspans s (by simp)) hstep]

end

private theorem aob_exec_t.claimed_perm (exec : aob_exec_t) {nw : Nat} (hpos : 0 < nw) (spans : List span_t) :
    ((exec.merge_order nw).flatMap fun worker => exec.claimed nw worker spans).Perm spans := by
  have horder : (exec.merge_order nw).Perm (List.range nw) := List.mergeSort_perm _ _
  have hsplit := Partition.flatMap_filter_perm (fun pair : span_t × Nat => exec.owner pair.2 % nw)
    spans.zipIdx (exec.merge_order nw) (horder.nodup_iff.mpr List.nodup_range)
    (fun pair _ => horder.mem_iff.mpr (List.mem_range.mpr (Nat.mod_lt _ hpos)))
  have hmap := hsplit.map Prod.fst
  simpa [List.map_flatMap, aob_exec_t.claimed, List.zipIdx_map_fst] using hmap

/-- The matches of all spans, before sorting. -/
def raw_hits (opt : aob_scan_options_t) (p : aob_pattern_t) (mem : memory_t)
    (regions : List scan_region_t) : List Nat :=
  (aob_spans opt p regions).flatMap fun s => span_hits opt p mem s.e s.b

/-- What the walks over all spans see, before sorting. -/
def raw_seen (opt : aob_scan_options_t) (p : aob_pattern_t) (mem : memory_t)
    (regions : List scan_region_t) : List Nat :=
  (aob_spans opt p regions).flatMap fun s => span_seen opt p mem s.e s.b

/-- The spans in the order in which their matches reach the result. -/
def aob_exec_t.span_order (exec : aob_exec_t) (opt : aob_scan_options_t) (spans : List span_t) : List span_t :=
  (exec.merge_order (opt.worker_count exec spans.length)).flatMap fun worker =>
    exec.claimed (opt.worker_count exec spans.length) worker spans

theorem aob_exec_t.span_order_perm (exec : aob_exec_t) (opt : aob_scan_options_t) (spans : List span_t) :
    (exec.span_order opt spans).Perm spans :=
  exec.claimed_perm (opt.worker_count_pos exec spans.length) spans

/-- On a target that stands still, whatever the threads do, the scan returns what
the walks see, up to the cap, sorted and each of them once. -/
theorem aob_scan_seen {opt : aob_scan_options_t} {p : aob_pattern_t} {mem : memory_t} {exec : aob_exec_t}
    {regions : List scan_region_t} (hsteady : exec.Steady mem)
    (hspans : ∀ s ∈ aob_spans opt p regions, s.e ≤ user_space_end ∧ opt.ChunksFit p s.b s.e) :
    ∃ res, aob_scan exec regions p opt = some res ∧ res.addresses.Pairwise (· < ·) ∧
      ∀ a, a ∈ res.addresses ↔ a ∈ ((exec.span_order opt (aob_spans opt p regions)).flatMap fun s =>
        span_seen opt p mem s.e s.b).take opt.result_cap := by
  have hpos := p.size_pos
  let spans := aob_spans opt p regions
  let nw := opt.worker_count exec spans.length
  let seen := fun worker => (exec.claimed nw worker spans).flatMap fun s => span_seen opt p mem s.e s.b
  have hclaimed : ∀ worker, ∀ s ∈ exec.claimed nw worker spans, s ∈ spans := by
    intro worker s hs
    obtain ⟨⟨s', index⟩, hmem, rfl⟩ := List.mem_map.mp hs
    exact List.mem_of_mem_filter hmem |> List.fst_mem_of_mem_zipIdx
  have hworkers : ∀ worker ∈ exec.merge_order nw, ∃ out,
      aob_worker opt p (exec.reader worker) (exec.tok worker) (exec.claimed nw worker spans) 0 {} = some out ∧
        out.local_matches = (seen worker).take opt.result_cap := by
    intro worker _
    exact aob_worker_seen (hsteady.reads worker) (hsteady.live worker) (exec.claimed nw worker spans) 0 {}
      (fun s hs => hspans s (hclaimed worker s hs)) (Nat.zero_le _)
  obtain ⟨outs, houts, hlocal⟩ := mapM_eq_some_of_forall _ hworkers
  have hall : outs.flatMap aob_worker_t.local_matches =
      (exec.merge_order nw).flatMap fun worker => (seen worker).take opt.result_cap := by
    rw [List.flatMap_def, hlocal, List.flatMap_def]
  have hmerged := aob_result_t.foldl_merge opt.result_cap outs {} (Nat.zero_le _)
  rw [List.nil_append, hall, Capped.take_flatMap, ← List.flatMap_assoc] at hmerged
  have hscan : aob_scan exec regions p opt = some (aob_finish opt.result_cap exec outs) := by
    rw [aob_scan, if_neg (by omega)]
    exact congrArg (Option.map (aob_finish opt.result_cap exec)) houts
  refine ⟨_, hscan, List.pairwise_lt_unique (List.pairwise_mergeSort' _ _), fun a => ?_⟩
  simp only [aob_finish, hmerged, List.mem_unique, List.mem_mergeSort]
  rfl

/-- A result below the cap has all that the walks see. -/
theorem aob_scan_all_seen {opt : aob_scan_options_t} {p : aob_pattern_t} {mem : memory_t} {exec : aob_exec_t}
    {regions : List scan_region_t} (hsteady : exec.Steady mem)
    (hspans : ∀ s ∈ aob_spans opt p regions, s.e ≤ user_space_end ∧ opt.ChunksFit p s.b s.e)
    (hroom : (raw_seen opt p mem regions).length ≤ opt.result_cap) :
    ∃ res, aob_scan exec regions p opt = some res ∧ res.addresses.Pairwise (· < ·) ∧
      ∀ a, a ∈ res.addresses ↔ a ∈ raw_seen opt p mem regions := by
  have hperm := (exec.span_order_perm opt (aob_spans opt p regions)).flatMap_right
    fun s => span_seen opt p mem s.e s.b
  obtain ⟨res, hscan, hsorted, hmem⟩ := aob_scan_seen hsteady hspans
  refine ⟨res, hscan, hsorted, fun a => ?_⟩
  rw [hmem, List.take_of_length_le (hperm.length_eq.trans_le hroom)]
  exact hperm.mem_iff

/-- Without holes the walks see the matches of all spans. -/
theorem raw_seen_eq {opt : aob_scan_options_t} {p : aob_pattern_t} {mem : memory_t} {regions : List scan_region_t}
    (hreadable : ∀ s ∈ aob_spans opt p regions, ∀ a, s.b ≤ a → a < s.e → (mem a).isSome) :
    raw_seen opt p mem regions = raw_hits opt p mem regions :=
  List.flatMap_congr fun s hs => span_seen_eq (hreadable s hs)

theorem aob_scan_eq {opt : aob_scan_options_t} {p : aob_pattern_t} {mem : memory_t} {exec : aob_exec_t}
    {regions : List scan_region_t} (hsteady : exec.Steady mem)
    (hspans : ∀ s ∈ aob_spans opt p regions, s.e ≤ user_space_end ∧ opt.ChunksFit p s.b s.e ∧
      ∀ a, s.b ≤ a → a < s.e → (mem a).isSome)
    (hroom : (raw_hits opt p mem regions).length ≤ opt.result_cap) :
    ∃ res, aob_scan exec regions p opt = some res ∧ res.addresses.Pairwise (· < ·) ∧
      ∀ a, a ∈ res.addresses ↔ a ∈ raw_hits opt p mem regions := by
  have hseen : raw_seen opt p mem regions = _ := raw_seen_eq fun s hs => (hspans s hs).2.2
  rw [← hseen] at hroom ⊢
  exact aob_scan_all_seen hsteady (fun s hs => ⟨(hspans s hs).1, (hspans s hs).2.1⟩) hroom

end slop.core.memory
