import ReverseSlop.Core.Memory.Memscan.Workers

namespace slop.core.memory

open detail

def scan_region_t.addresses (reg : scan_region_t) : List Nat := List.range' reg.base reg.size

def region_copy_t.addresses (rc : region_copy_t) : List Nat := List.range' rc.base rc.bytes.length

section

variable (r : reader_t) (tok : cancel_token_t) (aborted : Nat → Bool) (cfg : scan_config_t)

/-- A walk hands on no address twice. -/
theorem chunk_runs_addresses (end_addr cursor n : Nat) :
    ((chunk_runs r tok cfg end_addr cursor n).1.flatMap run_t.addresses).Subperm
      (List.range' cursor (end_addr - cursor)) := by
  fun_induction chunk_runs r tok cfg end_addr cursor n with
  | case1 => exact List.nil_subperm
  | case2 cursor n hmore hlive want runs next hread rest last hrest ih =>
    have hruns := resilient_read_addresses r tok cursor want 4096 (n + 1)
    rw [hread] at hruns
    rw [hrest] at ih
    have hsplit : end_addr - cursor = want + (end_addr - (cursor + want)) := by omega
    rw [List.flatMap_append, hsplit, ← List.range'_append_1]
    exact hruns.append ih
  | case3 => exact List.nil_subperm

private theorem chunk_runs_nonempty (end_addr cursor n : Nat) :
    ∀ run ∈ (chunk_runs r tok cfg end_addr cursor n).1, run.data ≠ [] := by
  have hpos := cfg.chunk_pos
  fun_induction chunk_runs r tok cfg end_addr cursor n with
  | case1 => simp
  | case2 cursor n hmore hlive want runs next hread rest last hrest ih =>
    have hruns : ∀ run ∈ (resilient_read r tok cursor want 4096 (n + 1)).1, run.data ≠ [] :=
      resilient_read_nonempty r tok (by omega)
    rw [hread] at hruns
    rw [hrest] at ih
    intro run hrun
    rcases List.mem_append.mp hrun with hhere | hthere
    · exact hruns run hhere
    · exact ih run hthere
  | case3 => simp

theorem share_runs_addresses (regions : List scan_region_t) (n : Nat) :
    ((share_runs r tok aborted cfg regions n).flatMap run_t.addresses).Subperm
      (regions.flatMap scan_region_t.addresses) := by
  induction regions generalizing n with
  | nil => exact List.nil_subperm
  | cons reg rest ih =>
    unfold share_runs
    split
    · exact List.nil_subperm
    · have hwalk := chunk_runs_addresses r tok cfg (reg.base + reg.size) reg.base (n + 1)
      rw [Nat.add_sub_cancel_left] at hwalk
      dsimp only
      rw [List.flatMap_append, List.flatMap_cons]
      exact hwalk.append (ih _)

theorem share_runs_nonempty (regions : List scan_region_t) (n : Nat) :
    ∀ run ∈ share_runs r tok aborted cfg regions n, run.data ≠ [] := by
  induction regions generalizing n with
  | nil => simp [share_runs]
  | cons reg rest ih =>
    unfold share_runs
    split
    · simp
    · intro run hrun
      rcases List.mem_append.mp hrun with hhere | hthere
      · exact chunk_runs_nonempty r tok cfg _ _ _ run hhere
      · exact ih _ run hthere

variable (fs : fastscan_t)

private theorem keys_copy_rows (rc : region_copy_t) (run : run_t) :
    ((copy_rows cfg fs rc run).map scan_result_t.key).Sublist (run.addresses.flatMap cfg.keys_at) := by
  unfold copy_rows
  dsimp only
  split
  · exact List.nil_sublist _
  · refine (keys_run_rows cfg fs run.addr _ _).trans (List.Sublist.flatMap ?_ _)
    exact Shares.range'_sublist le_rfl (by rw [List.length_take]; omega)

theorem keys_stash_rows (stash : List region_copy_t) (n : Nat) :
    ((stash_rows r tok aborted cfg fs stash n).map scan_result_t.key).Subperm
      ((stash.flatMap region_copy_t.addresses).flatMap cfg.keys_at) := by
  induction stash generalizing n with
  | nil => exact List.nil_subperm
  | cons rc rest ih =>
    unfold stash_rows
    split
    · exact List.nil_subperm
    · have hruns := resilient_read_addresses r tok rc.base rc.bytes.length 4096 (n + 1)
      dsimp only
      rw [List.map_append, List.flatMap_cons, List.flatMap_append, List.map_flatMap]
      refine List.Subperm.append (List.Subperm.trans ?_ (Shares.subperm_flatMap hruns cfg.keys_at)) (ih _)
      rw [List.flatMap_assoc]
      exact Shares.flatMap_subperm fun run _ => (keys_copy_rows cfg fs rc run).subperm

private theorem keys_kept_row (row : scan_result_t) (n : Nat) :
    ((kept_row r cfg row n).map scan_result_t.key).Sublist [row.key] := by
  unfold kept_row
  split
  · exact List.nil_sublist _
  · dsimp only
    split
    · exact .refl _
    · exact List.nil_sublist _

private theorem keys_batch_rows (batch : List scan_result_t) (n : Nat) :
    ((batch_rows r cfg batch n).map scan_result_t.key).Sublist (batch.map scan_result_t.key) := by
  induction batch generalizing n with
  | nil => exact .refl _
  | cons row rest ih =>
    rw [batch_rows, List.map_append, List.map_cons]
    exact (keys_kept_row r cfg row n).append (ih (n + 1))

theorem keys_claimed_rows (batches : List (List scan_result_t)) (n : Nat) :
    ((claimed_rows r tok cfg batches n).map scan_result_t.key).Sublist
      (batches.flatMap fun batch => batch.map scan_result_t.key) := by
  induction batches generalizing n with
  | nil => exact .refl _
  | cons batch rest ih =>
    unfold claimed_rows
    split
    · exact List.nil_sublist _
    · rw [List.map_append, List.flatMap_cons]
      exact (keys_batch_rows r cfg batch (n + 1)).append (ih _)

end

/-- The runs of a region in a memory that stands still. -/
def region_runs (cfg : scan_config_t) (mem : memory_t) (reg : scan_region_t) : List run_t :=
  (chunk_runs mem.reader idle cfg (reg.base + reg.size) reg.base 0).1

/-- The rows of a copy in a memory that stands still. -/
def compared_rows (cfg : scan_config_t) (fs : fastscan_t) (mem : memory_t) (rc : region_copy_t) : List scan_result_t :=
  (resilient_read mem.reader idle rc.base rc.bytes.length 4096 0).1.flatMap (copy_rows cfg fs rc)

section

variable {r r' : reader_t} {tok tok' : cancel_token_t} {aborted : Nat → Bool} {cfg : scan_config_t} {mem : memory_t}

private theorem chunk_runs_same (hreads : SameAnswers r r') (hlive : ∀ n, tok.cancelled n = false)
    (hlive' : ∀ n, tok'.cancelled n = false) (end_addr cursor n n' : Nat) :
    (chunk_runs r tok cfg end_addr cursor n).1 = (chunk_runs r' tok' cfg end_addr cursor n').1 := by
  fun_induction chunk_runs r tok cfg end_addr cursor n generalizing n' with
  | case1 cursor n hmore hcancel => simp [hlive] at hcancel
  | case2 cursor n hmore hlive want runs next hread rest last hrest ih =>
    have hruns := resilient_read_same hreads ‹∀ n, tok.cancelled n = false› hlive' cursor want 4096 (n + 1) (n' + 1)
    rw [hread] at hruns
    rw [hrest] at ih
    conv_rhs => rw [chunk_runs]
    rw [if_pos hmore, if_neg (by simp [hlive'])]
    dsimp only at hruns ih ⊢
    rw [hruns, ih]
  | case3 cursor n hdone =>
    conv_rhs => rw [chunk_runs, if_neg hdone]

section

variable (hreads : ∀ n addr len, r.read n addr len = mem.read addr len) (hlive : ∀ n, tok.cancelled n = false)

include hreads hlive

theorem share_runs_steady (haborted : ∀ n, aborted n = false) (regions : List scan_region_t) (n : Nat) :
    share_runs r tok aborted cfg regions n = regions.flatMap (region_runs cfg mem) := by
  induction regions generalizing n with
  | nil => rfl
  | cons reg rest ih =>
    have hsame : SameAnswers r mem.reader := fun n n' addr len => hreads n addr len
    unfold share_runs
    rw [if_neg (by simp [haborted, hlive])]
    dsimp only
    rw [ih, List.flatMap_cons, region_runs, chunk_runs_same hsame hlive idle_live]

theorem stash_rows_steady (haborted : ∀ n, aborted n = false) (fs : fastscan_t) (stash : List region_copy_t) (n : Nat) :
    stash_rows r tok aborted cfg fs stash n = stash.flatMap (compared_rows cfg fs mem) := by
  induction stash generalizing n with
  | nil => rfl
  | cons rc rest ih =>
    have hsame : SameAnswers r mem.reader := fun n n' addr len => hreads n addr len
    unfold stash_rows
    rw [if_neg (by simp [haborted, hlive])]
    dsimp only
    rw [ih, List.flatMap_cons, compared_rows, resilient_read_same hsame hlive idle_live]

omit hlive in
private theorem batch_rows_steady (batch : List scan_result_t) (n : Nat) :
    batch_rows r cfg batch n = batch.flatMap fun row => kept_row mem.reader cfg row 0 := by
  induction batch generalizing n with
  | nil => rfl
  | cons row rest ih =>
    have hrow : kept_row r cfg row n = kept_row mem.reader cfg row 0 := by
      unfold kept_row
      rw [hreads]
      rfl
    rw [batch_rows, ih, hrow, List.flatMap_cons]

theorem claimed_rows_steady (batches : List (List scan_result_t)) (n : Nat) :
    claimed_rows r tok cfg batches n =
      batches.flatMap fun batch => batch.flatMap fun row => kept_row mem.reader cfg row 0 := by
  induction batches generalizing n with
  | nil => rfl
  | cons batch rest ih =>
    unfold claimed_rows
    rw [if_neg (by simp [hlive]), ih, batch_rows_steady hreads, List.flatMap_cons]

end

end

end slop.core.memory
