import ReverseSlop.Core.Debugger.Locks
import ReverseSlop.Library.Lists
import ReverseSlop.Library.Keyed

namespace slop.core.debugger

open runtime Buffer

/-- The range of a watchpoint. -/
structure range_t where
  addr : UInt64
  len : UInt64
  deriving DecidableEq

/-- The page holds a byte of the range. -/
abbrev range_t.Covers (r : range_t) (page : Nat) : Prop := touches r.addr r.len page

/-- A protection, with read-write in place of none. -/
def or_read_write (prot : UInt32) : UInt32 := if prot ≠ 0 then prot else 0x04

/-- A call of `set_watchpoint` is refused when there is a watchpoint at its address. The
ranges are kept latest first. -/
def accept (set : List range_t) (r : range_t) : List range_t :=
  if set.any fun r' => r'.addr = r.addr then set else r :: set

def accepted (calls : List range_t) : List range_t := calls.foldl accept []

/-- The ranges set before one, latest first. -/
def before (set : List range_t) (r : range_t) : List range_t := (set.dropWhile fun r' => r'.addr ≠ r.addr).tail

/-- Where the protection found on a page comes from: the latest range that covers it took
it from its own first page, and so on; and whether there was such a range. -/
def origin : List range_t → Nat → Nat × Bool
  | [], page => (page, false)
  | r :: set, page => if r.Covers page then ((origin set (page_of r.addr)).1, true) else origin set page

/-- What a range records when it is set after others. -/
def recorded (prot : Nat → UInt32) (set : List range_t) (r : range_t) : UInt32 :=
  or_read_write (prot (origin set (page_of r.addr)).1) |||
    if (origin set (page_of r.addr)).2 then kPageGuardFlag else 0

/-- Every page a range covers gets back its own protection: the range cleared last among
those that cover it took its protection from a page with that same protection, and not
through the guard of another range. -/
def Restores (prot : Nat → UInt32) (set order : List range_t) : Prop :=
  ∀ page r, Overwrite.last range_t.Covers order page = some r → recorded prot (before set r) r = prot page

/-- The protections once ranges are set. -/
def guarded (prot : Nat → UInt32) : List range_t → Nat → UInt32
  | [] => prot
  | r :: set => fun page => if r.Covers page then recorded prot set r ||| kPageGuardFlag else guarded prot set page

/-- The watchpoints once ranges are set. -/
def armed_watches (prot : Nat → UInt32) : List range_t → List watchpoint_t
  | [] => []
  | r :: set => armed_watches prot set ++ [{ addr := r.addr, len := r.len, orig_prot := recorded prot set r }]

def debugger_t.set_all (io : backend_t) (s : debugger_t) (calls : List range_t) : debugger_t :=
  calls.foldl (fun s r => (s.set_watchpoint io r.addr r.len).2) s

def debugger_t.clear_all (io : backend_t) (s : debugger_t) (order : List range_t) : debugger_t :=
  order.foldl (fun s r => (s.clear_watchpoint io r.addr).2) s

theorem guard_ne_zero (prot : UInt32) : prot ||| kPageGuardFlag ≠ 0 := by
  intro h
  have hguard : kPageGuardFlag = 0 := (UInt32.or_eq_zero_iff.mp h).2
  exact absurd hguard (by decide)

theorem or_guard_guard (prot : UInt32) (b : Bool) :
    (prot ||| if b then kPageGuardFlag else 0) ||| kPageGuardFlag = prot ||| kPageGuardFlag := by
  cases b with
  | true => rw [if_pos rfl, UInt32.or_assoc, UInt32.or_self]
  | false => rw [if_neg Bool.false_ne_true, UInt32.or_zero]

/-- A page shows the protection of its origin, with the guard of the ranges between. -/
theorem or_read_write_guarded (prot : Nat → UInt32) (set : List range_t) (page : Nat) :
    or_read_write (guarded prot set page) = or_read_write (prot (origin set page).1) |||
      if (origin set page).2 then kPageGuardFlag else 0 := by
  induction set generalizing page with
  | nil =>
    rw [origin, if_neg Bool.false_ne_true, UInt32.or_zero]
    rfl
  | cons r set ih =>
    by_cases hcovers : r.Covers page
    · have horigin : origin (r :: set) page = ((origin set (page_of r.addr)).1, true) := if_pos hcovers
      have hguarded : guarded prot (r :: set) page = recorded prot set r ||| kPageGuardFlag := if_pos hcovers
      rw [hguarded, horigin, or_read_write, if_pos (guard_ne_zero _), recorded, or_guard_guard]
      rfl
    · have horigin : origin (r :: set) page = origin set page := if_neg hcovers
      have hguarded : guarded prot (r :: set) page = guarded prot set page := if_neg hcovers
      rw [hguarded, horigin, ih]

theorem guarded_uncovered {prot : Nat → UInt32} {set : List range_t} {page : Nat}
    (hnone : ∀ r ∈ set, ¬ r.Covers page) : guarded prot set page = prot page := by
  induction set with
  | nil => rfl
  | cons r set ih =>
    have hguarded : guarded prot (r :: set) page = guarded prot set page := if_neg (hnone r List.mem_cons_self)
    rw [hguarded, ih fun r' hr' => hnone r' (List.mem_cons_of_mem r hr')]

section

variable {io : backend_t} {s : debugger_t} {prot : Nat → UInt32} {set : List range_t}

/-- What holds after the ranges have been set. -/
structure Watched (prot : Nat → UInt32) (set : List range_t) (s : debugger_t) : Prop where
  watches : s.watches = armed_watches prot set
  prot : s.target.prot = guarded prot set

theorem mem_armed_watches {w : watchpoint_t} (hw : w ∈ armed_watches prot set) : ∃ r ∈ set, r.addr = w.addr := by
  induction set with
  | nil => cases hw
  | cons r set ih =>
    rcases List.mem_append.mp hw with hw | hw
    · obtain ⟨r', hr', haddr⟩ := ih hw
      exact ⟨r', List.mem_cons_of_mem r hr', haddr⟩
    · rw [List.mem_singleton.mp hw]
      exact ⟨r, List.mem_cons_self, rfl⟩

theorem armed_watches_addr {r : range_t} (hr : r ∈ set) : ∃ w ∈ armed_watches prot set, w.addr = r.addr := by
  induction set with
  | nil => cases hr
  | cons r' set ih =>
    rcases List.mem_cons.mp hr with rfl | hr
    · exact ⟨_, List.mem_append_right _ (List.mem_singleton.mpr rfl), rfl⟩
    · obtain ⟨w, hw, haddr⟩ := ih hr
      exact ⟨w, List.mem_append_left _ hw, haddr⟩

/-- One call of `set_watchpoint`. -/
theorem Watched.set_watchpoint (hs : Watched prot set s)
    (hio : ∀ addr len prot, io.protect_ok addr len prot = true) (r : range_t) :
    Watched prot (accept set r) (s.set_watchpoint io r.addr r.len).2 := by
  unfold accept debugger_t.set_watchpoint
  by_cases htaken : (set.any fun r' => r'.addr = r.addr) = true
  · obtain ⟨r', hr', haddr⟩ := List.any_eq_true.mp htaken
    obtain ⟨w, hw, hsame⟩ : ∃ w ∈ armed_watches prot set, w.addr = r'.addr := armed_watches_addr hr'
    have hwatched : (s.watches.any fun w => w.addr = r.addr) = true := by
      rw [hs.watches]
      exact List.any_eq_true.mpr ⟨w, hw, decide_eq_true (hsame.trans (of_decide_eq_true haddr))⟩
    rw [if_pos htaken, if_pos hwatched]
    exact hs
  · have hfree : ¬ (s.watches.any fun w => w.addr = r.addr) = true := by
      intro hwatched
      obtain ⟨w, hw, haddr⟩ := List.any_eq_true.mp hwatched
      rw [hs.watches] at hw
      obtain ⟨r', hr', hsame⟩ := mem_armed_watches hw
      exact htaken (List.any_eq_true.mpr ⟨r', hr', decide_eq_true (hsame.trans (of_decide_eq_true haddr))⟩)
    have hcur : (if s.target.prot (page_of r.addr) ≠ 0 then s.target.prot (page_of r.addr) else 0x04) =
        recorded prot set r := by
      rw [hs.prot, recorded, ← or_read_write_guarded]
      rfl
    rw [if_neg htaken, if_neg hfree]
    simp only [protect_memory_ok (hio _ _ _), hcur]
    refine ⟨?_, ?_⟩
    · rw [debugger_t.watches_push_event, hs.watches]
      rfl
    · rw [debugger_t.target_push_event]
      funext page
      by_cases hcovers : r.Covers page
      · exact (if_pos hcovers).trans (if_pos hcovers).symm
      · refine (if_neg hcovers).trans ((if_neg hcovers).trans ?_)
        rw [hs.prot]
        exact (if_neg hcovers).symm

theorem Watched.set_all (hs : Watched prot set s) (hio : ∀ addr len prot, io.protect_ok addr len prot = true)
    (calls : List range_t) : Watched prot (calls.foldl accept set) (s.set_all io calls) := by
  induction calls generalizing s set with
  | nil => exact hs
  | cons r calls ih => exact ih (hs.set_watchpoint hio r)

theorem accept_distinct (hset : Keyed.Distinct range_t.addr set) (calls : List range_t) :
    Keyed.Distinct range_t.addr (calls.foldl accept set) := by
  induction calls generalizing set with
  | nil => exact hset
  | cons r calls ih =>
    refine ih ?_
    unfold accept
    split
    · exact hset
    · rename_i hfree
      refine List.pairwise_cons.mpr ⟨fun r' hr' hsame => ?_, hset⟩
      exact hfree (List.any_eq_true.mpr ⟨r', hr', decide_eq_true hsame.symm⟩)

theorem before_cons_self (r : range_t) (set : List range_t) : before (r :: set) r = set := by
  unfold before
  rw [List.dropWhile_cons_of_neg (by simp)]
  rfl

theorem before_cons_of_ne {r r' : range_t} (hne : r.addr ≠ r'.addr) (set : List range_t) :
    before (r :: set) r' = before set r' := by
  unfold before
  rw [List.dropWhile_cons_of_pos (by simp [hne])]

/-- The watchpoint of a range among the ranges set. -/
def watch_of (prot : Nat → UInt32) (set : List range_t) (r : range_t) : watchpoint_t :=
  { addr := r.addr, len := r.len, orig_prot := recorded prot (before set r) r }

theorem armed_watches_eq_map (hset : Keyed.Distinct range_t.addr set) :
    armed_watches prot set = set.reverse.map (watch_of prot set) := by
  induction set with
  | nil => rfl
  | cons r set ih =>
    obtain ⟨hne, hrest⟩ := List.pairwise_cons.mp hset
    rw [armed_watches, ih hrest, List.reverse_cons, List.map_append, List.map_singleton, watch_of, before_cons_self]
    congr 1
    refine List.map_congr_left fun r' hr' => ?_
    rw [watch_of, watch_of, before_cons_of_ne (hne r' (List.mem_reverse.mp hr'))]

theorem restore_watch_prot (hio : ∀ addr len prot, io.protect_ok addr len prot = true) (t : target_t)
    (r : range_t) : (restore_watch io t (watch_of prot set r)).prot =
      Overwrite.write range_t.Covers (fun r => recorded prot (before set r) r) t.prot r := by
  unfold restore_watch
  rw [protect_memory_ok (hio _ _ _)]
  rfl

theorem clear_watchpoint_eq (hwatches : Keyed.Distinct watchpoint_t.addr s.watches) {w : watchpoint_t}
    (hw : w ∈ s.watches) (io : backend_t) : ∃ i, s.watches[i]? = some w ∧ (s.clear_watchpoint io w.addr).2 =
      { s with target := restore_watch io s.target w, watches := s.watches.eraseIdx i } := by
  cases hfind : s.watches.findIdx? fun w' => w'.addr = w.addr with
  | none =>
    have hnone := List.findIdx?_eq_none_iff.mp hfind w hw
    exact absurd rfl (of_decide_eq_false hnone)
  | some i =>
    obtain ⟨hlt, htest, -⟩ := List.findIdx?_eq_some_iff_getElem.mp hfind
    have hsame : s.watches[i] = w := hwatches.eq_of_key (List.getElem_mem hlt) hw (of_decide_eq_true htest)
    have hget : s.watches[i]? = some w := by rw [List.getElem?_eq_getElem hlt, hsame]
    refine ⟨i, hget, ?_⟩
    simp only [debugger_t.clear_watchpoint, hfind, hget]

/-- Clearing the watchpoints of some ranges writes what each of them recorded. -/
theorem clear_all_prot (hio : ∀ addr len prot, io.protect_ok addr len prot = true) {order : List range_t}
    (horder : Keyed.Distinct range_t.addr order) (hwatches : Keyed.Distinct watchpoint_t.addr s.watches)
    (hthere : ∀ r ∈ order, watch_of prot set r ∈ s.watches) :
    (s.clear_all io order).target.prot =
      order.foldl (Overwrite.write range_t.Covers fun r => recorded prot (before set r) r) s.target.prot := by
  induction order generalizing s with
  | nil => rfl
  | cons r order ih =>
    obtain ⟨hne, hrest⟩ := List.pairwise_cons.mp horder
    obtain ⟨i, hget, hclear⟩ := clear_watchpoint_eq hwatches (hthere r List.mem_cons_self) io
    have hcleared : (s.clear_watchpoint io r.addr).2 = _ := hclear
    rw [debugger_t.clear_all, List.foldl_cons, List.foldl_cons, hcleared, ← restore_watch_prot hio]
    refine ih hrest (hwatches.sublist (List.eraseIdx_sublist _ _)) fun r' hr' => ?_
    obtain ⟨j, hj⟩ := List.getElem?_of_mem (hthere r' (List.mem_cons_of_mem r hr'))
    refine List.mem_eraseIdx_iff_getElem?.mpr ⟨j, ?_, hj⟩
    rintro rfl
    rw [hget] at hj
    exact hne r' hr' (congrArg watchpoint_t.addr (Option.some.inj hj))

theorem restore_fold_prot (hio : ∀ addr len prot, io.protect_ok addr len prot = true) (l : List range_t)
    (t : target_t) : ((l.map (watch_of prot set)).foldl (restore_watch io) t).prot =
      l.foldl (Overwrite.write range_t.Covers fun r => recorded prot (before set r) r) t.prot := by
  induction l generalizing t with
  | nil => rfl
  | cons r l ih => rw [List.map_cons, List.foldl_cons, List.foldl_cons, ih, restore_watch_prot hio]

/-- The address of the page of a byte. -/
theorem page_toNat (va : UInt64) : (va &&& ~~~(0xFFF : UInt64)).toNat = page_of va * 4096 := by
  have hmask : (~~~(0xFFF : UInt64)).toNat = 2 ^ 64 - (0xFFF + 1) := rfl
  have hlow : ∀ i, (4095 : Nat).testBit i = decide (i < 12) := Nat.testBit_two_pow_sub_one 12
  rw [UInt64.toNat_and, hmask, page_of]
  refine Nat.eq_of_testBit_eq fun i => ?_
  rw [Nat.testBit_and, Nat.testBit_two_pow_sub_succ (by decide), hlow, show 4096 = 2 ^ 12 from rfl,
    Nat.testBit_mul_two_pow, Nat.testBit_div_two_pow]
  by_cases h : i < 12
  · simp [h]
  · rw [Nat.sub_add_cancel (by omega)]
    by_cases hi : i < 64
    · simp [h, hi]
      omega
    · have hlt : va.toNat < 2 ^ i := Nat.lt_of_lt_of_le va.toNat_lt (Nat.pow_le_pow_right (by decide) (by omega))
      rw [Nat.testBit_lt_two_pow hlt]
      simp

theorem touches_page (va : UInt64) (page : Nat) : touches (va &&& ~~~0xFFF) 0x1000 page ↔ page = page_of va := by
  have haddr := page_toNat va
  have hlen : (0x1000 : UInt64).toNat = 4096 := rfl
  unfold touches
  rw [haddr, hlen, page_of, haddr]
  omega

theorem page_of_page (va : UInt64) : page_of (va &&& ~~~0xFFF) = page_of va := by
  have haddr := page_toNat va
  rw [page_of, haddr, Nat.mul_div_cancel _ (by decide)]

theorem write_memory_prot {t t' : target_t} {va : UInt64} {val : UInt8} (hwrite : io.write_memory t va val = some t') :
    t'.prot = t.prot := by
  unfold backend_t.write_memory at hwrite
  split at hwrite <;> cases hwrite
  rfl

/-- A stealth write leaves the protection of its page, unless it was none. -/
theorem write_byte_stealth_prot (hio : ∀ addr len prot, io.protect_ok addr len prot = true) (t : target_t)
    (va : UInt64) (val : UInt8) (page : Nat) : (write_byte_stealth io t va val).1.prot page =
      if page = page_of va then or_read_write (t.prot page) else t.prot page := by
  have hflip : ∀ (t : target_t) (old : UInt32), (if touches (va &&& ~~~0xFFF) 0x1000 page then old
      else if touches (va &&& ~~~0xFFF) 0x1000 page then 0x04 else t.prot page) =
        if page = page_of va then old else t.prot page := by
    intro t old
    by_cases h : page = page_of va
    · rw [if_pos ((touches_page va page).mpr h), if_pos h]
    · rw [if_neg (mt (touches_page va page).mp h), if_neg (mt (touches_page va page).mp h), if_neg h]
  have hown : (if page = page_of va then or_read_write (t.prot (page_of va)) else t.prot page) =
      if page = page_of va then or_read_write (t.prot page) else t.prot page := by
    by_cases h : page = page_of va
    · rw [h]
    · rw [if_neg h, if_neg h]
  unfold write_byte_stealth
  simp only [protect_memory_ok (hio _ _ _), page_of_page]
  rw [← hown, ← hflip t]
  cases hwrite : io.write_memory { t with
      prot := fun page => if touches (va &&& ~~~0xFFF) 0x1000 page then 0x04 else t.prot page } va val with
  | none => rfl
  | some t' => simp only [write_memory_prot hwrite]; rfl

/-- An int3 of the debugger is in memory for this entry. -/
def breakpoint_t.planted (bp : breakpoint_t) : Prop := bp.armed = true ∧ bp.hardware = false

theorem disarm_bp_prot (hio : ∀ addr len prot, io.protect_ok addr len prot = true) (t : target_t) (bp : breakpoint_t)
    (page : Nat) : (bp.planted ∧ page_of bp.addr = page → (disarm_bp io t bp).1.prot page = or_read_write (t.prot page)) ∧
      (¬ (bp.planted ∧ page_of bp.addr = page) → (disarm_bp io t bp).1.prot page = t.prot page) := by
  have hwrite := write_byte_stealth_prot hio t bp.addr bp.orig_byte page
  have hprot : ¬ (!bp.armed || bp.hardware) = true → (disarm_bp io t bp).1.prot page =
      (write_byte_stealth io t bp.addr bp.orig_byte).1.prot page := by
    intro hset
    unfold disarm_bp
    rw [if_neg hset]
    split <;> rename_i heq <;> rw [heq]
  by_cases hset : (!bp.armed || bp.hardware) = true
  · have hnot : ¬ bp.planted := by
      rintro ⟨harmed, hsoft⟩
      rw [harmed, hsoft] at hset
      cases hset
    have hkept : disarm_bp io t bp = (t, bp) := if_pos hset
    rw [hkept]
    exact ⟨fun h => absurd h.1 hnot, fun _ => rfl⟩
  · have hplanted : bp.planted := by simpa [breakpoint_t.planted] using hset
    rw [hprot hset, hwrite]
    refine ⟨fun h => if_pos h.2.symm, fun h => if_neg fun hpage => h ⟨hplanted, hpage.symm⟩⟩

/-- Disarming never makes an entry planted. -/
theorem planted_of_disarm {t : target_t} {bp : breakpoint_t} (h : (disarm_bp io t bp).2.planted) :
    bp.planted ∧ (disarm_bp io t bp).2.addr = bp.addr := by
  unfold disarm_bp at h ⊢
  split at h
  · rename_i hset
    rw [if_pos hset]
    exact ⟨h, rfl⟩
  · rename_i hset
    rw [if_neg hset]
    split at h
    · exact ⟨h, rfl⟩
    · exact absurd h.1 Bool.false_ne_true

/-- No entry at this position is planted on the page. -/
def debugger_t.NotOn (s : debugger_t) (page i : Nat) : Prop :=
  ∀ b, s.bps.elems[i]? = some b → b.planted → page_of b.addr ≠ page

theorem not_on_disarm_at {page i : Nat} (hi : s.NotOn page i) (j : Nat) :
    (s.disarm_at io i).NotOn page j ↔ s.NotOn page j := by
  unfold debugger_t.disarm_at debugger_t.on_entry
  split
  · exact Iff.rfl
  · rename_i bp hget
    by_cases hij : i = j
    · subst hij
      refine iff_of_true ?_ hi
      intro b hb hplanted
      rw [Vec.elems_modify, List.getElem?_modify_eq, hget] at hb
      cases hb
      obtain ⟨hbp, haddr⟩ := planted_of_disarm hplanted
      rw [haddr]
      exact hi bp hget hbp
    · have hsame : (s.bps.elems.modify i fun _ => (disarm_bp io s.target bp).2)[j]? = s.bps.elems[j]? :=
        List.getElem?_modify_ne _ _ hij
      unfold debugger_t.NotOn
      rw [Vec.elems_modify, hsame]

theorem disarm_at_prot (hio : ∀ addr len prot, io.protect_ok addr len prot = true) (s : debugger_t) (i page : Nat) :
    (s.NotOn page i → (s.disarm_at io i).target.prot page = s.target.prot page) ∧
      (¬ s.NotOn page i → (s.disarm_at io i).target.prot page = or_read_write (s.target.prot page)) := by
  unfold debugger_t.disarm_at debugger_t.on_entry debugger_t.NotOn
  cases hget : s.bps.elems[i]? with
  | none => exact ⟨fun _ => rfl, fun h => absurd (fun b hb => by cases hb) h⟩
  | some bp =>
    obtain ⟨hon, hoff⟩ := disarm_bp_prot hio s.target bp page
    refine ⟨fun h => hoff fun hbp => h bp rfl hbp.1 hbp.2, fun h => hon ?_⟩
    by_contra hnot
    refine h fun b hb hplanted hpage => hnot ?_
    cases hb
    exact ⟨hplanted, hpage⟩

/-- Disarming the entries changes a page only if it has no protection and an entry is
planted on it. -/
theorem disarm_fold_prot (hio : ∀ addr len prot, io.protect_ok addr len prot = true) (l : List Nat) (s : debugger_t)
    (page : Nat) :
    (s.target.prot page ≠ 0 → (l.foldl (fun s i => s.disarm_at io i) s).target.prot page = s.target.prot page) ∧
      (s.target.prot page = 0 →
        ((l.foldl (fun s i => s.disarm_at io i) s).target.prot page = 0 ↔ ∀ i ∈ l, s.NotOn page i)) := by
  induction l generalizing s with
  | nil => exact ⟨fun _ => rfl, fun h => iff_of_true h fun i hi => absurd hi List.not_mem_nil⟩
  | cons i l ih =>
    obtain ⟨hkept, hflipped⟩ := disarm_at_prot hio s i page
    obtain ⟨hsome, hnone⟩ := ih (s.disarm_at io i)
    rw [List.foldl_cons]
    by_cases hi : s.NotOn page i
    · rw [hkept hi] at hsome hnone
      refine ⟨hsome, fun hzero => (hnone hzero).trans ?_⟩
      simp only [not_on_disarm_at hi, List.mem_cons, forall_eq_or_imp, hi, true_and]
    · rw [hflipped hi] at hsome
      refine ⟨fun hne => ?_, fun hzero => ?_⟩
      · have hsame : or_read_write (s.target.prot page) = s.target.prot page := if_pos hne
        rw [hsame] at hsome
        exact hsome hne
      · have hset : or_read_write (s.target.prot page) = 0x04 := by rw [hzero]; rfl
        rw [hset] at hsome
        have hfour : (0x04 : UInt32) ≠ 0 := by decide
        rw [hsome hfour]
        exact iff_of_false hfour fun h => hi (h i List.mem_cons_self)

theorem set_all_bps (io : backend_t) (s : debugger_t) (calls : List range_t) : (s.set_all io calls).bps = s.bps := by
  induction calls generalizing s with
  | nil => rfl
  | cons r calls ih =>
    have hstep : (s.set_watchpoint io r.addr r.len).2.bps = s.bps := by
      unfold debugger_t.set_watchpoint
      split
      · rfl
      · split
        · rfl
        · dsimp only
          split <;> rfl
    rw [debugger_t.set_all, List.foldl_cons]
    exact (ih _).trans hstep

theorem watches_disarm_fold (l : List Nat) (s : debugger_t) :
    (l.foldl (fun s i => s.disarm_at io i) s).watches = s.watches := by
  induction l generalizing s with
  | nil => rfl
  | cons i l ih =>
    rw [List.foldl_cons, ih, debugger_t.disarm_at]
    unfold debugger_t.on_entry
    split <;> rfl

/-- A series of writes over the guarded pages gives every page its own protection back
exactly when each covered page last gets its own. -/
theorem writes_restore_iff {order : List range_t} (hcover : ∀ r ∈ set, r ∈ order) :
    (∀ page, order.foldl (Overwrite.write range_t.Covers fun r => recorded prot (before set r) r)
      (guarded prot set) page = prot page) ↔ Restores prot set order := by
  simp only [Overwrite.foldl_write]
  refine ⟨fun h page r hlast => ?_, fun h page => ?_⟩
  · have hpage := h page
    rw [hlast] at hpage
    exact hpage
  · cases hlast : Overwrite.last range_t.Covers order page with
    | some r => exact h page r hlast
    | none => exact guarded_uncovered fun r hr => Overwrite.last_eq_none _ hlast r (hcover r hr)

theorem clear_restores_iff (hs : Watched prot set s) (hio : ∀ addr len prot, io.protect_ok addr len prot = true)
    (hset : Keyed.Distinct range_t.addr set) {order : List range_t} (horder : order.Perm set) :
    (∀ page, (s.clear_all io order).target.prot page = prot page) ↔ Restores prot set order := by
  have hwatches : s.watches = set.reverse.map (watch_of prot set) := hs.watches.trans (armed_watches_eq_map hset)
  have hclear : (s.clear_all io order).target.prot =
      order.foldl (Overwrite.write range_t.Covers fun r => recorded prot (before set r) r) s.target.prot := by
    refine clear_all_prot hio (horder.symm.pairwise hset fun h => h.symm) ?_ ?_
    · rw [hwatches]
      refine List.pairwise_map.mpr (List.pairwise_reverse.mpr ?_)
      exact hset.imp fun h => h.symm
    · intro r hr
      rw [hwatches]
      exact List.mem_map_of_mem (List.mem_reverse.mpr (horder.mem_iff.mp hr))
  rw [hclear, hs.prot]
  exact writes_restore_iff fun r hr => horder.symm.mem_iff.mp hr

theorem detach_restores_iff (hs : Watched prot set s) (hio : ∀ addr len prot, io.protect_ok addr len prot = true)
    (hset : Keyed.Distinct range_t.addr set) :
    (∀ page, (s.detach_disarm io).target.prot page = prot page) ↔ Restores prot set set.reverse ∧
      ∀ b ∈ s.bps.elems, b.planted → prot (page_of b.addr) = 0 → ∃ r ∈ set, r.Covers (page_of b.addr) := by
  have hdetach : ∀ page, (s.detach_disarm io).target.prot page =
      ((Overwrite.last range_t.Covers set.reverse page).map fun r => recorded prot (before set r) r).getD
        (((List.range s.bps.elems.length).foldl (fun s i => s.disarm_at io i) s).target.prot page) := by
    intro page
    rw [debugger_t.detach_disarm]
    simp only [watches_disarm_fold, hs.watches, armed_watches_eq_map hset, restore_fold_prot hio,
      Overwrite.foldl_write]
  have hpage : ∀ page, (∀ r ∈ set, ¬ r.Covers page) →
      (((List.range s.bps.elems.length).foldl (fun s i => s.disarm_at io i) s).target.prot page = prot page ↔
        ∀ b ∈ s.bps.elems, b.planted → prot (page_of b.addr) = 0 → page_of b.addr ≠ page) := by
    intro page huncovered
    obtain ⟨hsome, hzero⟩ := disarm_fold_prot hio (List.range s.bps.elems.length) s page
    rw [hs.prot, guarded_uncovered huncovered] at hsome hzero
    by_cases hprot : prot page = 0
    · rw [hprot, hzero hprot]
      refine ⟨fun h b hb hplanted _ => ?_, fun h i _ b hget hplanted => ?_⟩
      · obtain ⟨i, hget⟩ := List.getElem?_of_mem hb
        obtain ⟨hlt, -⟩ := List.getElem?_eq_some_iff.mp hget
        exact h i (List.mem_range.mpr hlt) b hget hplanted
      · intro hon
        exact h b (List.mem_of_getElem? hget) hplanted (hon ▸ hprot) hon
    · refine iff_of_true (hsome hprot) fun b _ _ hzero hon => hprot ?_
      rw [← hon, hzero]
  simp only [hdetach]
  refine ⟨fun h => ⟨fun page r hlast => ?_, fun b hb hplanted hzero => ?_⟩, fun h page => ?_⟩
  · have hlaw := h page
    rw [hlast] at hlaw
    exact hlaw
  · by_contra hnot
    have huncovered : ∀ r ∈ set, ¬ r.Covers (page_of b.addr) := fun r hr hcovers => hnot ⟨r, hr, hcovers⟩
    have hlast : Overwrite.last range_t.Covers set.reverse (page_of b.addr) = none := by
      cases hlast : Overwrite.last range_t.Covers set.reverse (page_of b.addr) with
      | none => rfl
      | some r =>
        obtain ⟨hr, hcovers⟩ := Overwrite.last_eq_some _ hlast
        exact absurd hcovers (huncovered r (List.mem_reverse.mp hr))
    have hlaw := h (page_of b.addr)
    rw [hlast] at hlaw
    exact (hpage _ huncovered).mp hlaw b hb hplanted hzero rfl
  · cases hlast : Overwrite.last range_t.Covers set.reverse page with
    | some r => exact h.1 page r hlast
    | none =>
      have huncovered : ∀ r ∈ set, ¬ r.Covers page :=
        fun r hr => Overwrite.last_eq_none _ hlast r (List.mem_reverse.mpr hr)
      refine (hpage page huncovered).mpr fun b hb hplanted hzero hon => ?_
      obtain ⟨r, hr, hcovers⟩ := h.2 b hb hplanted hzero
      exact huncovered r hr (hon ▸ hcovers)

/-- Watchpoints set in any order give every page its protection back, cleared in any order
or by `detach`, exactly when the condition holds for the order they are cleared in;
`detach` clears them in the order they were set. -/
theorem protections_restored_iff (io : backend_t) (hio : ∀ addr len prot, io.protect_ok addr len prot = true)
    (s : debugger_t) (hnone : s.watches = []) (calls : List range_t) :
    (∀ order, order.Perm (accepted calls) →
      ((∀ page, ((s.set_all io calls).clear_all io order).target.prot page = s.target.prot page) ↔
        Restores s.target.prot (accepted calls) order)) ∧
    ((∀ page, ((s.set_all io calls).detach_disarm io).target.prot page = s.target.prot page) ↔
      Restores s.target.prot (accepted calls) (accepted calls).reverse ∧
        ∀ b ∈ s.bps.elems, b.planted → s.target.prot (page_of b.addr) = 0 →
          ∃ r ∈ accepted calls, r.Covers (page_of b.addr)) := by
  have hstart : Watched s.target.prot [] s := ⟨hnone, rfl⟩
  have hs := hstart.set_all hio calls
  have hset : Keyed.Distinct range_t.addr (accepted calls) := accept_distinct List.Pairwise.nil calls
  have hbps := set_all_bps io s calls
  refine ⟨fun order horder => clear_restores_iff hs hio hset horder, ?_⟩
  rw [← hbps]
  exact detach_restores_iff hs hio hset

/-- Two watchpoints on one page give it back when the one set last is cleared first. -/
theorem last_set_first_cleared_restored :
    (((debugger_t.attached (filled_target 0x90)).set_all user_backend [⟨0x403000, 8⟩, ⟨0x403010, 8⟩]).clear_all
      user_backend [⟨0x403010, 8⟩, ⟨0x403000, 8⟩]).target.prot = fun _ => 0x20 := by
  have hrestores : Restores (filled_target 0x90).prot (accepted [⟨0x403000, 8⟩, ⟨0x403010, 8⟩])
      [⟨0x403010, 8⟩, ⟨0x403000, 8⟩] := by
    intro page r hlast
    by_cases hfirst : range_t.Covers ⟨0x403000, 8⟩ page
    · have hlater : r = ⟨0x403000, 8⟩ := by simpa [Overwrite.last, hfirst] using hlast.symm
      rw [hlater]
      rfl
    · have hsecond : ¬ range_t.Covers ⟨0x403010, 8⟩ page := by
        intro hcovers
        obtain ⟨hlen, hfrom, hto⟩ := hcovers
        have hpages : page_of 0x403010 = 0x403 ∧ page_of 0x403000 = 0x403 := by decide
        have htop : ((0x403010 : UInt64).toNat + (8 : UInt64).toNat = 0x403018) ∧
            ((0x403000 : UInt64).toNat + (8 : UInt64).toNat = 0x403008) := by decide
        refine hfirst ⟨hlen, ?_, ?_⟩
        · simpa [hpages.1, hpages.2] using hfrom
        · rw [htop.2]
          rw [htop.1] at hto
          omega
      simp [Overwrite.last, hfirst, hsecond] at hlast
  have hiff := (protections_restored_iff user_backend (fun _ _ _ => rfl) (debugger_t.attached (filled_target 0x90)) rfl
    [⟨0x403000, 8⟩, ⟨0x403010, 8⟩]).1 [⟨0x403010, 8⟩, ⟨0x403000, 8⟩] (by decide)
  exact funext (hiff.mpr hrestores)

/-- Two watchpoints on one page, cleared in the order they were set, leave the guard of the
first behind. -/
theorem same_page_keeps_guard :
    ¬ ∀ (io : backend_t) (s : debugger_t) (calls order : List range_t),
      (∀ addr len prot, io.protect_ok addr len prot = true) → s.watches = [] → order.Perm (accepted calls) →
      ∀ page, ((s.set_all io calls).clear_all io order).target.prot page = s.target.prot page := by
  intro hlaw
  have hpage := hlaw user_backend (debugger_t.attached (filled_target 0x90)) [⟨0x403000, 8⟩, ⟨0x403010, 8⟩]
    [⟨0x403000, 8⟩, ⟨0x403010, 8⟩] (fun _ _ _ => rfl) rfl (by decide) 0x403
  have hguard : (((debugger_t.attached (filled_target 0x90)).set_all user_backend [⟨0x403000, 8⟩, ⟨0x403010, 8⟩]).clear_all
      user_backend [⟨0x403000, 8⟩, ⟨0x403010, 8⟩]).target.prot 0x403 = 0x120 := by
    decide
  rw [hguard] at hpage
  exact absurd hpage (by decide)

end

end slop.core.debugger
