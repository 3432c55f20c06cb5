import ReverseSlop.Core.Emu.Taint

namespace slop.core.emu

namespace taint_tracker_t

def with_log (t : taint_tracker_t) (events : List taint_event_t) : taint_tracker_t := { t with events_ := events }

/-- A destination gets its taint. -/
def set_dest (dest_taint : Bool) (t : taint_tracker_t) (d : deferred_dest_t) : taint_tracker_t :=
  t.set_reg d.canonical (if d.zeroing then false else dest_taint)

/-- All destinations get their taint. -/
def set_all (dest_taint : Bool) (t : taint_tracker_t) (dests : List deferred_dest_t) : taint_tracker_t :=
  dests.foldl (set_dest dest_taint) t

/-- A destination becomes tainted that was not, which is an event. -/
def is_fresh (dest_taint : Bool) (t : taint_tracker_t) (d : deferred_dest_t) : Bool :=
  (if d.zeroing then false else dest_taint) && !t.reg d.canonical && d.name ≠ ""

def fresh (dest_taint : Bool) (t : taint_tracker_t) : List deferred_dest_t → List deferred_dest_t
  | [] => []
  | d :: dests =>
    if is_fresh dest_taint t d then d :: fresh dest_taint (set_dest dest_taint t d) dests
    else fresh dest_taint (set_dest dest_taint t d) dests

/-- The destinations behind the `n`-th one that becomes tainted. -/
def behind (dest_taint : Bool) (t : taint_tracker_t) : Nat → List deferred_dest_t → List deferred_dest_t
  | 0, dests => dests
  | _ + 1, [] => []
  | n + 1, d :: dests =>
    if is_fresh dest_taint t d then behind dest_taint (set_dest dest_taint t d) n dests
    else behind dest_taint (set_dest dest_taint t d) (n + 1) dests

/-- The events of the destinations that become tainted. -/
def logged (dest_taint : Bool) (t : taint_tracker_t) (dests : List deferred_dest_t) : List taint_event_t :=
  (fresh dest_taint t dests).map fun d => ⟨t.cur_ip_, t.cur_text_, "reg", d.name⟩

/-- A destination becomes tainted, and the log has it. -/
def pushed (dest_taint : Bool) (t : taint_tracker_t) (d : deferred_dest_t) : taint_tracker_t :=
  (set_dest dest_taint t d).with_log (t.events_ ++ [⟨t.cur_ip_, t.cur_text_, "reg", d.name⟩])

section

variable {cap : Option Nat} {dest_taint : Bool} {t : taint_tracker_t} {d : deferred_dest_t} {dests : List deferred_dest_t}

theorem full_eq_false {events : List taint_event_t} (hroom : ∀ most ∈ cap, events.length < most) :
    full cap events = false := by
  cases cap with
  | none => rfl
  | some most => simpa [full] using hroom most rfl

private theorem resolve_fresh (hfresh : is_fresh dest_taint t d = true) : resolve cap dest_taint t (d :: dests) =
    if full cap (pushed dest_taint t d).events_ then (pushed dest_taint t d, true)
    else resolve cap dest_taint (pushed dest_taint t d) dests := by
  rw [is_fresh] at hfresh
  rw [resolve]
  simp only [hfresh, if_true]
  rfl

private theorem resolve_stale (hfresh : is_fresh dest_taint t d = false) :
    resolve cap dest_taint t (d :: dests) = resolve cap dest_taint (set_dest dest_taint t d) dests := by
  rw [is_fresh] at hfresh
  rw [resolve]
  simp only [hfresh]
  rfl

/-- The log does not decide which destinations become tainted. -/
theorem fresh_with_log (events : List taint_event_t) : fresh dest_taint (t.with_log events) dests = fresh dest_taint t dests := by
  induction dests generalizing t with
  | nil => rfl
  | cons d dests ih =>
    have hset : set_dest dest_taint (t.with_log events) d = (set_dest dest_taint t d).with_log events := rfl
    have hfresh : is_fresh dest_taint (t.with_log events) d = is_fresh dest_taint t d := rfl
    rw [fresh, fresh, hset, hfresh, ih]

private theorem set_all_with_log (events : List taint_event_t) :
    set_all dest_taint (t.with_log events) dests = (set_all dest_taint t dests).with_log events := by
  induction dests generalizing t with
  | nil => rfl
  | cons d dests ih => exact ih (t := set_dest dest_taint t d)

private theorem logged_fresh (hfresh : is_fresh dest_taint t d = true) :
    t.events_ ++ logged dest_taint t (d :: dests) =
      (pushed dest_taint t d).events_ ++ logged dest_taint (pushed dest_taint t d) dests := by
  rw [logged, logged, fresh, if_pos hfresh, pushed, fresh_with_log, List.map_cons]
  simp [with_log, set_dest, set_reg]

private theorem logged_stale (hfresh : is_fresh dest_taint t d = false) :
    logged dest_taint t (d :: dests) = logged dest_taint (set_dest dest_taint t d) dests := by
  rw [logged, fresh, hfresh]
  rfl

private theorem length_fresh (hfresh : is_fresh dest_taint t d = true) :
    (fresh dest_taint t (d :: dests)).length = (fresh dest_taint (pushed dest_taint t d) dests).length + 1 := by
  rw [fresh, if_pos hfresh, pushed, fresh_with_log, List.length_cons]

private theorem fresh_stale (hfresh : is_fresh dest_taint t d = false) :
    fresh dest_taint t (d :: dests) = fresh dest_taint (set_dest dest_taint t d) dests := by
  rw [fresh, hfresh]
  rfl

private theorem length_pushed : (pushed dest_taint t d).events_.length = t.events_.length + 1 := by
  simp [pushed, with_log]

private theorem set_all_pushed : (set_all dest_taint (pushed dest_taint t d) dests) =
    (set_all dest_taint t (d :: dests)).with_log (pushed dest_taint t d).events_ := set_all_with_log _

/-- With room in the log the loop goes through all destinations. -/
theorem resolve_room (hroom : ∀ most ∈ cap, fresh dest_taint t dests = [] ∨
      t.events_.length + (fresh dest_taint t dests).length < most) :
    resolve cap dest_taint t dests =
      ((set_all dest_taint t dests).with_log (t.events_ ++ logged dest_taint t dests), false) := by
  induction dests generalizing t with
  | nil => simp [resolve, set_all, logged, fresh, with_log]
  | cons d dests ih =>
    cases hfresh : is_fresh dest_taint t d with
    | true =>
      have hlt : ∀ most ∈ cap, (pushed dest_taint t d).events_.length +
          (fresh dest_taint (pushed dest_taint t d) dests).length < most := by
        intro most hmost
        have hsome : (fresh dest_taint t (d :: dests)).length = _ := length_fresh hfresh
        have hlt := (hroom most hmost).resolve_left (List.ne_nil_of_length_eq_add_one hsome)
        rw [length_pushed]
        omega
      have hfull : full cap (pushed dest_taint t d).events_ = false :=
        full_eq_false fun most hmost => Nat.lt_of_le_of_lt (Nat.le_add_right _ _) (hlt most hmost)
      rw [resolve_fresh hfresh, hfull, ih fun most hmost => Or.inr (hlt most hmost), set_all_pushed, logged_fresh hfresh]
      rfl
    | false =>
      rw [fresh_stale hfresh] at hroom
      rw [resolve_stale hfresh, logged_stale hfresh]
      exact ih hroom

/-- Nothing changes when no destination becomes tainted, and none becomes clean. -/
theorem set_all_of_tainted (hfresh : fresh true t dests = []) (hdests : ∀ d ∈ dests, d.zeroing = false ∧ d.name ≠ "") :
    set_all true t dests = t := by
  induction dests with
  | nil => rfl
  | cons d dests ih =>
    obtain ⟨⟨hzeroing, hname⟩, hdests⟩ := List.forall_mem_cons.mp hdests
    cases hd : is_fresh true t d with
    | true => simp [fresh, hd] at hfresh
    | false =>
      have htainted : t.reg_taint_ d.canonical = true := by simpa [is_fresh, hzeroing, hname, reg] using hd
      have hsame : set_dest true t d = t := by
        simp only [set_dest, hzeroing, set_reg, Bool.false_eq_true, if_false]
        rw [← htainted, Function.update_eq_self]
      rw [fresh_stale hd, hsame] at hfresh
      show set_all true (set_dest true t d) dests = t
      rw [hsame, ih hfresh hdests]

/-- Destinations that become tainted are given a taint. -/
theorem taint_of_fresh (hsome : fresh dest_taint t dests ≠ []) : dest_taint = true := by
  cases dest_taint with
  | true => rfl
  | false =>
    have hnone : ∀ dests : List deferred_dest_t, ∀ t, fresh false t dests = [] := by
      intro dests
      induction dests with
      | nil => intro t; rfl
      | cons d dests ih =>
        intro t
        have hd : is_fresh false t d = false := by simp [is_fresh]
        rw [fresh_stale hd, ih]
    exact absurd (hnone dests t) hsome

private theorem behind_with_log {n : Nat} (events : List taint_event_t) :
    behind dest_taint (t.with_log events) n dests = behind dest_taint t n dests := by
  induction dests generalizing t n with
  | nil => cases n <;> rfl
  | cons d dests ih =>
    cases n with
    | zero => rfl
    | succ n =>
      have hset : set_dest dest_taint (t.with_log events) d = (set_dest dest_taint t d).with_log events := rfl
      have hfresh : is_fresh dest_taint (t.with_log events) d = is_fresh dest_taint t d := rfl
      rw [behind, behind, hset, hfresh, ih, ih]

private theorem behind_fresh {n : Nat} (hfresh : is_fresh dest_taint t d = true) :
    behind dest_taint t (n + 1) (d :: dests) = behind dest_taint (pushed dest_taint t d) n dests := by
  rw [behind, if_pos hfresh, pushed, behind_with_log]

private theorem behind_stale {n : Nat} (hfresh : is_fresh dest_taint t d = false) :
    behind dest_taint t (n + 1) (d :: dests) = behind dest_taint (set_dest dest_taint t d) (n + 1) dests := by
  rw [behind, hfresh]
  rfl

/-- The loop is left at the cap when only destinations are left that are tainted and stay so. -/
theorem resolve_last {most : Nat} (hmost : t.events_.length + (fresh dest_taint t dests).length = most)
    (hsome : fresh dest_taint t dests ≠ [])
    (hbehind : ∀ d ∈ behind dest_taint t (fresh dest_taint t dests).length dests, d.zeroing = false ∧ d.name ≠ "") :
    resolve (some most) dest_taint t dests =
      ((set_all dest_taint t dests).with_log (t.events_ ++ logged dest_taint t dests), true) := by
  induction dests generalizing t with
  | nil => exact absurd rfl hsome
  | cons d dests ih =>
    cases hfresh : is_fresh dest_taint t d with
    | true =>
      have hlength : (fresh dest_taint t (d :: dests)).length = _ := length_fresh hfresh
      rw [hlength, behind_fresh hfresh] at hbehind
      rw [resolve_fresh hfresh, logged_fresh hfresh]
      by_cases hnone : fresh dest_taint (pushed dest_taint t d) dests = []
      · -- the last destination that becomes tainted: those behind it stay as they are
        have htaint : dest_taint = true := taint_of_fresh hsome
        subst htaint
        rw [hnone, List.length_nil] at hlength hbehind
        simp only [behind] at hbehind
        have hfull : full (some most) (pushed true t d).events_ = true := by
          simp only [full, Option.any_some, length_pushed, decide_eq_true_eq]
          omega
        have hset : set_all true (pushed true t d) dests = pushed true t d := set_all_of_tainted hnone hbehind
        rw [set_all_pushed] at hset
        rw [hfull, if_pos rfl, logged, hnone, List.map_nil, List.append_nil, hset]
      · have hfull : full (some most) (pushed dest_taint t d).events_ = false := by
          have hlength' := List.length_pos_iff.mpr hnone
          simp only [full, Option.any_some, length_pushed, decide_eq_false_iff_not]
          omega
        have hmost' : (pushed dest_taint t d).events_.length +
            (fresh dest_taint (pushed dest_taint t d) dests).length = most := by
          rw [length_pushed]
          omega
        rw [hfull, ih hmost' hnone hbehind, set_all_pushed]
        rfl
    | false =>
      have hcount : fresh dest_taint t (d :: dests) = _ := fresh_stale hfresh
      rw [hcount] at hmost hsome hbehind
      rw [resolve_stale hfresh, logged_stale hfresh]
      obtain ⟨n, hn⟩ := Nat.exists_eq_succ_of_ne_zero (List.length_pos_iff.mpr hsome).ne'
      rw [hn, Nat.succ_eq_add_one, behind_stale hfresh, ← Nat.succ_eq_add_one, ← hn] at hbehind
      exact ih hmost hsome hbehind

end

section

variable {cap : Option Nat} {t : taint_tracker_t}

/-- The destinations that an instruction makes tainted. -/
def spread (t : taint_tracker_t) : List deferred_dest_t := fresh t.dest_taint t t.cur_.dests

/-- What an instruction leaves of the tracker, its log apart. -/
def settled (t : taint_tracker_t) : taint_tracker_t :=
  { set_all t.dest_taint t t.cur_.dests with read_flag_ := false }

/-- Nothing is lost of the destinations of an instruction when the log may have `most` events. When the last of
them fills it, nothing may be left to do. -/
def Room (most : Nat) (t : taint_tracker_t) : Prop :=
  t.spread = [] ∨ t.events_.length + t.spread.length < most ∨
    (t.events_.length + t.spread.length = most ∧ t.read_flag_ = false ∧
      ∀ d ∈ behind t.dest_taint t t.spread.length t.cur_.dests, d.zeroing = false)

/-- The destinations of the instruction have names. -/
def Named (t : taint_tracker_t) : Prop := ∀ d ∈ t.cur_.dests, d.name ≠ ""

private theorem behind_subset {dest_taint : Bool} {n : Nat} {dests : List deferred_dest_t} :
    behind dest_taint t n dests ⊆ dests := by
  induction dests generalizing t n with
  | nil => cases n <;> simp [behind]
  | cons d dests ih =>
    cases n with
    | zero => simp [behind]
    | succ n =>
      rw [behind]
      split <;> exact List.subset_cons_of_subset d ih

private theorem read_flag_set_all {dest_taint : Bool} {dests : List deferred_dest_t} :
    (set_all dest_taint t dests).read_flag_ = t.read_flag_ := by
  induction dests generalizing t with
  | nil => rfl
  | cons d dests ih => exact ih

private theorem cur_set_all {dest_taint : Bool} {dests : List deferred_dest_t} :
    (set_all dest_taint t dests).cur_ = t.cur_ := by
  induction dests generalizing t with
  | nil => rfl
  | cons d dests ih => exact ih

private theorem pages_set_all {dest_taint : Bool} {dests : List deferred_dest_t} :
    (set_all dest_taint t dests).pages_ = t.pages_ := by
  induction dests generalizing t with
  | nil => rfl
  | cons d dests ih => exact ih

@[simp] theorem settled_cur : t.settled.cur_ = t.cur_ := cur_set_all

@[simp] theorem settled_pages : t.settled.pages_ = t.pages_ := pages_set_all

theorem settled_with_log (events : List taint_event_t) : (t.with_log events).settled = t.settled.with_log events := by
  have hset : set_all t.dest_taint (t.with_log events) t.cur_.dests = _ := set_all_with_log events
  show { set_all t.dest_taint (t.with_log events) t.cur_.dests with read_flag_ := false } = _
  rw [hset]
  rfl

/-- With room in the log `boundary` only adds to it. -/
theorem boundary_room (hnamed : t.Named) (hroom : ∀ most ∈ cap, t.Room most) :
    t.boundary cap = t.settled.with_log (t.events_ ++ logged t.dest_taint t t.cur_.dests) := by
  by_cases hlast : ∀ most ∈ cap, t.spread = [] ∨ t.events_.length + t.spread.length < most
  · rw [boundary, resolve_room hlast]
    rfl
  · push Not at hlast
    obtain ⟨most, rfl, hsome, hmore⟩ := hlast
    obtain ⟨hmost, hflag, hbehind⟩ := ((hroom most rfl).resolve_left hsome).resolve_left (Nat.not_lt.mpr hmore)
    have hkept : (set_all t.dest_taint t t.cur_.dests).read_flag_ = false := read_flag_set_all.trans hflag
    rw [boundary, resolve_last hmost hsome fun d hd => ⟨hbehind d hd, hnamed d (behind_subset hd)⟩]
    simp only [settled, with_log, ← hkept]

theorem length_boundary {most : Nat} (hroom : t.Room most) (hlength : t.events_.length ≤ most) :
    (t.events_ ++ logged t.dest_taint t t.cur_.dests).length ≤ most := by
  rw [List.length_append, logged, List.length_map]
  change t.events_.length + t.spread.length ≤ most
  rcases hroom with hnone | hlt | ⟨hmost, -⟩
  · simpa [hnone] using hlength
  · exact hlt.le
  · exact hmost.le

end

end taint_tracker_t

end slop.core.emu
