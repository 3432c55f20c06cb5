import Mathlib.Algebra.Group.Nat.Defs
import ReverseSlop.Core.Debugger.Watchpoints

namespace slop.core.debugger

open runtime Buffer

/-- The address a guard page fault was raised for. -/
def exception_t.fault (e : exception_t) : UInt64 := e.info.getD 1 e.address

/-- The system guards whole pages: all those that hold a byte of the watchpoint. -/
abbrev watchpoint_t.Guards (w : watchpoint_t) (page : Nat) : Prop := touches w.addr w.len page

/-- The byte is in the range of the watchpoint. -/
def watchpoint_t.Holds (w : watchpoint_t) (va : UInt64) : Prop :=
  w.addr.toNat ≤ va.toNat ∧ va.toNat < w.addr.toNat + w.len.toNat

/-- The watchpoint ends inside the address space and holds the byte touched, or the first
byte of its page. -/
def watchpoint_t.Reaches (w : watchpoint_t) (fault : UInt64) : Prop :=
  w.addr.toNat + w.len.toNat < 2 ^ 64 ∧ (w.Holds fault ∨ w.Holds (fault &&& ~~~0xFFF))

/-- The fault is counted and reported as a hit of a watchpoint that guards its page, and the
guard is put back, unless the system refuses. -/
structure Attributed (io : backend_t) (s s' : debugger_t) (fault : UInt64) (i : Nat) (w : watchpoint_t) : Prop where
  set : s.watches[i]? = some w
  guards : w.Guards (page_of fault)
  counted : s'.watches = s.watches.set i { w with hits := w.hits + 1 }
  reported : ∃ hit, s'.events.getLast? = some hit ∧ hit.kind = .bp_hit ∧ hit.address = fault
  rearmed : io.protect_ok w.addr w.len (w.orig_prot ||| kPageGuardFlag) = true →
    ∀ page, w.Guards page → s'.target.prot page = w.orig_prot ||| kPageGuardFlag

/-- A fault on a guarded page is attributed and the target goes on; only a fault on
another page is left to the target. -/
def AttributesFault (io : backend_t) (s : debugger_t) (e : exception_t) : Prop :=
  ((∃ w ∈ s.watches, w.Guards (page_of e.fault)) → ∃ s' i w,
    s.handle_event io (.exception e) = some (s', .continue_with .DBG_CONTINUE) ∧ Attributed io s s' e.fault i w) ∧
  ∀ s', s.handle_event io (.exception e) = some (s', .pause_with .DBG_EXCEPTION_NOT_HANDLED) →
    ∀ w ∈ s.watches, ¬ w.Guards (page_of e.fault)

theorem holds_iff (w : watchpoint_t) (va : UInt64) (hend : w.addr.toNat + w.len.toNat < 2 ^ 64) :
    w.addr ≤ va ∧ va < w.addr + w.len ↔ w.Holds va := by
  rw [watchpoint_t.Holds, UInt64.le_iff_toNat_le, UInt64.lt_iff_toNat_lt, UInt64.toNat_add, Nat.mod_eq_of_lt hend]

/-- A range that wraps around holds nothing for the loop. -/
theorem wrapped_holds_nothing (w : watchpoint_t) (va : UInt64) (hend : 2 ^ 64 ≤ w.addr.toNat + w.len.toNat) :
    ¬ (w.addr ≤ va ∧ va < w.addr + w.len) := by
  rintro ⟨hle, hlt⟩
  rw [UInt64.le_iff_toNat_le] at hle
  rw [UInt64.lt_iff_toNat_lt, UInt64.toNat_add] at hlt
  have haddr := w.addr.toNat_lt
  have hlen := w.len.toNat_lt
  omega

theorem watch_hit_iff (fault : UInt64) (w : watchpoint_t) : watch_hit fault w = true ↔ w.Reaches fault := by
  simp only [watch_hit, Bool.or_eq_true, Bool.and_eq_true, decide_eq_true_eq]
  by_cases hend : w.addr.toNat + w.len.toNat < 2 ^ 64
  · rw [holds_iff w fault hend, holds_iff w _ hend, watchpoint_t.Reaches, and_iff_right hend]
  · have hwraps : 2 ^ 64 ≤ w.addr.toNat + w.len.toNat := Nat.le_of_not_lt hend
    constructor
    · rintro (hhit | hhit)
      · exact absurd hhit (wrapped_holds_nothing w _ hwraps)
      · exact absurd hhit (wrapped_holds_nothing w _ hwraps)
    · rintro ⟨hlt, -⟩
      exact absurd hlt hend

theorem watchpoint_t.Holds.guards {w : watchpoint_t} {va : UInt64} (h : w.Holds va) : w.Guards (page_of va) := by
  obtain ⟨hle, hlt⟩ := h
  unfold Guards touches page_of
  omega

theorem watchpoint_t.Reaches.guards {w : watchpoint_t} {fault : UInt64} (h : w.Reaches fault) :
    w.Guards (page_of fault) := by
  obtain ⟨-, hholds | hbase⟩ := h
  · exact hholds.guards
  · rw [← page_of_page fault]
    exact hbase.guards

theorem getLast_push_event (s : debugger_t) (e : debug_event_t) : (s.push_event e).events.getLast? = some e := by
  simp only [debugger_t.push_event, List.length_append, List.length_singleton]
  rw [List.drop_append_of_le_length (by rw [kMaxEvents]; omega)]
  exact List.getLast?_concat

section

variable {io : backend_t} {s : debugger_t} {e : exception_t}

theorem guard_page_event (hcode : e.code = kStatusGuardPage) : s.handle_event io (.exception e) =
    some ({ s with target := s.target.set_thread e.tid e.ctx }.handle_guard_page io e) := by
  have hbreakpoint : ¬ e.code = kStatusBreakpoint := by
    rw [hcode]
    decide
  rw [debugger_t.handle_event, debugger_t.handle_exception, if_neg hbreakpoint, if_pos hcode]

/-- The fault of no watchpoint goes to the target. -/
theorem guard_page_foreign (hcode : e.code = kStatusGuardPage) (hnone : ∀ w ∈ s.watches, ¬ w.Reaches e.fault) :
    ∃ s', s.handle_event io (.exception e) = some (s', .pause_with .DBG_EXCEPTION_NOT_HANDLED) := by
  have hfind : s.watches.findIdx? (watch_hit e.fault) = none := by
    rw [List.findIdx?_eq_none_iff]
    intro w hw
    rw [Bool.eq_false_iff, ne_eq, watch_hit_iff]
    exact hnone w hw
  rw [guard_page_event hcode, debugger_t.handle_guard_page, ← exception_t.fault]
  simp only [hfind]
  exact ⟨_, rfl⟩

/-- The first watchpoint that reaches the fault takes it. -/
theorem guard_page_attributed (hcode : e.code = kStatusGuardPage) {w₀ : watchpoint_t} (hw₀ : w₀ ∈ s.watches)
    (hreaches : w₀.Reaches e.fault) : ∃ s' i w,
      s.handle_event io (.exception e) = some (s', .continue_with .DBG_CONTINUE) ∧ Attributed io s s' e.fault i w := by
  have hhit : watch_hit e.fault w₀ = true := (watch_hit_iff _ _).mpr hreaches
  cases hfind : s.watches.findIdx? (watch_hit e.fault) with
  | none =>
    have hmiss := List.findIdx?_eq_none_iff.mp hfind w₀ hw₀
    rw [hhit] at hmiss
    cases hmiss
  | some i =>
    obtain ⟨hlt, htest, -⟩ := List.findIdx?_eq_some_iff_getElem.mp hfind
    have hget : s.watches[i]? = some s.watches[i] := List.getElem?_eq_getElem hlt
    rw [guard_page_event hcode, debugger_t.handle_guard_page, ← exception_t.fault]
    simp only [hfind, hget]
    refine ⟨_, i, s.watches[i], rfl, hget, ((watch_hit_iff _ _).mp htest).guards, ?_, ?_, ?_⟩
    · rw [debugger_t.watches_push_event]
    · exact ⟨_, getLast_push_event _ _, rfl, rfl⟩
    · intro hok page hguards
      rw [debugger_t.target_push_event, protect_memory_ok hok]
      exact if_pos hguards

end

/-- The faults of the guarded pages are attributed exactly when some watchpoint holds the byte
touched or the first byte of its page: a fault past a watchpoint that begins inside the page
is taken for a foreign one. -/
theorem fault_attributed_iff (io : backend_t) (s : debugger_t) (e : exception_t) (hcode : e.code = kStatusGuardPage) :
    AttributesFault io s e ↔
      ((∃ w ∈ s.watches, w.Guards (page_of e.fault)) → ∃ w ∈ s.watches, w.Reaches e.fault) := by
  constructor
  · rintro ⟨hattributed, -⟩ hguarded
    by_contra hnone
    obtain ⟨s', hforeign⟩ : ∃ s', s.handle_event io (.exception e) = some (s', .pause_with .DBG_EXCEPTION_NOT_HANDLED) :=
      guard_page_foreign hcode fun w hw hreaches => hnone ⟨w, hw, hreaches⟩
    obtain ⟨s'', -, -, hcontinues, -⟩ := hattributed hguarded
    rw [hforeign] at hcontinues
    cases hcontinues
  · intro hreached
    refine ⟨fun hguarded => ?_, fun s' hforeign w hw hguards => ?_⟩
    · obtain ⟨w, hw, hreaches⟩ := hreached hguarded
      exact guard_page_attributed hcode hw hreaches
    · obtain ⟨w, hw, hreaches⟩ := hreached ⟨w, hw, hguards⟩
      obtain ⟨s'', -, -, hcontinues, -⟩ : ∃ s'' i w, s.handle_event io (.exception e) =
          some (s'', .continue_with .DBG_CONTINUE) ∧ Attributed io s s'' e.fault i w :=
        guard_page_attributed hcode hw hreaches
      rw [hforeign] at hcontinues
      cases hcontinues

/-- A session with one watchpoint, on four bytes in the middle of a page. -/
def watched_session : debugger_t :=
  ((debugger_t.attached (filled_target 0x90)).set_watchpoint user_backend 0x403010 4).2

/-- The target reads an address whose page has the guard. -/
def guard_fault (va : UInt64) : exception_t where
  tid := 1
  code := kStatusGuardPage
  address := 0x401000
  info := [0, va]

theorem watched_session_watches :
    watched_session.watches = [{ addr := 0x403010, len := 4, orig_prot := 0x20 }] := rfl

theorem watched_byte_attributed : AttributesFault user_backend watched_session (guard_fault 0x403012) := by
  refine (fault_attributed_iff user_backend watched_session (guard_fault 0x403012) rfl).mpr fun _ => ?_
  rw [watched_session_watches]
  refine ⟨_, List.mem_singleton.mpr rfl, ?_, Or.inl ⟨?_, ?_⟩⟩
  · decide
  · decide
  · decide

/-- A read elsewhere in the page of the watchpoint is not attributed. -/
theorem page_fault_foreign : ¬ ∀ (io : backend_t) (s : debugger_t) (e : exception_t), e.code = kStatusGuardPage →
    AttributesFault io s e := by
  intro h
  obtain ⟨-, hforeign⟩ := h user_backend watched_session (guard_fault 0x403800) rfl
  have hguarded : ∃ w ∈ watched_session.watches, w.Guards (page_of (guard_fault 0x403800).fault) := by
    rw [watched_session_watches]
    exact ⟨_, List.mem_singleton.mpr rfl, by decide⟩
  obtain ⟨w, hw, hguards⟩ := hguarded
  exact hforeign _ rfl w hw hguards

end slop.core.debugger
