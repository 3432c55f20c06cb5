import ReverseSlop.Core.Memory.Watch.State
import ReverseSlop.Library.Keyed

namespace slop.core.memory.watch

/-- The bits come from where their origin says. -/
def Known (h : history_t) (id : Nat) (origin : origin_t) (bits : UInt64) : Prop :=
  match origin with
  | .unset => True
  | .sampled width => (id, width, bits) ∈ h.samples
  | .poked => (id, bits) ∈ h.pokes

/-- Bits of this origin may be written at a width. -/
def Fits (origin : origin_t) (width : value_width_t) : Prop := origin = .poked ∨ origin = .sampled width

/-- What is frozen may be written. -/
structure Held (h : history_t) (e : entry_t) : Prop where
  known : Known h e.id e.origin e.frozen_bits
  frozen : e.freeze = true → Fits e.origin e.width

/-- The bits of a freeze write were sampled from the entry at its width, or poked into
it. -/
def SeenWrite (h : history_t) (w : write_t) : Prop := (w.id, w.width, w.bits) ∈ h.samples ∨ (w.id, w.bits) ∈ h.pokes

/-- The width of an entry may change to this one: it is not frozen among these, or its
bits are poked ones. -/
def Changeable (entries : List entry_t) (id : Nat) (width : value_width_t) : Prop :=
  ∀ e ∈ entries, e.id = id → e.freeze = true → e.origin = .poked ∨ e.width = width

/-- A freeze is set when the value it latches was sampled at the width of the entry or
poked, and no width changes while bits of another width are held, in the list or by a
pass that runs. -/
def Latched (s : service_t) : op_t → Prop
  | .set_freeze id on =>
    on = true → ∀ e ∈ s.st.entries, e.id = id → e.freeze = false → Fits (latch s.st e).origin e.width
  | .set_width id width => Changeable s.st.entries id width ∧ ∀ t ∈ s.ticks, Changeable t.entries id width
  | _ => True

instance (origin : origin_t) (width : value_width_t) : Decidable (Fits origin width) :=
  inferInstanceAs (Decidable (_ ∨ _))

instance (h : history_t) (w : write_t) : Decidable (SeenWrite h w) := inferInstanceAs (Decidable (_ ∨ _))

instance (entries : List entry_t) (id : Nat) (width : value_width_t) : Decidable (Changeable entries id width) :=
  inferInstanceAs (Decidable (∀ e ∈ entries, _))

instance (s : service_t) : (a : op_t) → Decidable (Latched s a)
  | .set_freeze id on =>
    inferInstanceAs
      (Decidable (on = true → ∀ e ∈ s.st.entries, e.id = id → e.freeze = false → Fits (latch s.st e).origin e.width))
  | .set_width id width =>
    inferInstanceAs (Decidable (Changeable s.st.entries id width ∧ ∀ t ∈ s.ticks, Changeable t.entries id width))
  | .add .. | .remove _ | .clear | .poke .. | .set_label .. | .tick_start _ | .tick_session .. | .tick_sample .. |
    .tick_publish _ => isTrue trivial

/-! More samples and pokes take nothing away. -/

/-- The second history has the samples and pokes of the first. -/
def Grows (h h' : history_t) : Prop := h.samples ⊆ h'.samples ∧ h.pokes ⊆ h'.pokes

theorem Known.grow {h h' : history_t} {id : Nat} {origin : origin_t} {bits : UInt64} (hknown : Known h id origin bits)
    (hgrows : Grows h h') : Known h' id origin bits := by
  cases origin with
  | unset => trivial
  | sampled width => exact hgrows.1 hknown
  | poked => exact hgrows.2 hknown

theorem Held.grow {h h' : history_t} {e : entry_t} (hheld : Held h e) (hgrows : Grows h h') : Held h' e :=
  ⟨hheld.known.grow hgrows, hheld.frozen⟩

/-! Passes hold entries at the widths that are listed. -/

def state_t.widths (s : state_t) : List (Nat × value_width_t) := s.entries.map fun e => (e.id, e.width)

/-- No id is handed out twice, and what a pass holds frozen has its width in the list,
unless it was poked. -/
structure Current (s : service_t) : Prop where
  distinct : Keyed.Distinct Prod.fst s.st.widths
  fresh : ∀ p ∈ s.st.widths, p.1 < s.st.next_id
  tick_fresh : ∀ t ∈ s.ticks, ∀ e ∈ t.entries, e.id < s.st.next_id
  agree : ∀ t ∈ s.ticks, ∀ e ∈ t.entries, e.freeze = true →
    ∀ p ∈ s.st.widths, p.1 = e.id → e.origin = .poked ∨ p.2 = e.width

/-- What a pass writes was sampled at the width of the entry or poked. -/
theorem Current.freeze_write_seen {s : service_t} (h : Current s) {history : history_t} {t : tick_t} {e : entry_t}
    (hheld : Held history e) (ht : t ∈ s.ticks) (he : e ∈ t.entries) (hfreeze : e.freeze = true) :
    SeenWrite history (s.st.freeze_write e) := by
  have hknown := hheld.known
  obtain hpoked | hsampled := hheld.frozen hfreeze
  · rw [hpoked] at hknown
    exact Or.inr hknown
  · rw [hsampled] at hknown
    refine Or.inl ?_
    have hwidth : ((s.st.find e.id).map entry_t.width).getD e.width = e.width := by
      cases hfind : s.st.find e.id with
      | none => rfl
      | some e' =>
        have hid := List.find?_some hfind
        have hlisted : (e'.id, e'.width) ∈ s.st.widths := List.mem_map_of_mem (List.mem_of_find?_eq_some hfind)
        have hagree := h.agree t ht e he hfreeze _ hlisted (of_decide_eq_true hid)
        refine hagree.resolve_left fun hpoked => ?_
        rw [hsampled] at hpoked
        cases hpoked
    rw [state_t.freeze_write, hwidth]
    exact hknown

variable {s s' : service_t}

/-- Steps that leave the ids and the widths alone. -/
theorem Current.of_widths (h : Current s) (hwidths : s'.st.widths = s.st.widths)
    (hnext : s'.st.next_id = s.st.next_id)
    (hticks : ∀ t ∈ s'.ticks, ∀ e ∈ t.entries, ∃ t' ∈ s.ticks, e ∈ t'.entries) : Current s' := by
  constructor
  · rw [hwidths]
    exact h.distinct
  · rw [hwidths, hnext]
    exact h.fresh
  · intro t ht e he
    obtain ⟨t', ht', he'⟩ := hticks t ht e he
    rw [hnext]
    exact h.tick_fresh t' ht' e he'
  · intro t ht e he
    obtain ⟨t', ht', he'⟩ := hticks t ht e he
    rw [hwidths]
    exact h.agree t' ht' e he'

theorem update_widths (s : state_t) (id : Nat) {f : entry_t → entry_t} (hf : ∀ e, (f e).id = e.id ∧ (f e).width = e.width) :
    (s.update id f).widths = s.widths := by
  rw [state_t.widths, state_t.update, List.map_map, state_t.widths]
  refine List.map_congr_left fun e _ => ?_
  rw [Function.comp_apply]
  split
  · rw [(hf e).1, (hf e).2]
  · rfl

theorem Current.edit (h : Current s) {id : Nat} {f : entry_t → entry_t}
    (hst : s'.st = (s.st.edit id f).2) (hticks : s'.ticks = s.ticks)
    (hf : ∀ e, (f e).id = e.id ∧ (f e).width = e.width) : Current s' := by
  have hticks' : ∀ t ∈ s'.ticks, ∀ e ∈ t.entries, ∃ t' ∈ s.ticks, e ∈ t'.entries := by
    rw [hticks]
    exact fun t ht e he => ⟨t, ht, he⟩
  obtain hedit | hedit := edit_cases s.st id f
  · rw [hedit] at hst
    refine h.of_widths ?_ ?_ hticks'
    · rw [hst]
      exact update_widths s.st id hf
    · rw [hst]
      rfl
  · rw [hedit] at hst
    refine h.of_widths ?_ ?_ hticks'
    · rw [hst]
    · rw [hst]

theorem track_widths (s : state_t) (v : value_t) : (track s v).widths = s.widths := by
  apply update_widths
  intro e
  split <;> exact ⟨rfl, rfl⟩

theorem publish_widths (s : state_t) (sampled : List value_t) : (publish s sampled).widths = s.widths := by
  have hfold : ∀ s : state_t, (sampled.foldl track s).widths = s.widths := by
    induction sampled with
    | nil => exact fun _ => rfl
    | cons v rest ih => exact fun s => (ih (track s v)).trans (track_widths s v)
  exact hfold s

theorem Current.add {s : service_t} (h : Current s) (addr : UInt64) (width : value_width_t) (label : String) :
    Current { s with st := (watch.add s.st addr width label).2 } := by
  rw [watch.add]
  split
  · exact h
  · have hwidths : ({ s.st with
        next_id := s.st.next_id + 1
        entries := s.st.entries ++ [{ id := s.st.next_id, addr, width, label }] } : state_t).widths =
        s.st.widths ++ [(s.st.next_id, width)] := List.map_append
    constructor
    · rw [hwidths]
      exact h.distinct.append fun p hp => Nat.ne_of_lt (h.fresh p hp)
    · rw [hwidths]
      refine List.forall_mem_append.mpr ⟨fun p hp => Nat.lt_succ_of_lt (h.fresh p hp), ?_⟩
      exact List.forall_mem_singleton.mpr (Nat.lt_succ_self s.st.next_id)
    · exact fun t ht e he => Nat.lt_succ_of_lt (h.tick_fresh t ht e he)
    · rw [hwidths]
      intro t ht e he hfreeze p hp hid
      obtain hold | hnew := List.mem_append.mp hp
      · exact h.agree t ht e he hfreeze p hold hid
      · rw [List.mem_singleton.mp hnew] at hid
        exact absurd hid.symm (Nat.ne_of_lt (h.tick_fresh t ht e he))

/-- Entries that go away take their widths along. -/
theorem Current.of_sublist (h : Current s) (hwidths : s'.st.widths.Sublist s.st.widths)
    (hnext : s'.st.next_id = s.st.next_id) (hticks : s'.ticks = s.ticks) : Current s' := by
  constructor
  · exact List.Pairwise.sublist hwidths h.distinct
  · rw [hnext]
    exact fun p hp => h.fresh p (hwidths.subset hp)
  · rw [hticks, hnext]
    exact h.tick_fresh
  · rw [hticks]
    exact fun t ht e he hfreeze p hp => h.agree t ht e he hfreeze p (hwidths.subset hp)

theorem Current.remove {id : Nat} (h : Current s) (hstep : s.step (.remove id) = some s') :
    Current s' := by
  cases hstep
  rw [watch.remove]
  split
  · exact h.of_sublist (List.Sublist.refl _) rfl rfl
  · exact h.of_sublist (List.filter_sublist.map _) rfl rfl

theorem Current.set_width {s : service_t} (h : Current s) {id : Nat} {width : value_width_t}
    (hok : Latched s (.set_width id width)) : Current { s with st := (watch.set_width s.st id width).2 } := by
  rw [watch.set_width]
  obtain hedit | hedit := edit_cases s.st id fun e => { e with width }
  · rw [hedit]
    have hwidths : (s.st.update id fun e => { e with width }).widths =
        s.st.widths.map fun p => if p.1 = id then (p.1, width) else p := by
      rw [state_t.widths, state_t.update, List.map_map, state_t.widths, List.map_map]
      refine List.map_congr_left fun e _ => ?_
      rw [Function.comp_apply, Function.comp_apply]
      split <;> rfl
    have hfst : (s.st.update id fun e => { e with width }).widths.map Prod.fst = s.st.widths.map Prod.fst := by
      rw [hwidths, List.map_map]
      refine List.map_congr_left fun p _ => ?_
      rw [Function.comp_apply]
      split <;> rfl
    constructor
    · exact h.distinct.congr hfst
    · intro p hp
      have hmem : p.1 ∈ s.st.widths.map Prod.fst := hfst ▸ List.mem_map_of_mem hp
      obtain ⟨p', hp', hsame⟩ := List.mem_map.mp hmem
      exact hsame ▸ h.fresh p' hp'
    · exact h.tick_fresh
    · intro t ht e he hfreeze p hp hid
      rw [hwidths] at hp
      obtain ⟨p', hp', rfl⟩ := List.mem_map.mp hp
      split at hid
      · rename_i hset
        rw [if_pos hset]
        exact (hok.2 t ht e he (hid.symm.trans hset) hfreeze).imp_right Eq.symm
      · rename_i hother
        rw [if_neg hother]
        exact h.agree t ht e he hfreeze p' hp' hid
  · rw [hedit]
    exact h

theorem Current.start {s : service_t} (h : Current s) (now : Int) :
    Current { s with st := (start_pass s.st now).2, ticks := s.ticks ++ ((start_pass s.st now).1.map tick_t.started).toList } := by
  rw [start_pass]
  split
  · refine h.of_widths rfl rfl fun t ht e he => ⟨t, ?_, he⟩
    simpa using ht
  split
  · refine h.of_widths rfl rfl fun t ht e he => ⟨t, ?_, he⟩
    simpa using ht
  · have hticks : ∀ t ∈ s.ticks ++ [tick_t.started s.st.entries],
        t ∈ s.ticks ∨ t = .started s.st.entries := by
      intro t ht
      exact (List.mem_append.mp ht).imp_right List.mem_singleton.mp
    refine ⟨h.distinct, h.fresh, fun t ht e he => ?_, fun t ht e he => ?_⟩
    · obtain hold | rfl := hticks t ht
      · exact h.tick_fresh t hold e he
      · exact h.fresh (e.id, e.width) (List.mem_map_of_mem he)
    · obtain hold | rfl := hticks t ht
      · exact h.agree t hold e he
      · intro _ p hp hid
        have hlisted : (e.id, e.width) ∈ s.st.widths := List.mem_map_of_mem he
        rw [h.distinct.eq_of_key hp hlisted hid]
        exact Or.inr rfl

theorem Current.step {a : op_t} (h : Current s) (hok : Latched s a) (hstep : s.step a = some s') :
    Current s' := by
  cases a with
  | add addr width label =>
    cases hstep
    exact h.add addr width label
  | remove id => exact h.remove hstep
  | clear =>
    cases hstep
    exact h.of_sublist (List.nil_sublist _) rfl rfl
  | set_freeze id on =>
    cases hstep
    refine h.edit rfl rfl fun e => ?_
    split
    · exact ⟨latch_id s.st e, latch_width s.st e⟩
    · exact ⟨rfl, rfl⟩
  | poke id bits =>
    cases hstep
    exact h.edit rfl rfl fun _ => ⟨rfl, rfl⟩
  | set_width id width =>
    cases hstep
    exact h.set_width hok
  | set_label id label =>
    cases hstep
    exact h.edit rfl rfl fun _ => ⟨rfl, rfl⟩
  | tick_start now =>
    cases hstep
    exact h.start now
  | tick_session i valid =>
    rw [service_t.step] at hstep
    split at hstep
    · rename_i snap hget
      split at hstep <;> cases hstep
      · refine h.of_widths rfl rfl fun t ht e he => ?_
        obtain hold | rfl := List.mem_or_eq_of_mem_set ht
        · exact ⟨t, hold, he⟩
        · exact ⟨.started snap, List.mem_of_getElem? hget, he⟩
      · exact h.of_widths rfl rfl fun t ht e he => ⟨t, List.mem_of_mem_eraseIdx ht, he⟩
    · cases hstep
  | tick_sample i live =>
    rw [service_t.step] at hstep
    split at hstep
    · rename_i e rest sampled reads hget
      cases hstep
      refine h.of_widths rfl rfl fun t ht e' he' => ?_
      obtain hold | rfl := List.mem_or_eq_of_mem_set ht
      · exact ⟨t, hold, he'⟩
      · exact ⟨.sampling (e :: rest) sampled reads, List.mem_of_getElem? hget, List.mem_cons_of_mem e he'⟩
    · cases hstep
  | tick_publish i =>
    rw [service_t.step] at hstep
    split at hstep
    · rename_i sampled reads hget
      cases hstep
      refine h.of_widths (publish_widths s.st sampled) (publish_next_id s.st sampled) fun t ht e he => ?_
      exact ⟨t, List.mem_of_mem_eraseIdx ht, he⟩
    · cases hstep

end slop.core.memory.watch
