import ReverseSlop.Core.Mcp.Server
import ReverseSlop.Library.Transition

namespace slop.core.mcp

open Json (Value)
open Numeral (ascii)

/-- A `tools/call` that has not returned, with its cancel source. -/
structure tool_call_t where
  session : List UInt8
  id : Value
  source : Nat

/-- A cancellation that has looked for its call, and the source that it found. -/
structure cancel_t where
  session : List UInt8
  id : Value
  found : Option Nat

/-- `pending` has the sources that were found and are not yet requested. `made` and `cancels` are not in the program: the
calls and the cancellations so far. -/
structure server_t where
  g_active : List (List UInt8 × Nat) := []
  sources : Nat := 0
  calls : List tool_call_t := []
  requested : List Nat := []
  pending : List Nat := []
  made : List tool_call_t := []
  cancels : List cancel_t := []

/-- What the threads of the server do between two locks, or under one. -/
inductive action_t where
  /-- A call gets a source, and is registered unless its key is. -/
  | call (session : List UInt8) (id : Value)
  /-- The guard of a call goes out of scope. -/
  | finish (source : Nat)
  /-- A notification looks for its call. -/
  | cancel (session : List UInt8) (id : Value)
  /-- It requests what it found. -/
  | request (source : Nat)

namespace server_t

/-- A call that runs. -/
def start (s : server_t) (session : List UInt8) (id : Value) : server_t :=
  { s with
    sources := s.sources + 1
    calls := s.calls ++ [⟨session, id, s.sources⟩]
    made := s.made ++ [⟨session, id, s.sources⟩] }

/-- The guard of a call removes its key if the source there is its own. -/
def unregister (s : server_t) (c : tool_call_t) : server_t :=
  match request_key c.session c.id with
  | none => s
  | some key =>
    if SortedMap.find key s.g_active = some c.source then { s with g_active := SortedMap.erase key s.g_active } else s

def step (s : server_t) : action_t → Option server_t
  | .call session id =>
    match request_key session id with
    | none => some (s.start session id)
    | some key =>
      if (SortedMap.find key s.g_active).isSome then some { s with sources := s.sources + 1 }
      else some { s.start session id with g_active := SortedMap.set key s.sources s.g_active }
  | .finish source =>
    (s.calls.find? fun c => c.source = source).map fun c =>
      { s.unregister c with calls := s.calls.filter fun c => c.source ≠ source }
  | .cancel session id =>
    match request_key session id with
    | none => some s
    | some key =>
      let found := SortedMap.find key s.g_active
      some { s with pending := s.pending ++ found.toList, cancels := s.cancels ++ [⟨session, id, found⟩] }
  | .request source =>
    if source ∈ s.pending then
      some { s with pending := s.pending.erase source, requested := s.requested ++ [source] }
    else none

end server_t

/-- A session is a text without a zero. -/
def ZeroFree (_ : server_t) : action_t → Prop
  | .call session _ | .cancel session _ => 0 ∉ session
  | .finish _ | .request _ => True

/-- A call has a key. -/
def tool_call_t.key (c : tool_call_t) : Option (List UInt8) := request_key c.session c.id

/-- The registry has the calls in flight, and cancellations reach the calls that they name. -/
structure server_t.Exact (s : server_t) : Prop where
  /-- No two calls in flight share a key. -/
  one_call : ∀ c ∈ s.calls, ∀ c' ∈ s.calls, c.key.isSome → c.key = c'.key → c = c'
  registry : ∀ key source, SortedMap.find key s.g_active = some source ↔ ∃ c ∈ s.calls, c.key = some key ∧ c.source = source
  idle : s.calls = [] → s.g_active = []
  /-- What a cancellation finds is the call in flight with its session and its id. -/
  lookup : ∀ session id key, 0 ∉ session → request_key session id = some key → ∀ source,
    SortedMap.find key s.g_active = some source ↔ ∃ c ∈ s.calls, c.session = session ∧ c.id = id ∧ c.source = source
  /-- What is requested, or about to be, is what cancellations found, -/
  delivered : ∀ source, source ∈ s.requested ∨ source ∈ s.pending ↔ ∃ t ∈ s.cancels, t.found = some source
  /-- and the calls with these sources are those that they named. -/
  named : ∀ t ∈ s.cancels, ∀ source, t.found = some source → ∃ c ∈ s.made, c.source = source
  named_only : ∀ t ∈ s.cancels, ∀ c ∈ s.made, t.found = some c.source → c.session = t.session ∧ c.id = t.id
  /-- A duplicate changes neither the calls nor the registry. -/
  duplicate : ∀ c ∈ s.calls, c.key.isSome → ∀ s', s.step (.call c.session c.id) = some s' →
    s'.calls = s.calls ∧ s'.g_active = s.g_active
  /-- A call that returns removes no other registration. -/
  finished : ∀ source s', s.step (.finish source) = some s' → ∀ c ∈ s.calls, c.source ≠ source →
    c ∈ s'.calls ∧ ∀ key, c.key = some key → SortedMap.find key s'.g_active = some c.source

/-- What the registry, the calls and the cancellations have to do with each other. -/
structure server_t.Tracked (s : server_t) : Prop where
  sorted : SortedMap.Sorted s.g_active
  registry : ∀ key source, (key, source) ∈ s.g_active ↔ ∃ c ∈ s.calls, c.key = some key ∧ c.source = source
  made : ∀ c ∈ s.calls, c ∈ s.made
  fresh : ∀ c ∈ s.made, c.source < s.sources
  one_source : ∀ c ∈ s.made, ∀ c' ∈ s.made, c.source = c'.source → c = c'
  zero_free : ∀ c ∈ s.calls, 0 ∉ c.session
  delivered : ∀ source, source ∈ s.requested ∨ source ∈ s.pending ↔ ∃ t ∈ s.cancels, t.found = some source
  named : ∀ t ∈ s.cancels, ∀ source, t.found = some source →
    ∃ c ∈ s.made, c.source = source ∧ c.session = t.session ∧ c.id = t.id

section

variable {session session' : List UInt8} {id id' : Value} {key : List UInt8}

theorem print_injective {m n : Nat} (h : Numeral.print 10 m = Numeral.print 10 n) : m = n := by
  have hread : ∀ k ≤ max m n, Numeral.strtoul 10 (max m n) (Numeral.print 10 k) = k :=
    fun k hk => Numeral.strtoul_print (by decide) (by decide) hk
  have hm := hread m (Nat.le_max_left m n)
  rw [h, hread n (Nat.le_max_right m n)] at hm
  exact hm.symm

/-- No digit is a minus sign. -/
theorem minus_not_printed (n : Nat) : (45 : UInt8) ∉ Numeral.print 10 n := by
  obtain ⟨ds, -, hds, -, hprint⟩ := @Numeral.print_eq 10 n (by decide)
  rw [hprint, List.mem_map]
  rintro ⟨d, hd, hminus⟩
  exact (Numeral.upper_ne (Nat.lt_trans (hds d hd) (by decide))).2.1 hminus

theorem to_string_injective {m n : Int64} (h : to_string m = to_string n) : m = n := by
  have hnat : ∀ {m n : Int64}, (m < 0 ↔ n < 0) → m.toInt.natAbs = n.toInt.natAbs → m = n := by
    intro m n hsign habs
    rw [Int64.lt_iff_toInt_lt, Int64.lt_iff_toInt_lt, Int64.toInt_zero] at hsign
    exact Int64.toInt_inj.mp (by omega)
  rw [to_string, to_string] at h
  have hminus : ascii "-" = [45] := rfl
  by_cases hm : m < 0
  · by_cases hn : n < 0
    · rw [if_pos hm, if_pos hn, List.append_cancel_left_eq] at h
      exact hnat (iff_of_true hm hn) (print_injective h)
    · rw [if_pos hm, if_neg hn, hminus, List.nil_append] at h
      exact absurd (h ▸ List.mem_append_left _ (List.mem_singleton_self 45)) (minus_not_printed _)
  · by_cases hn : n < 0
    · rw [if_neg hm, if_pos hn, hminus, List.nil_append] at h
      exact absurd (h ▸ List.mem_append_left _ (List.mem_singleton_self 45)) (minus_not_printed _)
    · rw [if_neg hm, if_neg hn, List.nil_append, List.nil_append] at h
      exact hnat (iff_of_false hm hn) (print_injective h)

/-- What a key has behind its session and the zero. -/
def tagged : Value → Option (List UInt8)
  | .string s => some (ascii "s:" ++ s)
  | .number_unsigned n => some (ascii "u:" ++ Numeral.print 10 n.toNat)
  | .number_integer n => some (ascii "i:" ++ to_string n)
  | _ => none

theorem request_key_eq (session : List UInt8) (id : Value) :
    request_key session id = (tagged id).map fun text => session ++ 0 :: text := by
  cases id <;> simp [request_key, tagged]

/-- The tags keep the kinds of ids apart. -/
theorem tagged_injective {text : List UInt8} (h : tagged id = some text) (h' : tagged id' = some text) : id = id' := by
  have hs : ascii "s:" = [115, 58] := rfl
  have hu : ascii "u:" = [117, 58] := rfl
  have hi : ascii "i:" = [105, 58] := rfl
  have hsame : tagged id = tagged id' := h.trans h'.symm
  cases id with
  | string s => cases id' <;> simp [tagged, hs, hu, hi] at hsame ⊢; exact hsame
  | number_unsigned m =>
    cases id' with
    | number_unsigned n =>
      simp only [tagged, Option.some.injEq, List.append_cancel_left_eq] at hsame
      rw [UInt64.toNat_inj.mp (print_injective hsame)]
    | _ => simp [tagged, hs, hu, hi] at hsame
  | number_integer m =>
    cases id' with
    | number_integer n =>
      simp only [tagged, Option.some.injEq, List.append_cancel_left_eq] at hsame
      rw [to_string_injective hsame]
    | _ => simp [tagged, hs, hu, hi] at hsame
  | _ => cases h

/-- Up to the first zero of a key is its session. -/
theorem request_key_injective (hzero : 0 ∉ session) (hzero' : 0 ∉ session') (h : request_key session id = some key)
    (h' : request_key session' id' = some key) : session = session' ∧ id = id' := by
  rw [request_key_eq, Option.map_eq_some_iff] at h h'
  obtain ⟨text, htext, rfl⟩ := h
  obtain ⟨text', htext', hkey⟩ := h'
  have hsession : ∀ {s : List UInt8} (t : List UInt8), 0 ∉ s → (s ++ 0 :: t).takeWhile (· ≠ 0) = s := by
    intro s t hs
    rw [List.takeWhile_append_of_pos fun c hc => by simpa using fun hc0 : c = 0 => hs (hc0 ▸ hc)]
    simp
  have hsame := congrArg (List.takeWhile (· ≠ 0)) hkey
  rw [hsession text' hzero', hsession text hzero] at hsame
  subst hsame
  rw [List.append_cancel_left_eq, List.cons.injEq] at hkey
  exact ⟨rfl, tagged_injective htext (hkey.2 ▸ htext')⟩

end

namespace server_t

variable {s s' : server_t} {session : List UInt8} {id : Value} {key : List UInt8} {c c' : tool_call_t} {source : Nat}

theorem Tracked.find_iff (h : s.Tracked) (key : List UInt8) (source : Nat) :
    SortedMap.find key s.g_active = some source ↔ ∃ c ∈ s.calls, c.key = some key ∧ c.source = source := by
  rw [SortedMap.find_eq_some h.sorted]
  exact h.registry key source

/-- The registry has one source for a key. -/
theorem Tracked.one_call (h : s.Tracked) (hc : c ∈ s.calls) (hc' : c' ∈ s.calls) (hkey : c.key = some key)
    (hkey' : c'.key = some key) : c = c' := by
  have hfind := (h.find_iff key c.source).mpr ⟨c, hc, hkey, rfl⟩
  rw [(h.find_iff key c'.source).mpr ⟨c', hc', hkey', rfl⟩, Option.some.injEq] at hfind
  exact h.one_source c (h.made c hc) c' (h.made c' hc') hfind.symm

/-- A call that starts leaves all in order but for the registry. -/
theorem Tracked.start (h : s.Tracked) (hzero : 0 ∉ session) (registry : List (List UInt8 × Nat))
    (hsorted : SortedMap.Sorted registry)
    (hregistry : ∀ key source, (key, source) ∈ registry ↔
      ((key, source) ∈ s.g_active ∨ request_key session id = some key ∧ s.sources = source)) :
    ({ s.start session id with g_active := registry } : server_t).Tracked := by
  refine ⟨hsorted, ?_, ?_, ?_, ?_, ?_, h.delivered, ?_⟩
  · intro key source
    rw [hregistry, h.registry]
    constructor
    · rintro (⟨c, hc, hfields⟩ | hnew)
      · exact ⟨c, List.mem_append_left _ hc, hfields⟩
      · exact ⟨_, List.mem_append_right _ (List.mem_singleton_self _), hnew⟩
    · rintro ⟨c, hc, hfields⟩
      rcases List.mem_append.mp hc with hc | hc
      · exact .inl ⟨c, hc, hfields⟩
      · rw [List.mem_singleton.mp hc] at hfields
        exact .inr hfields
  · intro c hc
    rcases List.mem_append.mp hc with hc | hc
    · exact List.mem_append_left _ (h.made c hc)
    · exact List.mem_append_right _ hc
  · intro c hc
    rcases List.mem_append.mp hc with hc | hc
    · exact Nat.lt_succ_of_lt (h.fresh c hc)
    · rw [List.mem_singleton.mp hc]
      exact Nat.lt_succ_self _
  · intro c hc c' hc' hsame
    rcases List.mem_append.mp hc with hc | hc
    · rcases List.mem_append.mp hc' with hc' | hc'
      · exact h.one_source c hc c' hc' hsame
      · rw [List.mem_singleton.mp hc'] at hsame
        exact absurd hsame (Nat.ne_of_lt (h.fresh c hc))
    · rcases List.mem_append.mp hc' with hc' | hc'
      · rw [List.mem_singleton.mp hc] at hsame
        exact absurd hsame.symm (Nat.ne_of_lt (h.fresh c' hc'))
      · rw [List.mem_singleton.mp hc, List.mem_singleton.mp hc']
  · intro c hc
    rcases List.mem_append.mp hc with hc | hc
    · exact h.zero_free c hc
    · rw [List.mem_singleton.mp hc]
      exact hzero
  · intro t ht source hfound
    obtain ⟨c, hc, hfields⟩ := h.named t ht source hfound
    exact ⟨c, List.mem_append_left _ hc, hfields⟩

theorem Tracked.call (h : s.Tracked) (hzero : 0 ∉ session) (hstep : s.step (.call session id) = some s') : s'.Tracked := by
  rw [step] at hstep
  cases hkey : request_key session id with
  | none =>
    rw [hkey] at hstep
    cases hstep
    exact h.start hzero s.g_active h.sorted fun key source => by simp [hkey]
  | some key =>
    rw [hkey] at hstep
    dsimp only at hstep
    cases hfind : SortedMap.find key s.g_active with
    | some source =>
      rw [hfind] at hstep
      cases hstep
      exact ⟨h.sorted, h.registry, h.made, fun c hc => Nat.lt_succ_of_lt (h.fresh c hc), h.one_source, h.zero_free, h.delivered,
        h.named⟩
    | none =>
      rw [hfind] at hstep
      cases hstep
      refine h.start hzero _ (h.sorted.set key s.sources) fun key' source => ?_
      have hnew : (key', source) ∈ s.g_active → key' ≠ key := by
        rintro hmem rfl
        rw [(SortedMap.find_eq_some h.sorted).mpr hmem] at hfind
        cases hfind
      rw [SortedMap.mem_set h.sorted, hkey]
      simp only [Prod.mk.injEq, Option.some.injEq]
      constructor
      · rintro (⟨rfl, rfl⟩ | ⟨hmem, -⟩)
        · exact .inr ⟨rfl, rfl⟩
        · exact .inl hmem
      · rintro (hmem | ⟨rfl, rfl⟩)
        · exact .inr ⟨hmem, hnew hmem⟩
        · exact .inl ⟨rfl, rfl⟩

/-- The guard of a call in flight finds its own source. -/
theorem Tracked.unregister_eq (h : s.Tracked) (hc : c ∈ s.calls) :
    s.unregister c = { s with g_active := match c.key with
      | none => s.g_active
      | some key => SortedMap.erase key s.g_active } := by
  rw [unregister, ← tool_call_t.key]
  cases hkey : c.key with
  | none => rfl
  | some key =>
    dsimp only
    rw [if_pos ((h.find_iff key c.source).mpr ⟨c, hc, hkey, rfl⟩)]

theorem Tracked.finish (h : s.Tracked) (hstep : s.step (.finish source) = some s') : s'.Tracked := by
  obtain ⟨c, hfound, rfl⟩ := Option.map_eq_some_iff.mp hstep
  have hc := List.mem_of_find?_eq_some hfound
  have hsource : c.source = source := by simpa using List.find?_some hfound
  have hkept : ∀ c' ∈ s.calls.filter (fun c => c.source ≠ source), c' ∈ s.calls := fun c' hc' => (List.mem_filter.mp hc').1
  have hothers : ∀ c', c' ∈ s.calls.filter (fun c => c.source ≠ source) ↔ c' ∈ s.calls ∧ c' ≠ c := by
    intro c'
    rw [List.mem_filter, decide_eq_true_iff]
    refine and_congr_right fun hc' => ?_
    constructor
    · rintro hne rfl
      exact hne hsource
    · intro hne hsame
      exact hne (h.one_source c' (h.made c' hc') c (h.made c hc) (hsame.trans hsource.symm))
  rw [h.unregister_eq hc]
  refine ⟨?_, ?_, fun c' hc' => h.made c' (hkept c' hc'), h.fresh, h.one_source, fun c' hc' => h.zero_free c' (hkept c' hc'),
    h.delivered, h.named⟩
  · dsimp only
    cases c.key with
    | none => exact h.sorted
    | some key => exact h.sorted.erase key
  · intro key other
    have hrest : (∃ c' ∈ s.calls.filter (fun c => c.source ≠ source), c'.key = some key ∧ c'.source = other) ↔
        (key, other) ∈ s.g_active ∧ c.key ≠ some key := by
      rw [h.registry]
      constructor
      · rintro ⟨c', hc', hkey, rfl⟩
        obtain ⟨hmem, hne⟩ := (hothers c').mp hc'
        exact ⟨⟨c', hmem, hkey, rfl⟩, fun hsame => hne (h.one_call hmem hc hkey hsame)⟩
      · rintro ⟨⟨c', hmem, hkey, rfl⟩, hne⟩
        exact ⟨c', (hothers c').mpr ⟨hmem, fun hsame => hne (hsame ▸ hkey)⟩, hkey, rfl⟩
    rw [hrest]
    dsimp only
    cases c.key with
    | none => simp
    | some mine =>
      dsimp only
      rw [SortedMap.mem_erase]
      simp [eq_comm]

theorem Tracked.cancel (h : s.Tracked) (hzero : 0 ∉ session) (hstep : s.step (.cancel session id) = some s') : s'.Tracked := by
  rw [step] at hstep
  cases hkey : request_key session id with
  | none =>
    rw [hkey] at hstep
    cases hstep
    exact h
  | some key =>
    rw [hkey] at hstep
    cases hstep
    refine ⟨h.sorted, h.registry, h.made, h.fresh, h.one_source, h.zero_free, ?_, ?_⟩
    · intro source
      have hold := h.delivered source
      simp only [List.mem_append, Option.mem_toList]
      rw [← or_assoc, hold]
      constructor
      · rintro (⟨t, ht, hfound⟩ | hfound)
        · exact ⟨t, .inl ht, hfound⟩
        · exact ⟨_, .inr (List.mem_singleton_self _), hfound⟩
      · rintro ⟨t, ht | ht, hfound⟩
        · exact .inl ⟨t, ht, hfound⟩
        · rw [List.mem_singleton.mp ht] at hfound
          exact .inr hfound
    · intro t ht source hfound
      rcases List.mem_append.mp ht with ht | ht
      · exact h.named t ht source hfound
      · rw [List.mem_singleton.mp ht] at hfound ⊢
        obtain ⟨c, hc, hsame, hsource⟩ := (h.find_iff key source).mp hfound
        obtain ⟨hsession, hid⟩ := request_key_injective (h.zero_free c hc) hzero hsame hkey
        exact ⟨c, h.made c hc, hsource, hsession, hid⟩

theorem Tracked.request (h : s.Tracked) (hstep : s.step (.request source) = some s') : s'.Tracked := by
  rw [step] at hstep
  split at hstep
  · rename_i hpending
    cases hstep
    refine ⟨h.sorted, h.registry, h.made, h.fresh, h.one_source, h.zero_free, fun other => ?_, h.named⟩
    rw [← h.delivered other, List.mem_append, List.mem_singleton]
    by_cases hsame : other = source
    · subst hsame
      exact iff_of_true (.inl (.inr rfl)) (.inr hpending)
    · rw [List.mem_erase_of_ne hsame]
      simp [hsame]
  · cases hstep

theorem Tracked.step {a : action_t} (h : s.Tracked) (hzero : ZeroFree s a) (hstep : s.step a = some s') : s'.Tracked := by
  cases a with
  | call session id => exact h.call hzero hstep
  | finish source => exact h.finish hstep
  | cancel session id => exact h.cancel hzero hstep
  | request source => exact h.request hstep

theorem Tracked.exact (h : s.Tracked) : s.Exact := by
  refine ⟨?_, h.find_iff, ?_, ?_, h.delivered, ?_, ?_, ?_, ?_⟩
  · intro c hc c' hc' hkeyed hsame
    obtain ⟨key, hkey⟩ := Option.isSome_iff_exists.mp hkeyed
    exact h.one_call hc hc' hkey (hsame ▸ hkey)
  · intro hidle
    refine List.eq_nil_iff_forall_not_mem.mpr fun e he => ?_
    obtain ⟨c, hc, -⟩ := (h.registry e.1 e.2).mp he
    rw [hidle] at hc
    cases hc
  · intro session id key hzero hkey source
    rw [h.find_iff]
    constructor
    · rintro ⟨c, hc, hsame, hsource⟩
      obtain ⟨hsession, hid⟩ := request_key_injective (h.zero_free c hc) hzero hsame hkey
      exact ⟨c, hc, hsession, hid, hsource⟩
    · rintro ⟨c, hc, rfl, rfl, hsource⟩
      exact ⟨c, hc, hkey, hsource⟩
  · intro t ht source hfound
    obtain ⟨c, hc, hsource, -⟩ := h.named t ht source hfound
    exact ⟨c, hc, hsource⟩
  · intro t ht c hc hfound
    obtain ⟨c', hc', hsource, hfields⟩ := h.named t ht c.source hfound
    rw [h.one_source c hc c' hc' hsource.symm]
    exact hfields
  · intro c hc hkeyed s' hstep
    obtain ⟨key, hkey⟩ := Option.isSome_iff_exists.mp hkeyed
    have hfind := (h.find_iff key c.source).mpr ⟨c, hc, hkey, rfl⟩
    rw [tool_call_t.key] at hkey
    rw [server_t.step, hkey] at hstep
    dsimp only at hstep
    rw [hfind] at hstep
    cases hstep
    exact ⟨rfl, rfl⟩
  · intro source s' hstep c hc hother
    have hnext := h.finish hstep
    obtain ⟨found, -, rfl⟩ := Option.map_eq_some_iff.mp hstep
    have hkept : c ∈ s.calls.filter fun c => c.source ≠ source := List.mem_filter.mpr ⟨hc, by simpa using hother⟩
    exact ⟨hkept, fun key hkey => (hnext.find_iff key c.source).mpr ⟨c, hkept, hkey, rfl⟩⟩

end server_t

instance (s : server_t) : (a : action_t) → Decidable (ZeroFree s a)
  | .call session _ => inferInstanceAs (Decidable (0 ∉ session))
  | .cancel session _ => inferInstanceAs (Decidable (0 ∉ session))
  | .finish _ => .isTrue trivial
  | .request _ => .isTrue trivial

end slop.core.mcp
