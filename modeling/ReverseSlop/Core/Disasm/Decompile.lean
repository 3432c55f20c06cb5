import ReverseSlop.Core.Disasm.Symbols

namespace slop.core.disasm.hyperion_session

open binary_state

/-- The analysis engine as far as pseudocode goes: which images it parses, the entry of the
function that contains an address, and the pseudocode of a function under some names. -/
structure engine_t where
  parses : List UInt8 → Bool
  function_at : List UInt8 → UInt64 → Option UInt64
  decompile : List UInt8 → names_t → UInt64 → List String

/-- The host, the image that its session analyzes, and the cached pseudocode by function entry. -/
structure decompiler_t where
  host : host_t
  img : List UInt8
  decomp_cache : List (UInt64 × List String) := []

/-- `load_file` has started the analysis of an image, and is about to queue its symbols. -/
def decompiler_t.loaded (img : List UInt8) (symbols : name_table_t) : decompiler_t := { host := .loaded symbols, img }

/-- The names in the database. -/
def pipeline_t.db_names (s : pipeline_t) : names_t := fun va => (s.names va).map db_name_t.name

def decompiler_t.ready (s : decompiler_t) : Bool := s.host.hype.ready

section

variable (hype : engine_t)

/-- The pseudocode that the engine has for a function now. -/
def decompiler_t.fresh (s : decompiler_t) (entry : UInt64) : List String :=
  hype.decompile s.img s.host.hype.db_names entry

/-- An answer from the cache, or a new one that is put there; a full cache is cleared first. -/
def decompiler_t.decompile (s : decompiler_t) (va : UInt64) : Except String (List String) × decompiler_t :=
  if !s.ready then (.error "hyperion analysis not ready", s)
  else
    match hype.function_at s.img va with
    | none => (.error ("no function contains address " ++ toString va), s)
    | some entry =>
      match s.decomp_cache.lookup entry with
      | some lines => (.ok lines, s)
      | none =>
        if s.fresh hype entry = [] then (.error "decompiler produced no output", s)
        else
          let decomp_cache := if s.decomp_cache.length ≥ 256 then [] else s.decomp_cache
          (.ok (s.fresh hype entry), { s with decomp_cache := (entry, s.fresh hype entry) :: decomp_cache })

inductive decompiler_op_t where
  | decompile (va : UInt64)
  /-- A call of `queue_names` begins. -/
  | queue_call (names : names_t)
  | reanalyze (patched_bytes : List UInt8)
  | host (op : host_op_t)

/-- What a step of the host does to the cache: `queue_names` drops it if the session is ready. -/
def decompiler_t.cache_after (s : decompiler_t) : host_op_t → List (UInt64 × List String)
  | .queue_test => if s.ready then [] else s.decomp_cache
  | _ => s.decomp_cache

def decompiler_t.step (s : decompiler_t) : decompiler_op_t → Option decompiler_t
  | .decompile va => some (s.decompile hype va).2
  | .queue_call names =>
    if s.host.call.isNone then some { s with host := { s.host with call := some ⟨names, .queue⟩ } } else none
  | .reanalyze bytes =>
    (s.host.step (.reanalyze (hype.parses bytes))).map fun host =>
      { host, img := if hype.parses bytes then bytes else s.img, decomp_cache := [] }
  | .host (.reanalyze _) => none
  | .host op => (s.host.step op).map fun host => { s with host, decomp_cache := s.cache_after op }

/-- A session answers as one with an empty cache does. -/
def decompiler_t.Coherent (s : decompiler_t) : Prop :=
  ∀ va, (s.decompile hype va).1 = (decompiler_t.decompile hype { s with decomp_cache := [] } va).1

/-- A name that `set_symbol` writes to the database of a ready session does not change the
pseudocode of a function that is in the cache. -/
def KeepsText (s : decompiler_t) : decompiler_op_t → Prop
  | .host .symbol_write =>
    s.ready = true → ∀ c ∈ s.host.call, ∀ e ∈ s.decomp_cache,
      hype.decompile s.img (s.host.hype.rename c.names).db_names e.1 = s.fresh hype e.1
  | _ => True

/-- The cache of a ready session is what the engine has now, and it is empty while an analysis
is on its way to make the session ready. -/
structure Current (s : decompiler_t) : Prop where
  busy : ∀ pc ∈ s.host.hype.worker, pc ≠ .index → s.ready = false ∧ s.decomp_cache = []
  current : s.ready = true → ∀ e ∈ s.decomp_cache, e.2 = s.fresh hype e.1 ∧ e.2 ≠ []

variable {hype}

theorem Current.loaded (img : List UInt8) (symbols : name_table_t) : Current hype (.loaded img symbols) :=
  ⟨fun _ _ _ => ⟨rfl, rfl⟩, fun _ => List.forall_mem_nil _⟩

section

variable {s s' : decompiler_t}

theorem mem_of_lookup {cache : List (UInt64 × List String)} {entry : UInt64} {lines : List String}
    (hlookup : cache.lookup entry = some lines) : (entry, lines) ∈ cache := by
  induction cache with
  | nil => cases hlookup
  | cons e cache ih =>
    rw [List.lookup_cons] at hlookup
    split at hlookup
    · rename_i hsame
      cases hlookup
      rw [eq_of_beq hsame]
      exact List.mem_cons_self
    · exact List.mem_cons_of_mem _ (ih hlookup)

theorem decompile_not_ready (va : UInt64) (hready : s.ready = false) :
    s.decompile hype va = (.error "hyperion analysis not ready", s) := by
  simp [decompiler_t.decompile, hready]

theorem decompile_no_function {va : UInt64} (hready : s.ready = true) (hentry : hype.function_at s.img va = none) :
    s.decompile hype va = (.error ("no function contains address " ++ toString va), s) := by
  simp [decompiler_t.decompile, hready, hentry]

theorem decompile_cached {va entry : UInt64} {lines : List String} (hready : s.ready = true)
    (hentry : hype.function_at s.img va = some entry) (hlookup : s.decomp_cache.lookup entry = some lines) :
    s.decompile hype va = (.ok lines, s) := by
  simp [decompiler_t.decompile, hready, hentry, hlookup]

/-- Without an entry in the cache, the answer and what is put into the cache are the engine's. -/
theorem decompile_fresh {va entry : UInt64} (hready : s.ready = true) (hentry : hype.function_at s.img va = some entry)
    (hlookup : s.decomp_cache.lookup entry = none) :
    (s.fresh hype entry = [] ∧ s.decompile hype va = (.error "decompiler produced no output", s)) ∨
      (s.fresh hype entry ≠ [] ∧ ∃ decomp_cache, decomp_cache ⊆ s.decomp_cache ∧
        s.decompile hype va =
          (.ok (s.fresh hype entry), { s with decomp_cache := (entry, s.fresh hype entry) :: decomp_cache })) := by
  by_cases hempty : s.fresh hype entry = []
  · refine Or.inl ⟨hempty, ?_⟩
    simp [decompiler_t.decompile, hready, hentry, hlookup, hempty]
  · refine Or.inr ⟨hempty, if s.decomp_cache.length ≥ 256 then [] else s.decomp_cache, ?_, ?_⟩
    · split
      · exact List.nil_subset _
      · exact List.Subset.refl _
    · simp [decompiler_t.decompile, hready, hentry, hlookup, hempty]

theorem Current.coherent (h : Current hype s) : s.Coherent hype := by
  intro va
  have hsame : decompiler_t.ready { s with decomp_cache := [] } = s.ready := rfl
  cases hready : s.ready with
  | false =>
    rw [hready] at hsame
    rw [decompile_not_ready va hready, decompile_not_ready va hsame]
  | true =>
    rw [hready] at hsame
    cases hentry : hype.function_at s.img va with
    | none => rw [decompile_no_function hready hentry, decompile_no_function hsame hentry]
    | some entry =>
      -- an empty cache answers what the engine has
      obtain ⟨hempty, hnew⟩ | ⟨hsome, _, -, hnew⟩ := decompile_fresh (s := { s with decomp_cache := [] }) hsame hentry rfl
      · cases hlookup : s.decomp_cache.lookup entry with
        | none =>
          obtain ⟨-, hold⟩ | ⟨hsome, -⟩ := decompile_fresh hready hentry hlookup
          · rw [hnew, hold]
          · exact absurd hempty hsome
        | some lines =>
          obtain ⟨hfresh, hsome⟩ := h.current hready _ (mem_of_lookup hlookup)
          exact absurd (hfresh.trans hempty) hsome
      · cases hlookup : s.decomp_cache.lookup entry with
        | none =>
          obtain ⟨hempty, -⟩ | ⟨-, _, -, hold⟩ := decompile_fresh hready hentry hlookup
          · exact absurd hempty hsome
          · rw [hnew, hold]
            rfl
        | some lines =>
          obtain ⟨hfresh, -⟩ := h.current hready _ (mem_of_lookup hlookup)
          rw [hnew, decompile_cached hready hentry hlookup]
          exact congrArg Except.ok hfresh

/-! The steps. -/

theorem Current.decompile (h : Current hype s) (va : UInt64) : Current hype (s.decompile hype va).2 := by
  cases hready : s.ready with
  | false =>
    rw [decompile_not_ready va hready]
    exact h
  | true =>
    cases hentry : hype.function_at s.img va with
    | none =>
      rw [decompile_no_function hready hentry]
      exact h
    | some entry =>
      cases hlookup : s.decomp_cache.lookup entry with
      | some lines =>
        rw [decompile_cached hready hentry hlookup]
        exact h
      | none =>
        obtain ⟨-, hsame⟩ | ⟨hsome, decomp_cache, hsub, hput⟩ := decompile_fresh hready hentry hlookup
        · rw [hsame]
          exact h
        · rw [hput]
          refine ⟨fun pc hpc hne => ?_, fun _ => ?_⟩
          · exact absurd (hready.symm.trans (h.busy pc hpc hne).1) nofun
          · exact List.forall_mem_cons.mpr ⟨⟨rfl, hsome⟩, fun e he => h.current hready e (hsub he)⟩

/-- The names in the database stay as they are, and so does the cache. -/
theorem Current.keep {host : host_t} (h : Current hype s) (hnames : host.hype.names = s.host.hype.names)
    (hready : host.hype.ready = s.host.hype.ready) (hworker : host.hype.worker = s.host.hype.worker) :
    Current hype { s with host } := by
  have hdb : host.hype.db_names = s.host.hype.db_names := by
    unfold pipeline_t.db_names
    rw [hnames]
  refine ⟨fun pc hpc hne => ?_, fun hnow e he => ?_⟩
  · rw [hworker] at hpc
    rw [decompiler_t.ready, hready]
    exact h.busy pc hpc hne
  · rw [decompiler_t.ready, hready] at hnow
    rw [decompiler_t.fresh, hdb]
    exact h.current hnow e he

/-- The worker goes on, with the session not ready. -/
theorem Current.working {hype' : pipeline_t} {pc : pc_t} (h : Current hype s) (hworker : s.host.hype.worker = some pc)
    (hne : pc ≠ .index) (hready : hype'.ready = s.host.hype.ready) :
    Current hype { s with host := { s.host with hype := hype' } } := by
  obtain ⟨hnot, hempty⟩ := h.busy pc hworker hne
  have hnot' : hype'.ready = false := hready.trans hnot
  refine ⟨fun _ _ _ => ⟨hnot', hempty⟩, fun hnow => ?_⟩
  exact absurd (hnot'.symm.trans hnow) nofun

theorem Current.worker {op : pipeline_op_t} {hype' : pipeline_t} (h : Current hype s) (hop : of_worker op = true)
    (hstep : s.host.hype.step op = some hype') : Current hype { s with host := { s.host with hype := hype' } } := by
  cases op with
  | analyzed generated =>
    obtain ⟨hworker, hs'⟩ := Option.ite_none_right_eq_some.mp hstep
    cases hs'
    exact h.working hworker nofun rfl
  | set_error =>
    obtain ⟨-, hs'⟩ := Option.ite_none_left_eq_some.mp hstep
    cases hs'
    exact ⟨nofun, nofun⟩
  | apply =>
    obtain ⟨⟨hworker, -⟩, hs'⟩ := Option.ite_none_right_eq_some.mp hstep
    cases hs'
    exact h.working hworker nofun rfl
  | publish =>
    obtain ⟨hworker, hs'⟩ := Option.ite_none_right_eq_some.mp hstep
    cases hs'
    obtain ⟨-, hempty⟩ := h.busy .publish hworker nofun
    refine ⟨fun pc hpc hne => absurd (Option.some.inj hpc).symm hne, fun _ => ?_⟩
    simp [hempty]
  | indexed =>
    obtain ⟨-, hs'⟩ := Option.ite_none_right_eq_some.mp hstep
    cases hs'
    exact ⟨nofun, h.current⟩
  | begin parsed => cases hop
  | queue_names names => cases hop
  | queue_test => cases hop

/-- A new analysis begins with an empty cache. -/
theorem current_reanalyze {bytes : List UInt8} (hstep : s.step hype (.reanalyze bytes) = some s') : Current hype s' := by
  obtain ⟨host, hhost, rfl⟩ := Option.map_eq_some_iff.mp hstep
  obtain ⟨-, hmap⟩ := Option.ite_none_right_eq_some.mp hhost
  obtain ⟨hype', hbegin, rfl⟩ := Option.map_eq_some_iff.mp hmap
  obtain ⟨-, hs'⟩ := Option.ite_none_right_eq_some.mp hbegin
  cases hs'
  exact ⟨fun _ _ _ => ⟨rfl, rfl⟩, nofun⟩

/-- `set_symbol` writes to the database and leaves the cache. -/
theorem Current.symbol_write (h : Current hype s) (hok : KeepsText hype s (.host .symbol_write))
    (hstep : s.step hype (.host .symbol_write) = some s') : Current hype s' := by
  obtain ⟨host, hhost, rfl⟩ := Option.map_eq_some_iff.mp hstep
  obtain ⟨c, hcall, hif⟩ := Option.bind_eq_some_iff.mp hhost
  obtain ⟨-, hs'⟩ := Option.ite_none_right_eq_some.mp hif
  cases hs'
  refine ⟨h.busy, fun hready e he => ?_⟩
  obtain ⟨hcurrent, hsome⟩ := h.current hready e he
  exact ⟨hcurrent.trans (hok hready c hcall e he).symm, hsome⟩

/-- `queue_names` drops the cache before it writes to the database. -/
theorem Current.queue_test (h : Current hype s) (hstep : s.step hype (.host .queue_test) = some s') :
    Current hype s' := by
  obtain ⟨host, hhost, rfl⟩ := Option.map_eq_some_iff.mp hstep
  obtain ⟨c, -, hif⟩ := Option.bind_eq_some_iff.mp hhost
  obtain ⟨-, hmap⟩ := Option.ite_none_right_eq_some.mp hif
  obtain ⟨hype', htest, rfl⟩ := Option.map_eq_some_iff.mp hmap
  obtain ⟨names, -, rfl⟩ := Option.map_eq_some_iff.mp htest
  cases hready : s.host.hype.ready with
  | false =>
    have hcache : s.cache_after .queue_test = s.decomp_cache := if_neg (by rw [decompiler_t.ready, hready]; nofun)
    rw [hcache]
    exact h.keep rfl rfl rfl
  | true =>
    have hcache : s.cache_after .queue_test = [] := if_pos hready
    rw [hcache]
    refine ⟨fun pc hpc hne => ?_, fun _ => List.forall_mem_nil _⟩
    obtain ⟨hnot, -⟩ := h.busy pc hpc hne
    exact absurd (hnot.symm.trans hready) nofun

theorem Current.step {op : decompiler_op_t} (h : Current hype s) (hok : KeepsText hype s op)
    (hstep : s.step hype op = some s') : Current hype s' := by
  cases op with
  | decompile va =>
    cases hstep
    exact h.decompile va
  | queue_call names =>
    obtain ⟨-, hs'⟩ := Option.ite_none_right_eq_some.mp hstep
    cases hs'
    exact h.keep rfl rfl rfl
  | reanalyze bytes => exact current_reanalyze hstep
  | host op =>
    cases op with
    | set_symbol va name =>
      obtain ⟨host, hhost, rfl⟩ := Option.map_eq_some_iff.mp hstep
      obtain ⟨-, hs'⟩ := Option.ite_none_right_eq_some.mp hhost
      cases hs'
      exact h.keep rfl rfl rfl
    | symbol_test =>
      obtain ⟨host, hhost, rfl⟩ := Option.map_eq_some_iff.mp hstep
      obtain ⟨c, -, hif⟩ := Option.bind_eq_some_iff.mp hhost
      obtain ⟨-, hs'⟩ := Option.ite_none_right_eq_some.mp hif
      cases hs'
      exact h.keep rfl rfl rfl
    | symbol_write => exact h.symbol_write hok hstep
    | queue_names =>
      obtain ⟨host, hhost, rfl⟩ := Option.map_eq_some_iff.mp hstep
      obtain ⟨c, -, hif⟩ := Option.bind_eq_some_iff.mp hhost
      obtain ⟨-, hmap⟩ := Option.ite_none_right_eq_some.mp hif
      obtain ⟨hype', hqueue, rfl⟩ := Option.map_eq_some_iff.mp hmap
      obtain ⟨-, hs'⟩ := Option.ite_none_right_eq_some.mp hqueue
      cases hs'
      exact h.keep rfl rfl rfl
    | queue_test => exact h.queue_test hstep
    | reanalyze parsed => cases hstep
    | worker op =>
      obtain ⟨host, hhost, rfl⟩ := Option.map_eq_some_iff.mp hstep
      obtain ⟨hop, hmap⟩ := Option.ite_none_right_eq_some.mp hhost
      obtain ⟨hype', hworker, rfl⟩ := Option.map_eq_some_iff.mp hmap
      exact h.worker hop hworker

/-- As long as no name that is written to the database of a ready session changes pseudocode that
is in the cache, the cache answers what the engine would. -/
theorem decompile_cache_coherent {img : List UInt8} {symbols : name_table_t}
    (hreach : Relation.ReflTransGen (Transition.Step (KeepsText hype) (decompiler_t.step hype)) (.loaded img symbols) s) :
    s.Coherent hype := by
  have hcurrent : Current hype s :=
    Transition.invariant (Current.loaded img symbols) (fun _ _ _ h hok hstep => h.step hok hstep) hreach
  exact hcurrent.coherent

end

end

/-- No address has a name. -/
def unnamed : name_table_t where
  nonempty va := by simp

/-- An engine for which every address is a function, whose pseudocode is its name. -/
def naming_engine : engine_t where
  parses _ := true
  function_at _ va := some va
  decompile _ names entry := [(names entry).getD "sub"]

/-- The name of a function that is not in the cache is in no cached text. -/
private theorem keepsText_of_uncached {s : decompiler_t} {va : UInt64} {name : String}
    (hcall : s.host.call = some ⟨single va name, .write⟩) (hcache : ∀ e ∈ s.decomp_cache, e.1 ≠ va) :
    KeepsText naming_engine s (.host .symbol_write) := by
  intro _ c hc e he
  rw [hcall] at hc
  cases hc
  have hname : (s.host.hype.rename (single va name)).db_names e.1 = s.host.hype.db_names e.1 := by
    simp [pipeline_t.db_names, pipeline_t.rename, single, hcache e he]
  show [((s.host.hype.rename (single va name)).db_names e.1).getD "sub"] = _
  rw [hname]
  rfl

/-- A function is named while the analysis runs, and decompiled. Another one is named in the ready session, then this
one again by `queue_names`, and what is cached of it then has the new name. -/
theorem queued_name_is_decompiled :
    ∃ s : decompiler_t, s.ready = true ∧ s.decomp_cache = [(0x401000, ["entry"])] ∧
      s.host.hype.db_names 0x402000 = some "other" ∧ s.Coherent naming_engine := by
  have hreach : Relation.ReflTransGen (Transition.Step (KeepsText naming_engine) (decompiler_t.step naming_engine))
      (.loaded [] unnamed) _ :=
    .head ⟨.host .queue_names, trivial, rfl⟩ <| .head ⟨.host .queue_test, trivial, rfl⟩ <|
      .head ⟨.host (.set_symbol 0x401000 "main"), trivial, rfl⟩ <| .head ⟨.host .symbol_test, trivial, rfl⟩ <|
      .head ⟨.host .queue_names, trivial, rfl⟩ <| .head ⟨.host .queue_test, trivial, rfl⟩ <|
      .head ⟨.host (.worker (.analyzed fun _ => none)), trivial, rfl⟩ <| .head ⟨.host (.worker .apply), trivial, rfl⟩ <|
      .head ⟨.host (.worker .publish), trivial, rfl⟩ <| .head ⟨.decompile 0x401000, trivial, rfl⟩ <|
      .head ⟨.host (.set_symbol 0x402000 "other"), trivial, rfl⟩ <| .head ⟨.host .symbol_test, trivial, rfl⟩ <|
      .head ⟨.host .symbol_write, keepsText_of_uncached rfl (List.forall_mem_singleton.mpr (by decide)), rfl⟩ <|
      .head ⟨.queue_call (single 0x401000 "entry"), trivial, rfl⟩ <| .head ⟨.host .queue_names, trivial, rfl⟩ <|
      .head ⟨.host .queue_test, trivial, rfl⟩ <| .head ⟨.decompile 0x401000, trivial, rfl⟩ .refl
  exact ⟨_, rfl, rfl, rfl, decompile_cache_coherent hreach⟩

/-- A function is decompiled and then named by `set_symbol`: the cache answers with its old name. -/
theorem renamed_function_keeps_text :
    ¬ ∀ (hype : engine_t) (img : List UInt8) (symbols : name_table_t) (s : decompiler_t),
      Relation.ReflTransGen (Transition.Step (fun _ _ => True) (decompiler_t.step hype)) (.loaded img symbols) s →
        s.Coherent hype := by
  have hreach : Relation.ReflTransGen (Transition.Step (fun (_ : decompiler_t) _ => True) (decompiler_t.step naming_engine))
      (.loaded [] unnamed) _ :=
    .head ⟨.host .queue_names, trivial, rfl⟩ <| .head ⟨.host .queue_test, trivial, rfl⟩ <|
      .head ⟨.host (.worker (.analyzed fun _ => none)), trivial, rfl⟩ <| .head ⟨.host (.worker .apply), trivial, rfl⟩ <|
      .head ⟨.host (.worker .publish), trivial, rfl⟩ <| .head ⟨.decompile 0x401000, trivial, rfl⟩ <|
      .head ⟨.host (.set_symbol 0x401000 "main"), trivial, rfl⟩ <| .head ⟨.host .symbol_test, trivial, rfl⟩ <|
      .head ⟨.host .symbol_write, trivial, rfl⟩ .refl
  intro hlaw
  have hanswer : (Except.ok ["sub"] : Except String (List String)) = .ok ["main"] :=
    hlaw naming_engine [] unnamed _ hreach 0x401000
  simp at hanswer

end slop.core.disasm.hyperion_session
