import ReverseSlop.Core.Emu.EventCap

namespace slop.core.emu

open taint_tracker_t

/-- A byte of a general register or of the memory. -/
inductive place_t where
  | reg (n : Fin 16) (byte : Fin 8)
  | mem (addr : UInt64)
  deriving DecidableEq

/-- The bytes of a register that a part of it has. -/
def part_t.has : part_t → Fin 8 → Bool
  | .low8, byte => byte = 0
  | .high8, byte => byte = 1
  | .low16, byte => byte < 2
  | .low32, byte => byte < 4
  | .full, _ => true

def rsp : Fin 16 := ⟨4, by decide⟩

/-- What the data of each byte is made from. A byte that is left alone is made from itself. -/
abbrev flow_t := place_t → List place_t

/-- An instruction takes a byte from a register operand, or from a memory operand by one of some accesses. -/
def insn_t.Takes (insn : insn_t) (accesses : List access_t) : place_t → Prop
  | .reg n byte => ∃ part writes, .reg (.general n part) true writes ∈ insn.ops ∧ part.has byte = true
  | .mem a => (∃ base index writes, .mem false base index true writes ∈ insn.ops) ∧
      ∃ addr len, .read addr len ∈ accesses ∧ in_range addr len a = true

/-- A byte is part of the base or the index of the address that `lea` computes. -/
def insn_t.Addresses (insn : insn_t) : place_t → Prop
  | .reg n byte => ∃ base index reads writes part, .mem true base index reads writes ∈ insn.ops ∧
      (base = .general n part ∨ index = .general n part) ∧ part.has byte = true
  | .mem _ => False

/-- What an instruction makes its data from. The address of a load or of a store is none of it. -/
def insn_t.Reads (insn : insn_t) (accesses : List access_t) (q : place_t) : Prop :=
  insn.Takes accesses q ∨ insn.Addresses q

/-- What an instruction makes of a byte: it leaves it alone, or writes it from bytes that it reads. A write of 32
bits clears the upper half of the register. -/
def insn_t.Makes (insn : insn_t) (accesses : List access_t) (flow : flow_t) : place_t → Prop
  | .reg n byte => flow (.reg n byte) = [.reg n byte] ∨ ∃ part reads, .reg (.general n part) reads true ∈ insn.ops ∧
      ((part = .low32 ∧ flow (.reg n byte) = []) ∨ (part.has byte = true ∧ ∀ q ∈ flow (.reg n byte), insn.Reads accesses q))
  | .mem a => flow (.mem a) = [.mem a] ∨ ∃ before addr len after, accesses = before ++ .write addr len :: after ∧
      in_range addr len a = true ∧ ∀ q ∈ flow (.mem a), insn.Reads before q

/-- The data flow of what is executed. The stub of an import puts a constant into `rax` and moves `rsp`; an
instruction that is not decoded may do anything. -/
def emu_op_t.Flows (flow : flow_t) : emu_op_t → Prop
  | .insn _ _ code accesses => ∀ p, code.Makes accesses flow p
  | .undecoded _ _ _ => True
  | .stop => ∀ p, flow p = [p]
  | .import _ _ _ =>
    (∀ byte, flow (.reg rax byte) = []) ∧ (∀ byte, ∀ q ∈ flow (.reg rsp byte), ∃ byte', q = .reg rsp byte') ∧
      ∀ p, (∀ byte, p ≠ .reg rax byte ∧ p ≠ .reg rsp byte) → flow p = [p]

/-- What is executed, with the flow of its data. -/
structure traced_t where
  op : emu_op_t
  flow : flow_t
  flows : op.Flows flow

/-- A run, and which bytes depend on tainted input. -/
structure flow_state_t where
  ctx : run_ctx_t
  depends : place_t → Bool

def flow_state_t.step (s : flow_state_t) (e : traced_t) : Option flow_state_t :=
  some ⟨s.ctx.step event_cap e.op, fun p => (e.flow p).any s.depends⟩

def flow_state_t.start (taint_sources : List (UInt64 × Nat)) : flow_state_t where
  ctx := .start taint_sources
  depends
    | .reg _ _ => false
    | .mem a => taint_sources.any fun s => in_range s.1 s.2 a

/-- A register is tainted when one of its bytes depends on tainted input. -/
def flow_state_t.Sound (s : flow_state_t) : Prop :=
  ∀ n byte, s.depends (.reg n byte) = true → s.ctx.taint.reg (.general n) = true

/-- The tracker at the end of an instruction, before its destinations get their taint. -/
def flow_state_t.executed (s : flow_state_t) (e : traced_t) : taint_tracker_t := (s.ctx.execute event_cap e.op).taint

namespace taint_tracker_t

variable (t : taint_tracker_t) (canonical : canonical_t)

/-- A register is a destination. -/
def Writes : Prop := ∃ d ∈ t.cur_.dests, d.canonical = canonical

/-- A register is a destination of a XOR or SUB of it with itself. -/
def Zeroes : Prop := ∃ d ∈ t.cur_.dests, d.canonical = canonical ∧ d.zeroing = true

end taint_tracker_t

/-- What `hook_code` does not look at: the registers of an address that is computed, and whatever an instruction
uses that is not decoded. -/
def emu_op_t.Overlooks : emu_op_t → place_t → Prop
  | .insn _ _ code _, q => code.Addresses q
  | .undecoded _ _ _, _ => True
  | _, _ => False

/-- The log has room, and no data that depends on tainted input is made from what `hook_code` does not look at. A XOR
or SUB of a register with itself leaves no such data in it, and none is in the bytes that are left alone of a
register that is a destination of the instruction analyzed last when this has found nothing tainted. -/
structure Whole (s : flow_state_t) (e : traced_t) : Prop where
  room : (s.executed e).Room 512
  zeroes : ∀ n, (s.executed e).Zeroes (.general n) → ∀ byte, ∀ q ∈ e.flow (.reg n byte), s.depends q = false
  writes : ∀ n, (s.executed e).Writes (.general n) → (s.executed e).dest_taint = false →
    ∀ byte, e.flow (.reg n byte) = [.reg n byte] → s.depends (.reg n byte) = false
  overlooked : ∀ p, e.flow p ≠ [p] → ∀ q ∈ e.flow p, e.op.Overlooks q → s.depends q = false

/-- The tracker has all registers and all memory that depend on tainted input. -/
structure flow_state_t.Covered (s : flow_state_t) : Prop where
  named : s.ctx.taint.Named
  reg : s.Sound
  mem : ∀ a, s.depends (.mem a) = true → s.ctx.taint.pages_ a = true

namespace taint_tracker_t

section

variable {t : taint_tracker_t} {dest_taint : Bool} {dests : List deferred_dest_t} {canonical : canonical_t}

private theorem reg_set_dest (d : deferred_dest_t) : (set_dest dest_taint t d).reg canonical =
    if canonical = d.canonical then (if d.zeroing then false else dest_taint) else t.reg canonical :=
  Function.update_apply _ _ _ _

/-- A destination that is not cleared is tainted. -/
theorem reg_set_all (hdest : t.reg canonical = true ∨ ∃ d ∈ dests, d.canonical = canonical)
    (htaint : ∀ d ∈ dests, d.canonical = canonical → d.zeroing = false ∧ dest_taint = true) :
    (set_all dest_taint t dests).reg canonical = true := by
  induction dests generalizing t with
  | nil => exact hdest.resolve_right (by simp)
  | cons d dests ih =>
    obtain ⟨hd, hdests⟩ := List.forall_mem_cons.mp htaint
    refine ih ?_ hdests
    rw [reg_set_dest]
    by_cases hsame : canonical = d.canonical
    · obtain ⟨hzeroing, rfl⟩ := hd hsame.symm
      simp [hsame, hzeroing]
    · rw [if_neg hsame]
      exact hdest.imp_right fun ⟨d', hd', hcanonical⟩ =>
        ⟨d', (List.mem_cons.mp hd').resolve_left fun h => hsame (h ▸ hcanonical.symm), hcanonical⟩

end

end taint_tracker_t

namespace run_ctx_t

/-- What accesses do to the tracker: they find taint, and spread it to the memory. -/
structure Grows (c c' : run_ctx_t) : Prop where
  cur_ : c'.taint.cur_ = c.taint.cur_
  reg_taint_ : c'.taint.reg_taint_ = c.taint.reg_taint_
  src_regs_tainted_ : c'.taint.src_regs_tainted_ = c.taint.src_regs_tainted_
  read_flag_ : c.taint.read_flag_ = true → c'.taint.read_flag_ = true
  pages_ : ∀ a, c.taint.pages_ a = true → c'.taint.pages_ a = true

section

variable {cap : Option Nat} {c c' c'' : run_ctx_t} {accesses : List access_t} {addr a : UInt64} {len : Nat}

private theorem Grows.refl : Grows c c := ⟨rfl, rfl, rfl, id, fun _ => id⟩

private theorem Grows.trans (h : Grows c c') (h' : Grows c' c'') : Grows c c'' where
  cur_ := h'.cur_.trans h.cur_
  reg_taint_ := h'.reg_taint_.trans h.reg_taint_
  src_regs_tainted_ := h'.src_regs_tainted_.trans h.src_regs_tainted_
  read_flag_ hflag := h'.read_flag_ (h.read_flag_ hflag)
  pages_ a ha := h'.pages_ a (h.pages_ a ha)

private theorem access_grows (x : access_t) : Grows c (c.access cap x) := by
  cases x with
  | read addr len =>
    rw [access_read]
    exact ⟨rfl, rfl, rfl, fun hflag => by simp [hflag], fun _ => id⟩
  | write addr len =>
    rw [access_write]
    cases c.taint.note_mem_write with
    | false => exact ⟨rfl, rfl, rfl, id, fun _ => id⟩
    | true => exact ⟨rfl, rfl, rfl, id, fun a ha => by simp [taint_tracker_t.with_log, mark_memory, ha]⟩

private theorem accesses_grow : Grows c (accesses.foldl (access cap) c) := by
  induction accesses generalizing c with
  | nil => exact .refl
  | cons x accesses ih => exact (access_grows x).trans ih

private theorem memory_any_of_page (ha : c.taint.pages_ a = true) (hrange : in_range addr len a = true) :
    c.taint.memory_any addr len = true := by
  refine List.any_eq_true.mpr ⟨(a - addr).toNat, ?_, ?_⟩
  · simpa [in_range] using hrange
  · have hsum : addr + (a - addr).toNat.toUInt64 = a := by
      rw [UInt64.add_comm]
      simp
    rwa [hsum]

/-- A read of a tainted byte is noticed. -/
theorem read_flag_of_read (hread : .read addr len ∈ accesses) (hrange : in_range addr len a = true)
    (ha : c.taint.pages_ a = true) : (accesses.foldl (access cap) c).taint.read_flag_ = true := by
  obtain ⟨before, after, rfl⟩ := List.append_of_mem hread
  rw [List.foldl_append, List.foldl_cons]
  have hbefore : Grows c (before.foldl (access cap) c) := accesses_grow
  refine (accesses_grow (c := access cap _ _)).read_flag_ ?_
  rw [access_read]
  simp [memory_any_of_page (hbefore.pages_ a ha) hrange]

/-- A store of tainted data is noticed. -/
theorem page_of_write (hrange : in_range addr len a = true) (htaint : c.taint.note_mem_write = true) :
    (c.access cap (.write addr len)).taint.pages_ a = true := by
  rw [access_write, htaint]
  simp [taint_tracker_t.with_log, mark_memory, hrange]

end

end run_ctx_t

section

variable {s s' : flow_state_t} {e : traced_t} {ip : UInt64} {text : String} {code : insn_t} {accesses : List access_t}

/-- What is executed up to its `boundary`. -/
theorem executed_grows (c : run_ctx_t) (op : emu_op_t) : (c.analyze op).Grows (c.execute event_cap op) :=
  run_ctx_t.accesses_grow

/-- Source registers that depend on tainted input are noticed. -/
theorem flow_state_t.Covered.src_regs_tainted (h : s.Covered) {n : Fin 16} {byte : Fin 8}
    (htakes : code.Takes accesses (.reg n byte)) (hdepends : s.depends (.reg n byte) = true) :
    (code.sources s.ctx.taint).src_regs_tainted = true := by
  obtain ⟨part, writes, hop, -⟩ := htakes
  refine List.any_eq_true.mpr ⟨_, hop, ?_⟩
  simpa [operand_t.source, taint_canonical_reg] using h.reg n byte hdepends

/-- Memory that depends on tainted input is noticed when it is read. -/
theorem flow_state_t.Covered.read_flag (h : s.Covered) {a : UInt64} (htakes : code.Takes accesses (.mem a))
    (hdepends : s.depends (.mem a) = true) (c : run_ctx_t) (hpages : c.taint.pages_ = s.ctx.taint.pages_) :
    (accesses.foldl (run_ctx_t.access event_cap) c).taint.read_flag_ = true := by
  obtain ⟨-, addr, len, hread, hrange⟩ := htakes
  refine run_ctx_t.read_flag_of_read hread hrange ?_
  rw [hpages]
  exact h.mem a hdepends

/-- An instruction that takes what depends on tainted input has tainted destinations. -/
theorem flow_state_t.Covered.dest_taint (h : s.Covered) {q : place_t} (htakes : code.Takes accesses q)
    (hdepends : s.depends q = true) :
    (s.ctx.execute event_cap (.insn ip text code accesses)).taint.dest_taint = true := by
  have hgrows := executed_grows s.ctx (.insn ip text code accesses)
  rw [taint_tracker_t.dest_taint, hgrows.src_regs_tainted_, hgrows.cur_]
  cases q with
  | reg n byte =>
    have hsource : (code.sources s.ctx.taint).src_regs_tainted = true := h.src_regs_tainted htakes hdepends
    exact Bool.or_eq_true_iff.mpr (Or.inl hsource)
  | mem a =>
    have hmemory : (code.sources s.ctx.taint).reads_memory = true := by
      obtain ⟨⟨base, index, writes, hop⟩, -⟩ := htakes
      exact List.any_eq_true.mpr ⟨_, hop, rfl⟩
    have hflag := h.read_flag htakes hdepends (s.ctx.analyze (.insn ip text code accesses)) rfl
    exact Bool.or_eq_true_iff.mpr (Or.inr (Bool.and_eq_true_iff.mpr ⟨hmemory, hflag⟩))

/-- A store of what depends on tainted input is noticed. -/
theorem flow_state_t.Covered.stores (h : s.Covered) {before after : List access_t} {addr a : UInt64} {len : Nat}
    {q : place_t} (hrange : in_range addr len a = true) (htakes : code.Takes before q) (hdepends : s.depends q = true) :
    (s.ctx.execute event_cap (.insn ip text code (before ++ .write addr len :: after))).taint.pages_ a = true := by
  rw [run_ctx_t.execute, emu_op_t.accesses, List.foldl_append, List.foldl_cons]
  refine run_ctx_t.accesses_grow.pages_ a (run_ctx_t.page_of_write hrange ?_)
  rw [note_mem_write]
  cases q with
  | reg n byte =>
    have hsource : (code.sources s.ctx.taint).src_regs_tainted = true := h.src_regs_tainted htakes hdepends
    rw [run_ctx_t.accesses_grow.src_regs_tainted_]
    exact Bool.or_eq_true_iff.mpr (Or.inr hsource)
  | mem a' => exact Bool.or_eq_true_iff.mpr (Or.inl (h.read_flag htakes hdepends _ rfl))

/-- The destinations are the registers that are written. -/
theorem writes_of_operand {n : Fin 16} {part : part_t} {reads : Bool}
    (hop : .reg (.general n part) reads true ∈ code.ops) :
    (s.ctx.execute event_cap (.insn ip text code accesses)).taint.Writes (.general n) := by
  have hgrows := executed_grows s.ctx (.insn ip text code accesses)
  rw [Writes, hgrows.cur_]
  refine ⟨_, List.mem_map_of_mem (List.mem_filterMap.mpr ⟨_, hop, rfl⟩), rfl⟩

/-- What a step leaves of the tracker. -/
theorem flow_state_t.Covered.stepped (h : s.Covered) (hroom : (s.executed e).Room 512) :
    ∃ events, (s.ctx.step event_cap e.op).taint = (s.executed e).settled.with_log events :=
  ⟨_, congrArg run_ctx_t.taint (run_ctx_t.step_room h.named fun _ hmost => Option.some.inj hmost ▸ hroom)⟩

/-- A register that data with taint gets into is not cleared. -/
theorem Whole.not_zeroed (hwhole : Whole s e) {n : Fin 16} {byte : Fin 8} {q : place_t} (hq : q ∈ e.flow (.reg n byte))
    (hdepends : s.depends q = true) : ∀ d ∈ (s.executed e).cur_.dests, d.canonical = .general n → d.zeroing = false := by
  intro d hd hcanonical
  refine Bool.eq_false_of_not_eq_true fun hzeroing => ?_
  have hclean := hwhole.zeroes n ⟨d, hd, hcanonical, hzeroing⟩ byte q hq
  rw [hclean] at hdepends
  cases hdepends

/-- Data with taint that is made from something else is made from what `hook_code` looks at. -/
theorem Whole.looked_at (hwhole : Whole s e) {p q : place_t} (hmoved : e.flow p ≠ [p]) (hq : q ∈ e.flow p)
    (hdepends : s.depends q = true) : ¬ e.op.Overlooks q := by
  intro hover
  rw [hwhole.overlooked p hmoved q hq hover] at hdepends
  cases hdepends

/-- A register keeps its taint when a byte with taint is left alone in it. -/
theorem flow_state_t.Covered.reg_alone (h : s.Covered) (hwhole : Whole s e) {n : Fin 16} {byte : Fin 8}
    (hsame : e.flow (.reg n byte) = [.reg n byte]) (hdepends : s.depends (.reg n byte) = true)
    (hregs : (s.ctx.analyze e.op).taint.reg_taint_ = s.ctx.taint.reg_taint_) :
    (s.executed e).settled.reg (.general n) = true := by
  have hself : .reg n byte ∈ e.flow (.reg n byte) := by simp [hsame]
  have htaint : (s.executed e).Writes (.general n) → (s.executed e).dest_taint = true := by
    intro hwrites
    refine Bool.eq_true_of_not_eq_false fun hclean => ?_
    rw [hwhole.writes n hwrites hclean byte hsame] at hdepends
    cases hdepends
  have hkept : (s.executed e).reg_taint_ = s.ctx.taint.reg_taint_ := (executed_grows s.ctx e.op).reg_taint_.trans hregs
  refine reg_set_all (Or.inl ?_) fun d hd hcanonical =>
    ⟨hwhole.not_zeroed hself hdepends d hd hcanonical, htaint ⟨d, hd, hcanonical⟩⟩
  exact (congrFun hkept _).trans (h.reg n byte hdepends)

/-- A register has the taint of its data behind an instruction. -/
theorem flow_state_t.Covered.reg_insn (h : s.Covered) (hop : e.op = .insn ip text code accesses) (hwhole : Whole s e)
    {n : Fin 16} {byte : Fin 8} {q : place_t} (hmakes : code.Makes accesses e.flow (.reg n byte))
    (hq : q ∈ e.flow (.reg n byte)) (hdepends : s.depends q = true) : (s.executed e).settled.reg (.general n) = true := by
  by_cases hsame : e.flow (.reg n byte) = [.reg n byte]
  · rw [hsame, List.mem_singleton] at hq
    subst hq
    exact h.reg_alone hwhole hsame hdepends (by rw [hop]; rfl)
  · obtain ⟨part, reads, hwrite, ⟨-, hnone⟩ | ⟨-, hreads⟩⟩ := hmakes.resolve_left hsame
    · rw [hnone] at hq
      cases hq
    · have hover := hwhole.looked_at hsame hq hdepends
      rw [hop] at hover
      have htakes : code.Takes accesses q := (hreads q hq).resolve_right hover
      have htaint : (s.executed e).dest_taint = true := by
        rw [flow_state_t.executed, hop]
        exact h.dest_taint htakes hdepends
      refine reg_set_all (Or.inr ?_) fun d hd hcanonical => ⟨hwhole.not_zeroed hq hdepends d hd hcanonical, htaint⟩
      rw [flow_state_t.executed, hop]
      exact writes_of_operand hwrite

/-- Memory with taint that is left alone keeps it. -/
theorem flow_state_t.Covered.mem_alone (h : s.Covered) {a : UInt64} {q : place_t} (hsame : e.flow (.mem a) = [.mem a])
    (hq : q ∈ e.flow (.mem a)) (hdepends : s.depends q = true)
    (hpages : (s.ctx.analyze e.op).taint.pages_ = s.ctx.taint.pages_) : (s.executed e).pages_ a = true := by
  rw [hsame, List.mem_singleton] at hq
  rw [hq] at hdepends
  refine (executed_grows s.ctx e.op).pages_ a ?_
  rw [hpages]
  exact h.mem a hdepends

/-- The memory has the taint of its data behind an instruction. -/
theorem flow_state_t.Covered.mem_insn (h : s.Covered) (hop : e.op = .insn ip text code accesses) (hwhole : Whole s e)
    {a : UInt64} {q : place_t} (hmakes : code.Makes accesses e.flow (.mem a)) (hq : q ∈ e.flow (.mem a))
    (hdepends : s.depends q = true) : (s.executed e).pages_ a = true := by
  by_cases hsame : e.flow (.mem a) = [.mem a]
  · exact h.mem_alone hsame hq hdepends (by rw [hop]; rfl)
  · obtain ⟨before, addr, len, after, haccesses, hrange, hreads⟩ := hmakes.resolve_left hsame
    have hover := hwhole.looked_at hsame hq hdepends
    rw [hop] at hover
    rw [flow_state_t.executed, hop, haccesses]
    exact h.stores hrange ((hreads q hq).resolve_right hover) hdepends

/-- An instruction that is not decoded leaves data with taint where it is. -/
theorem Whole.left_alone (hwhole : Whole s e) (hop : e.op = .undecoded ip text accesses) {p q : place_t}
    (hq : q ∈ e.flow p) (hdepends : s.depends q = true) : e.flow p = [p] := by
  by_contra hmoved
  have hover := hwhole.looked_at hmoved hq hdepends
  rw [hop] at hover
  exact hover trivial

/-- The stub of an import has no destinations but `rax`. -/
theorem executed_import {name : String} {sp : UInt64} (hop : e.op = .import ip name sp) (n : Fin 16) :
    (s.executed e).settled.reg (.general n) = if n = rax then false else s.ctx.taint.reg (.general n) := by
  have hgrows := executed_grows s.ctx e.op
  have hnone : (s.executed e).cur_.dests = [] := by
    rw [flow_state_t.executed, hgrows.cur_, hop]
    rfl
  have hregs : (s.executed e).reg_taint_ = Function.update s.ctx.taint.reg_taint_ (.general rax) false := by
    rw [flow_state_t.executed, hgrows.reg_taint_, hop]
    rfl
  have hsettled : (s.executed e).settled.reg (.general n) = (s.executed e).reg (.general n) := by
    rw [settled, hnone]
    rfl
  rw [hsettled, taint_tracker_t.reg, hregs, Function.update_apply]
  simp [taint_tracker_t.reg]

private theorem flow_state_t.Covered.reg_import (h : s.Covered) {name : String} {sp : UInt64} (hop : e.op = .import ip name sp)
    (hflows : (emu_op_t.import ip name sp).Flows e.flow) {n : Fin 16} {byte : Fin 8} {q : place_t}
    (hq : q ∈ e.flow (.reg n byte)) (hdepends : s.depends q = true) :
    (s.executed e).settled.reg (.general n) = true := by
  obtain ⟨hrax, hrsp, hothers⟩ := hflows
  rw [executed_import hop]
  by_cases hn : n = rax
  · rw [hn, hrax] at hq
    cases hq
  · rw [if_neg hn]
    by_cases hsp : n = rsp
    · rw [hsp] at hq
      obtain ⟨byte', rfl⟩ := hrsp byte q hq
      rw [hsp]
      exact h.reg rsp byte' hdepends
    · rw [hothers _ (by simp [hn, hsp]), List.mem_singleton] at hq
      rw [hq] at hdepends
      exact h.reg n byte hdepends

private theorem flow_state_t.Covered.mem_import (h : s.Covered) {name : String} {sp : UInt64} (hop : e.op = .import ip name sp)
    (hflows : (emu_op_t.import ip name sp).Flows e.flow) {a : UInt64} {q : place_t} (hq : q ∈ e.flow (.mem a))
    (hdepends : s.depends q = true) : (s.executed e).pages_ a = true := by
  exact h.mem_alone (hflows.2.2 _ (by simp)) hq hdepends (by rw [hop]; rfl)

private theorem flow_state_t.Covered.reg_step (h : s.Covered) (hwhole : Whole s e) {n : Fin 16} {byte : Fin 8} {q : place_t}
    (hq : q ∈ e.flow (.reg n byte)) (hdepends : s.depends q = true) :
    (s.executed e).settled.reg (.general n) = true := by
  have hflows := e.flows
  cases hop : e.op with
  | insn ip text code accesses =>
    rw [hop] at hflows
    exact h.reg_insn hop hwhole (hflows _) hq hdepends
  | undecoded ip text accesses =>
    have hsame : e.flow (.reg n byte) = [.reg n byte] := hwhole.left_alone hop hq hdepends
    rw [hsame, List.mem_singleton] at hq
    exact h.reg_alone hwhole hsame (hq ▸ hdepends) (by rw [hop]; rfl)
  | «import» ip name sp =>
    rw [hop] at hflows
    exact h.reg_import hop hflows hq hdepends
  | stop =>
    rw [hop] at hflows
    have hsame : e.flow (.reg n byte) = [.reg n byte] := hflows _
    rw [hsame, List.mem_singleton] at hq
    exact h.reg_alone hwhole hsame (hq ▸ hdepends) (by rw [hop]; rfl)

private theorem flow_state_t.Covered.mem_step (h : s.Covered) (hwhole : Whole s e) {a : UInt64} {q : place_t}
    (hq : q ∈ e.flow (.mem a)) (hdepends : s.depends q = true) : (s.executed e).pages_ a = true := by
  have hflows := e.flows
  cases hop : e.op with
  | insn ip text code accesses =>
    rw [hop] at hflows
    exact h.mem_insn hop hwhole (hflows _) hq hdepends
  | undecoded ip text accesses =>
    exact h.mem_alone (hwhole.left_alone hop hq hdepends) hq hdepends (by rw [hop]; rfl)
  | «import» ip name sp =>
    rw [hop] at hflows
    exact h.mem_import hop hflows hq hdepends
  | stop =>
    rw [hop] at hflows
    exact h.mem_alone (hflows _) hq hdepends (by rw [hop]; rfl)

private theorem flow_state_t.Covered.step (h : s.Covered) (hwhole : Whole s e) (hstep : s.step e = some s') : s'.Covered := by
  cases hstep
  obtain ⟨events, hsettled⟩ := h.stepped hwhole.room
  refine ⟨?_, ?_, ?_⟩
  · show (s.ctx.step event_cap e.op).taint.Named
    rw [hsettled]
    exact fun d hd => (run_ctx_t.execute_named h.named : (s.executed e).Named) d (by rwa [← settled_cur])
  · intro n byte hafter
    obtain ⟨q, hq, hdepends⟩ := List.any_eq_true.mp hafter
    show (s.ctx.step event_cap e.op).taint.reg (.general n) = true
    rw [hsettled]
    exact h.reg_step hwhole hq hdepends
  · intro a hafter
    obtain ⟨q, hq, hdepends⟩ := List.any_eq_true.mp hafter
    show (s.ctx.step event_cap e.op).taint.pages_ a = true
    rw [hsettled]
    exact (congrFun settled_pages a).trans (h.mem_step hwhole hq hdepends)

private theorem flow_state_t.Covered.start (taint_sources : List (UInt64 × Nat)) : (start taint_sources).Covered := by
  have hmarked : ∀ (t : taint_tracker_t) (a : UInt64),
      (taint_sources.foldl (fun t s => t.mark_memory s.1 s.2) t).pages_ a =
        (t.pages_ a || taint_sources.any fun s => in_range s.1 s.2 a) := by
    induction taint_sources with
    | nil => simp
    | cons s taint_sources ih =>
      intro t a
      rw [List.foldl_cons, ih]
      simp [mark_memory, Bool.or_assoc]
  refine ⟨(compared_t.Parallel.start taint_sources).named, fun n byte h => ?_, fun a ha => ?_⟩
  · cases h
  · exact (hmarked {} a).trans ((Bool.false_or _).trans ha)

/-- A register of which a byte depends on tainted input is reported, as long as what an instruction leaves of a
register that it gives clean data depends on nothing tainted. -/
theorem taint_sound {taint_sources : List (UInt64 × Nat)}
    (hreach : Relation.ReflTransGen (Transition.Step Whole flow_state_t.step) (.start taint_sources) s) : s.Sound :=
  (Transition.invariant (flow_state_t.Covered.start taint_sources) (fun _ _ _ h hwhole hstep => h.step hwhole hstep)
    hreach).reg

end

/-- `load` puts the memory into `rax`. -/
def traced_load : traced_t where
  op := load
  flow
    | .reg n byte => if n = rax then [.mem (0x1000 + byte.val.toUInt64)] else [.reg n byte]
    | .mem a => [.mem a]
  flows
    | .reg n byte => by
      by_cases hn : n = rax
      · refine Or.inr ⟨.full, false, by simp [hn], Or.inr ⟨rfl, ?_⟩⟩
        simp only [hn, if_true, List.mem_singleton, forall_eq]
        refine Or.inl ⟨⟨.other, .other, false, by simp⟩, 0x1000, 8, by simp, ?_⟩
        revert byte
        decide
      · exact Or.inl (if_neg hn)
    | .mem a => Or.inl rfl

def rcx : Fin 16 := ⟨1, by decide⟩

def rbx : Fin 16 := ⟨3, by decide⟩

/-- `mov rcx, rax`. -/
def traced_copy : traced_t where
  op := .insn 7 "mov rcx, rax"
    { visible := 2, ops := [.reg (.general rcx .full) false true, .reg (.general rax .full) true false] } []
  flow
    | .reg n byte => if n = rcx then [.reg rax byte] else [.reg n byte]
    | .mem a => [.mem a]
  flows
    | .reg n byte => by
      by_cases hn : n = rcx
      · refine Or.inr ⟨.full, false, by simp [hn], Or.inr ⟨rfl, ?_⟩⟩
        simp only [hn, if_true, List.mem_singleton, forall_eq]
        exact Or.inl ⟨.full, false, by simp, rfl⟩
      · exact Or.inl (if_neg hn)
    | .mem a => Or.inl rfl

/-- `mov al, bl`. -/
def traced_overwrite : traced_t where
  op := .insn 7 "mov al, bl"
    { visible := 2, ops := [.reg (.general rax .low8) false true, .reg (.general rbx .low8) true false] } []
  flow
    | .reg n byte => if n = rax ∧ byte = 0 then [.reg rbx 0] else [.reg n byte]
    | .mem a => [.mem a]
  flows
    | .reg n byte => by
      by_cases hn : n = rax ∧ byte = 0
      · refine Or.inr ⟨.low8, false, by simp [hn], Or.inr ⟨by simp [hn, part_t.has], ?_⟩⟩
        simp only [hn, and_self, if_true, List.mem_singleton, forall_eq]
        exact Or.inl ⟨.low8, false, by simp, rfl⟩
      · exact Or.inl (if_neg hn)
    | .mem a => Or.inl rfl

/-- `lea rdx, [r]`. -/
def traced_lea (r : Fin 16) : traced_t where
  op := .insn 10 "lea rdx"
    { visible := 2
      ops := [.reg (.general rdx .full) false true, .mem true (.general r .full) .other true false] } []
  flow
    | .reg n byte => if n = rdx then [.reg r byte] else [.reg n byte]
    | .mem a => [.mem a]
  flows
    | .reg n byte => by
      by_cases hn : n = rdx
      · refine Or.inr ⟨.full, false, by simp [hn], Or.inr ⟨rfl, ?_⟩⟩
        simp only [hn, if_true, List.mem_singleton, forall_eq]
        exact Or.inr ⟨.general r .full, .other, true, false, .full, by simp, Or.inl rfl, rfl⟩
      · exact Or.inl (if_neg hn)
    | .mem a => Or.inl rfl

/-- The emulator has come to where it is to stop. -/
def traced_stop : traced_t := ⟨.stop, fun p => [p], fun _ => rfl⟩

/-- The state behind a step. -/
def flow_state_t.after (s : flow_state_t) (e : traced_t) : flow_state_t :=
  ⟨s.ctx.step event_cap e.op, fun p => (e.flow p).any s.depends⟩

section

variable {s : flow_state_t} {e : traced_t}

/-- Without an address operand there is nothing to overlook. -/
private theorem insn_t.not_addresses {code : insn_t} (hops : ∀ base index reads writes, .mem true base index reads writes ∉ code.ops)
    (q : place_t) : ¬ code.Addresses q := by
  cases q with
  | reg n byte =>
    rintro ⟨base, index, reads, writes, part, hop, -⟩
    exact hops base index reads writes hop
  | mem a => exact id

/-- An instruction that takes what is tainted and clears nothing. -/
private theorem Whole.of_tainted (hroom : (s.executed e).Room 512)
    (hzeroing : ∀ d ∈ (s.executed e).cur_.dests, d.zeroing = false) (htaint : (s.executed e).dest_taint = true)
    (hlooked : ∀ q, ¬ e.op.Overlooks q) : Whole s e := by
  refine ⟨hroom, ?_, ?_, fun p _ q _ hover => absurd hover (hlooked q)⟩
  · rintro n ⟨d, hd, -, hzero⟩
    rw [hzeroing d hd] at hzero
    cases hzero
  · intro n _ hclean
    rw [hclean] at htaint
    cases htaint

/-- Destinations of which nothing depends on tainted input. -/
private theorem Whole.of_clean (hroom : (s.executed e).Room 512)
    (hzeroing : ∀ d ∈ (s.executed e).cur_.dests, d.zeroing = false)
    (hdests : ∀ d ∈ (s.executed e).cur_.dests, ∀ n byte, d.canonical = .general n → s.depends (.reg n byte) = false)
    (hlooked : ∀ p, e.flow p ≠ [p] → ∀ q ∈ e.flow p, s.depends q = false) : Whole s e := by
  refine ⟨hroom, ?_, ?_, fun p hmoved q hq _ => hlooked p hmoved q hq⟩
  · rintro n ⟨d, hd, -, hzero⟩
    rw [hzeroing d hd] at hzero
    cases hzero
  · rintro n ⟨d, hd, hcanonical⟩ - byte -
    exact hdests d hd n byte hcanonical

end

/-- The taint of a copy, behind an address and a stop. -/
theorem copy_is_tainted : ∃ s : flow_state_t, s.depends (.reg rcx 3) = true ∧ s.Sound := by
  have hload : Whole (.start [(0x1000, 8)]) traced_load :=
    .of_tainted (Or.inr (Or.inl (by decide))) (by decide) (by decide) (insn_t.not_addresses (by simp))
  have hcopy : Whole ((flow_state_t.start [(0x1000, 8)]).after traced_load) traced_copy :=
    .of_tainted (Or.inr (Or.inl (by decide))) (by decide) (by decide) (insn_t.not_addresses (by simp))
  have hlea : Whole (((flow_state_t.start [(0x1000, 8)]).after traced_load).after traced_copy) (traced_lea rsp) := by
    refine .of_clean (Or.inl (by decide)) (by decide) (by decide) ?_
    rintro (⟨n, byte⟩ | a) hmoved q hq
    · by_cases hn : n = rdx
      · simp only [traced_lea, hn, if_true, List.mem_singleton] at hq
        subst hq
        clear hmoved
        revert byte
        decide
      · exact absurd (if_neg hn) hmoved
    · exact absurd rfl hmoved
  have hstop : Whole ((((flow_state_t.start [(0x1000, 8)]).after traced_load).after traced_copy).after (traced_lea rsp))
      traced_stop :=
    .of_clean (Or.inl (by decide)) (by decide) (by decide) fun p hmoved => absurd rfl hmoved
  have hreach : Relation.ReflTransGen (Transition.Step Whole flow_state_t.step) (.start [(0x1000, 8)]) _ :=
    .head ⟨traced_load, hload, rfl⟩ <| .head ⟨traced_copy, hcopy, rfl⟩ <| .head ⟨traced_lea rsp, hlea, rfl⟩ <|
      .head ⟨traced_stop, hstop, rfl⟩ .refl
  exact ⟨_, by decide, taint_sound hreach⟩

/-- What a load has brought is hidden by an overwritten byte, or goes where it is not looked for, or is lost when the
emulator stops and the destination gets its taint again. -/
theorem load_is_hidden : ∀ e ∈ [traced_overwrite, traced_lea rax, traced_stop],
    ¬ (((flow_state_t.start [(0x1000, 8)]).after traced_load).after e).Sound := by
  have hoverwrite : ¬ (((flow_state_t.start [(0x1000, 8)]).after traced_load).after traced_overwrite).Sound :=
    fun hsound => absurd (hsound rax 1 (by decide)) (by decide)
  have hlea : ¬ (((flow_state_t.start [(0x1000, 8)]).after traced_load).after (traced_lea rax)).Sound :=
    fun hsound => absurd (hsound rdx 1 (by decide)) (by decide)
  have hstop : ¬ (((flow_state_t.start [(0x1000, 8)]).after traced_load).after traced_stop).Sound :=
    fun hsound => absurd (hsound rax 1 (by decide)) (by decide)
  simp [hoverwrite, hlea, hstop]

/-- The other bytes of `rax` are still those of the memory, and the tracker has `rax` as clean. -/
theorem low_byte_hides_taint :
    ¬ ∀ (taint_sources : List (UInt64 × Nat)) (s : flow_state_t),
      Relation.ReflTransGen (Transition.Step (fun _ _ => True) flow_state_t.step) (.start taint_sources) s → s.Sound := by
  intro hlaw
  have hreach : Relation.ReflTransGen (Transition.Step (fun _ _ => True) flow_state_t.step) (.start [(0x1000, 8)]) _ :=
    .head ⟨traced_load, trivial, rfl⟩ <| .head ⟨traced_overwrite, trivial, rfl⟩ .refl
  exact load_is_hidden traced_overwrite List.mem_cons_self (hlaw _ _ hreach)

end slop.core.emu
