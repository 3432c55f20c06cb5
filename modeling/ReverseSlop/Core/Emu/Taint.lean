import Mathlib.Logic.Function.Basic
import ReverseSlop.Library.Numeral
import ReverseSlop.Library.Transition

namespace slop.core.emu

/-- The part of a general register that a register names. -/
inductive part_t where
  | low8 | high8 | low16 | low32 | full
  deriving DecidableEq

/-- A register of an operand. The registers that are not tracked are all one. -/
inductive register_t where
  | general (n : Fin 16) (part : part_t)
  | flags
  | other
  deriving DecidableEq

inductive canonical_t where
  | general (n : Fin 16)
  | rflags
  deriving DecidableEq

def taint_canonical_reg : register_t → Option canonical_t
  | .general n _ => some (.general n)
  | .flags => some .rflags
  | .other => none

def rax : Fin 16 := 0

def display_name : canonical_t → String
  | .general n => ["rax", "rcx", "rdx", "rbx", "rsp", "rbp", "rsi", "rdi", "r8", "r9", "r10", "r11", "r12", "r13", "r14",
      "r15"].get n
  | .rflags => "rflags"

structure taint_event_t where
  ip : UInt64
  insn : String
  kind : String
  target : String

structure deferred_dest_t where
  canonical : canonical_t
  zeroing : Bool := false
  name : String

structure insn_sources_t where
  src_regs_tainted : Bool := false
  reads_memory : Bool := false
  dests : List deferred_dest_t := []

/-- The tracker. `pages_` has the bits of the pages. -/
structure taint_tracker_t where
  pages_ : UInt64 → Bool := fun _ => false
  reg_taint_ : canonical_t → Bool := fun _ => false
  read_flag_ : Bool := false
  src_regs_tainted_ : Bool := false
  cur_ : insn_sources_t := {}
  cur_ip_ : UInt64 := 0
  cur_text_ : String := ""
  events_ : List taint_event_t := []

/-- The most events that are recorded, if there is a limit. -/
def event_cap : Option Nat := some 512

/-- A log has reached its limit. -/
def full (cap : Option Nat) (events : List taint_event_t) : Bool := cap.any fun most => events.length ≥ most

/-- An address is one of `len` from `addr` on. -/
def in_range (addr : UInt64) (len : Nat) (a : UInt64) : Bool := (a - addr).toNat < len

namespace taint_tracker_t

variable (cap : Option Nat) (t : taint_tracker_t)

def mark_memory (addr : UInt64) (len : Nat) : taint_tracker_t :=
  { t with pages_ := fun a => t.pages_ a || in_range addr len a }

def memory_any (addr : UInt64) (len : Nat) : Bool := (List.range len).any fun i => t.pages_ (addr + i.toUInt64)

def set_reg (canonical : canonical_t) (tainted : Bool) : taint_tracker_t :=
  { t with reg_taint_ := Function.update t.reg_taint_ canonical tainted }

def reg (canonical : canonical_t) : Bool := t.reg_taint_ canonical

/-- Give the destinations of an instruction their taint, and say whether the loop was left at the cap. -/
def resolve (dest_taint : Bool) (t : taint_tracker_t) : List deferred_dest_t → taint_tracker_t × Bool
  | [] => (t, false)
  | d :: dests =>
    let value := if d.zeroing then false else dest_taint
    let prev := t.reg d.canonical
    let t := t.set_reg d.canonical value
    if value && !prev && d.name ≠ "" then
      let t := { t with events_ := t.events_ ++ [⟨t.cur_ip_, t.cur_text_, "reg", d.name⟩] }
      if full cap t.events_ then (t, true) else resolve dest_taint t dests
    else resolve dest_taint t dests

def dest_taint : Bool := t.src_regs_tainted_ || (t.cur_.reads_memory && t.read_flag_)

def boundary : taint_tracker_t :=
  match resolve cap t.dest_taint t t.cur_.dests with
  | (t, true) => t
  | (t, false) => { t with read_flag_ := false }

def analyze (ip : UInt64) (text : String) (src : insn_sources_t) : taint_tracker_t :=
  { t with cur_ip_ := ip, cur_text_ := text, cur_ := src, src_regs_tainted_ := src.src_regs_tainted }

def note_mem_read (addr : UInt64) (len : Nat) : taint_tracker_t :=
  if t.memory_any addr len then { t with read_flag_ := true } else t

/-- Whether a store is tainted. -/
def note_mem_write : Bool := t.read_flag_ || t.src_regs_tainted_

def record_event (e : taint_event_t) : taint_tracker_t :=
  if full cap t.events_ then t else { t with events_ := t.events_ ++ [e] }

end taint_tracker_t

/-- An operand, explicit or not, and what the instruction does to it. -/
inductive operand_t where
  | reg (r : register_t) (reads writes : Bool)
  /-- Memory, with the base and the index of its address, `other` for none. Of an operand of `lea`
  (`agen`) the address is all that is taken. -/
  | mem (agen : Bool) (base index : register_t) (reads writes : Bool)
  | imm

/-- A decoded instruction: whether it is a XOR or a SUB, how many of its operands are visible, and all of them. -/
structure insn_t where
  xor_sub : Bool := false
  visible : Nat
  ops : List operand_t

def operand_t.source (t : taint_tracker_t) : operand_t → Bool
  | .reg r true _ => (taint_canonical_reg r).any t.reg
  | _ => false

def operand_t.reads_memory : operand_t → Bool
  | .mem _ _ _ true _ => true
  | _ => false

def operand_t.dest : operand_t → Option canonical_t
  | .reg r _ true => taint_canonical_reg r
  | _ => none

/-- The register that a XOR or a SUB of two registers is taken to clear. -/
def insn_t.zeroing (insn : insn_t) : Option canonical_t :=
  match insn.ops with
  | .reg r _ _ :: .reg r' _ _ :: _ =>
    if insn.xor_sub ∧ insn.visible = 2 ∧ taint_canonical_reg r = taint_canonical_reg r' then taint_canonical_reg r else none
  | _ => none

/-- What `hook_code` makes of the operands. -/
def insn_t.sources (insn : insn_t) (t : taint_tracker_t) : insn_sources_t where
  src_regs_tainted := insn.ops.any (operand_t.source t)
  reads_memory := insn.ops.any operand_t.reads_memory
  dests := (insn.ops.filterMap operand_t.dest).map fun canonical =>
    { canonical, zeroing := insn.zeroing = some canonical, name := display_name canonical }

/-- An access to memory while an instruction executes. -/
inductive access_t where
  | read (addr : UInt64) (len : Nat)
  | write (addr : UInt64) (len : Nat)

/-- `mem %llX`. -/
def mem_text (addr : UInt64) : String :=
  "mem " ++ Numeral.text (Numeral.print 16 addr.toNat)

/-- The session as far as its taint goes. -/
structure run_ctx_t where
  taint : taint_tracker_t
  cur_ip : UInt64 := 0
  cur_text : String := ""
  last_event_ip : UInt64 := 0

/-- What is executed: an instruction, one that is not decoded, or the stub of an import, which returns a
constant and pops its return address; and where the emulator is stopped before an instruction. -/
inductive emu_op_t where
  | insn (ip : UInt64) (text : String) (insn : insn_t) (accesses : List access_t)
  | undecoded (ip : UInt64) (text : String) (accesses : List access_t)
  | import (ip : UInt64) (name : String) (rsp : UInt64)
  | stop

def emu_op_t.accesses : emu_op_t → List access_t
  | .insn _ _ _ accesses | .undecoded _ _ accesses => accesses
  | .import _ _ rsp => [.read rsp 8]
  | .stop => []

namespace run_ctx_t

variable (cap : Option Nat) (c : run_ctx_t)

def boundary : run_ctx_t := { c with taint := c.taint.boundary cap }

def on_import (ip : UInt64) (name : String) : run_ctx_t :=
  { c with
    cur_ip := ip
    cur_text := "api " ++ name
    taint := (c.taint.set_reg (.general rax) false).analyze ip ("api " ++ name) {} }

/-- `hook_code` behind its call of `boundary`. It returns without an `analyze` when it stops the emulator or cannot
decode the instruction, and the destinations of the one before get their taint again. -/
def analyze : emu_op_t → run_ctx_t
  | .insn ip text insn _ =>
    { c with cur_ip := ip, cur_text := text, taint := c.taint.analyze ip text (insn.sources c.taint) }
  | .undecoded ip text _ => { c with cur_ip := ip, cur_text := text }
  | .import ip name _ => c.on_import ip name
  | .stop => c

def hook_code (op : emu_op_t) : run_ctx_t := (c.boundary cap).analyze op

def hook_mem_read (addr : UInt64) (len : Nat) : run_ctx_t := { c with taint := c.taint.note_mem_read addr len }

def hook_mem_write (addr : UInt64) (len : Nat) : run_ctx_t :=
  if c.taint.note_mem_write then
    let taint := c.taint.mark_memory addr len
    if c.cur_ip ≠ c.last_event_ip then
      { c with
        taint := taint.record_event cap ⟨c.cur_ip, c.cur_text, "mem", mem_text addr⟩, last_event_ip := c.cur_ip }
    else { c with taint }
  else c

def access : access_t → run_ctx_t
  | .read addr len => c.hook_mem_read addr len
  | .write addr len => c.hook_mem_write cap addr len

/-- From the `boundary` of one call of `hook_code` to that of the next one. -/
def step (op : emu_op_t) : run_ctx_t := (op.accesses.foldl (access cap) (c.analyze op)).boundary cap

end run_ctx_t

/-- A run begins with the memory that is given as tainted. -/
def run_ctx_t.start (taint_sources : List (UInt64 × Nat)) : run_ctx_t where
  taint := taint_sources.foldl (fun t s => t.mark_memory s.1 s.2) {}

/-- The hooks of some instructions and the final `boundary` are these steps. -/
theorem hooks_eq_steps (cap : Option Nat) (c : run_ctx_t) (ops : List emu_op_t) :
    (ops.foldl (fun c op => op.accesses.foldl (run_ctx_t.access cap) (c.hook_code cap op)) c).boundary cap =
      ops.foldl (run_ctx_t.step cap) (c.boundary cap) := by
  induction ops generalizing c with
  | nil => rfl
  | cons op ops ih => exact ih _

end slop.core.emu
