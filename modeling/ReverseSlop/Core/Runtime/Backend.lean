import Mathlib.Data.List.Basic

namespace slop.core.runtime

structure thread_context_t where
  rip : UInt64 := 0
  rsp : UInt64 := 0
  rbp : UInt64 := 0
  rax : UInt64 := 0
  rbx : UInt64 := 0
  rcx : UInt64 := 0
  rdx : UInt64 := 0
  rsi : UInt64 := 0
  rdi : UInt64 := 0
  r8 : UInt64 := 0
  r9 : UInt64 := 0
  r10 : UInt64 := 0
  r11 : UInt64 := 0
  r12 : UInt64 := 0
  r13 : UInt64 := 0
  r14 : UInt64 := 0
  r15 : UInt64 := 0
  flags : UInt64 := 0
  deriving DecidableEq

/-- A pointer to a member of `thread_context_t`. -/
inductive reg_ptr_t where
  | rip | rsp | rbp | rax | rbx | rcx | rdx | rsi | rdi | r8 | r9 | r10 | r11 | r12 | r13 | r14 | r15 | flags
  deriving DecidableEq

def thread_context_t.get (ctx : thread_context_t) : reg_ptr_t → UInt64
  | .rip => ctx.rip
  | .rsp => ctx.rsp
  | .rbp => ctx.rbp
  | .rax => ctx.rax
  | .rbx => ctx.rbx
  | .rcx => ctx.rcx
  | .rdx => ctx.rdx
  | .rsi => ctx.rsi
  | .rdi => ctx.rdi
  | .r8 => ctx.r8
  | .r9 => ctx.r9
  | .r10 => ctx.r10
  | .r11 => ctx.r11
  | .r12 => ctx.r12
  | .r13 => ctx.r13
  | .r14 => ctx.r14
  | .r15 => ctx.r15
  | .flags => ctx.flags

def thread_context_t.set (ctx : thread_context_t) (v : UInt64) : reg_ptr_t → thread_context_t
  | .rip => { ctx with rip := v }
  | .rsp => { ctx with rsp := v }
  | .rbp => { ctx with rbp := v }
  | .rax => { ctx with rax := v }
  | .rbx => { ctx with rbx := v }
  | .rcx => { ctx with rcx := v }
  | .rdx => { ctx with rdx := v }
  | .rsi => { ctx with rsi := v }
  | .rdi => { ctx with rdi := v }
  | .r8 => { ctx with r8 := v }
  | .r9 => { ctx with r9 := v }
  | .r10 => { ctx with r10 := v }
  | .r11 => { ctx with r11 := v }
  | .r12 => { ctx with r12 := v }
  | .r13 => { ctx with r13 := v }
  | .r14 => { ctx with r14 := v }
  | .r15 => { ctx with r15 := v }
  | .flags => { ctx with flags := v }

def kTrapFlag : UInt64 := 0x100

/-- What the debugger reaches of a target: its bytes, the protection of each
4 KiB page and the registers of its threads. -/
structure target_t where
  mem : UInt64 → UInt8
  prot : Nat → UInt32
  threads : UInt32 → thread_context_t

/-- Which operations of the backend succeed. -/
structure backend_t where
  read_ok : UInt64 → Nat → Bool
  write_ok : UInt64 → Bool
  protect_ok : UInt64 → UInt64 → UInt32 → Bool
  get_context_ok : UInt32 → Bool
  set_context_ok : UInt32 → Bool
  /-- There is a driver behind the backend, and it takes the debug registers. -/
  set_hw_ok : Bool

/-- Every read, every write and every change of protection succeeds. -/
structure backend_t.MemoryWorks (io : backend_t) : Prop where
  read : ∀ addr len, io.read_ok addr len = true
  write : ∀ addr, io.write_ok addr = true
  protect : ∀ addr len prot, io.protect_ok addr len prot = true

def page_of (addr : UInt64) : Nat := addr.toNat / 4096

/-- The page holds a byte of `[addr, addr + len)`. -/
def touches (addr len : UInt64) (page : Nat) : Prop :=
  0 < len.toNat ∧ page_of addr ≤ page ∧ page * 4096 < addr.toNat + len.toNat

instance (addr len : UInt64) (page : Nat) : Decidable (touches addr len page) :=
  inferInstanceAs (Decidable (_ ∧ _ ∧ _))

def backend_t.read_byte (io : backend_t) (t : target_t) (addr : UInt64) : Option UInt8 :=
  if io.read_ok addr 1 then some (t.mem addr) else none

def backend_t.read_memory (io : backend_t) (t : target_t) (addr : UInt64) (len : Nat) : Option (List UInt8) :=
  if io.read_ok addr len then some ((List.range len).map fun k => t.mem (addr + UInt64.ofNat k)) else none

def target_t.poke (t : target_t) (addr : UInt64) (val : UInt8) : target_t :=
  { t with mem := fun a => if a = addr then val else t.mem a }

def backend_t.write_memory (io : backend_t) (t : target_t) (addr : UInt64) (val : UInt8) : Option target_t :=
  if io.write_ok addr then some (t.poke addr val) else none

/-- The protection of every page touched changes; the previous one is that of the
first page. -/
def backend_t.protect_memory (io : backend_t) (t : target_t) (addr len : UInt64) (prot : UInt32) :
    Option (target_t × UInt32) :=
  if io.protect_ok addr len prot then
    some ({ t with prot := fun page => if touches addr len page then prot else t.prot page }, t.prot (page_of addr))
  else none

def backend_t.get_thread_context (io : backend_t) (t : target_t) (tid : UInt32) : Option thread_context_t :=
  if io.get_context_ok tid then some (t.threads tid) else none

def target_t.set_thread (t : target_t) (tid : UInt32) (ctx : thread_context_t) : target_t :=
  { t with threads := fun other => if other = tid then ctx else t.threads other }

def backend_t.set_thread_context (io : backend_t) (t : target_t) (tid : UInt32) (ctx : thread_context_t) :
    Option target_t :=
  if io.set_context_ok tid then some (t.set_thread tid ctx) else none

theorem target_t.mem_poke (t : target_t) (addr a : UInt64) (val : UInt8) :
    (t.poke addr val).mem a = if a = addr then val else t.mem a := rfl

@[simp] theorem target_t.set_thread_self (t : target_t) (tid : UInt32) (ctx : thread_context_t) :
    (t.set_thread tid ctx).threads tid = ctx := if_pos rfl

end slop.core.runtime
