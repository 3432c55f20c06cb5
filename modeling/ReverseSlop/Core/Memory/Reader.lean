import Mathlib.Data.List.Basic
import Mathlib.Data.List.Range

namespace slop.core.memory

/-- The scan engine's reader. The target keeps running while it is scanned, so
the answer to a read may differ from request to request: `read n addr len` is
the answer to the `n`-th request of one thread. Partial reads never happen. -/
structure reader_t where
  read : Nat → Nat → Nat → Option (List UInt8)
  read_length : ∀ {n addr len : Nat} {bytes : List UInt8},
    read n addr len = some bytes → bytes.length = len

/-- The flag as one thread sees it: `cancelled n` is its `n`-th poll. -/
structure cancel_token_t where
  cancelled : Nat → Bool

/-- A token that nobody cancels. -/
def idle : cancel_token_t := ⟨fun _ => false⟩

theorem idle_live (n : Nat) : idle.cancelled n = false := rfl

/-- A memory that does not change, with `none` at every unreadable address. -/
abbrev memory_t := Nat → Option UInt8

def memory_t.read (mem : memory_t) : Nat → Nat → Option (List UInt8)
  | _, 0 => some []
  | addr, len + 1 => do
    let byte ← mem addr
    let rest ← memory_t.read mem (addr + 1) len
    some (byte :: rest)

/-- The byte at an address, zero when the address is unreadable. -/
def memory_t.peek (mem : memory_t) (addr : Nat) : UInt8 := (mem addr).getD 0

def memory_t.bytes_at (mem : memory_t) (addr len : Nat) : List UInt8 :=
  (List.range' addr len).map mem.peek

@[simp] theorem memory_t.length_bytes_at (mem : memory_t) (addr len : Nat) :
    (mem.bytes_at addr len).length = len := by
  simp [bytes_at]

theorem memory_t.bytes_at_add (mem : memory_t) (addr first second : Nat) :
    mem.bytes_at addr (first + second) = mem.bytes_at addr first ++ mem.bytes_at (addr + first) second := by
  simp [bytes_at, List.range'_append_1, ← List.map_append]

theorem memory_t.drop_bytes_at (mem : memory_t) {addr len skip : Nat} (hskip : skip ≤ len) :
    (mem.bytes_at addr len).drop skip = mem.bytes_at (addr + skip) (len - skip) := by
  have hlen : len = skip + (len - skip) := by omega
  have hfirst : (mem.bytes_at addr skip).length = skip := mem.length_bytes_at addr skip
  conv_lhs => rw [hlen, mem.bytes_at_add]
  exact List.drop_left' hfirst

theorem memory_t.take_bytes_at (mem : memory_t) {addr len count : Nat} (hcount : count ≤ len) :
    (mem.bytes_at addr len).take count = mem.bytes_at addr count := by
  have hlen : len = count + (len - count) := by omega
  have hfirst : (mem.bytes_at addr count).length = count := mem.length_bytes_at addr count
  conv_lhs => rw [hlen, mem.bytes_at_add]
  exact List.take_left' hfirst

/-- A read succeeds exactly when every byte of the range is readable, and then
returns those bytes. -/
theorem memory_t.read_eq_bytes_at (mem : memory_t) {addr len : Nat}
    (hreadable : ∀ a, addr ≤ a → a < addr + len → (mem a).isSome) :
    mem.read addr len = some (mem.bytes_at addr len) := by
  induction len generalizing addr with
  | zero => rfl
  | succ len ih =>
    obtain ⟨byte, hbyte⟩ := Option.isSome_iff_exists.mp (hreadable addr (by omega) (by omega))
    have hrest : mem.read (addr + 1) len = some (mem.bytes_at (addr + 1) len) :=
      ih fun a hlo hhi => hreadable a (by omega) (by omega)
    simp [memory_t.read, hbyte, hrest, bytes_at, List.range'_succ, peek]

theorem memory_t.read_length (mem : memory_t) {addr len : Nat} {bytes : List UInt8}
    (hread : mem.read addr len = some bytes) : bytes.length = len := by
  induction len generalizing addr bytes with
  | zero =>
    cases hread
    rfl
  | succ len ih =>
    simp only [memory_t.read, Option.bind_eq_bind, Option.bind_eq_some_iff, Option.some.injEq] at hread
    obtain ⟨byte, _, rest, hrest, rfl⟩ := hread
    simp [ih hrest]

/-- The reader of a memory that stands still. -/
def memory_t.reader (mem : memory_t) : reader_t where
  read _ addr len := mem.read addr len
  read_length hread := mem.read_length hread

/-- One past the last user-mode address. -/
def user_space_end : Nat := 0x800000000000

/-- A region of the target. Both enumerators stop at the end of user space, and
so does every region cut out of an enumerated one. -/
structure scan_region_t where
  base : Nat := 0
  size : Nat := 0
  protect : BitVec 32 := 0
  type : BitVec 32 := 0
  in_user_space : base + size ≤ user_space_end

/-- Every byte of every region can be read. -/
def memory_t.Readable (mem : memory_t) (regions : List scan_region_t) : Prop :=
  ∀ reg ∈ regions, ∀ a, reg.base ≤ a → a < reg.base + reg.size → (mem a).isSome

/-- `[a, a + len)` lies inside the region. -/
def scan_region_t.Holds (reg : scan_region_t) (a len : Nat) : Prop :=
  reg.base ≤ a ∧ a + len ≤ reg.base + reg.size

instance (reg : scan_region_t) (a len : Nat) : Decidable (reg.Holds a len) :=
  inferInstanceAs (Decidable (_ ∧ _))

/-- A readable memory that holds some bytes at an address. -/
def planted (addr : Nat) (bytes : List UInt8) : memory_t :=
  fun a => some (if addr ≤ a then bytes.getD (a - addr) 0 else 0)

theorem planted_readable (addr : Nat) (bytes : List UInt8) (regions : List scan_region_t) :
    (planted addr bytes).Readable regions := by
  intro reg _ a _ _
  rfl

theorem planted_bytes_at (addr : Nat) (bytes : List UInt8) :
    (planted addr bytes).bytes_at addr bytes.length = bytes := by
  apply List.ext_getElem (by simp)
  intro i hi hi'
  simp [memory_t.bytes_at, memory_t.peek, planted, hi']

end slop.core.memory
