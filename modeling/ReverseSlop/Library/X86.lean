import Mathlib.Data.List.Basic

namespace X86

structure Flags where
  zf : Bool
  sf : Bool
  cf : Bool
  of : Bool
  pf : Bool

/-- The condition codes in the order of their encodings. -/
inductive Cc where
  | o | no | b | ae | e | ne | be | a | s | ns | p | np | l | ge | le | g
  deriving DecidableEq

def Cc.holds (cc : Cc) (f : Flags) : Bool :=
  match cc with
  | .o => f.of
  | .no => !f.of
  | .b => f.cf
  | .ae => !f.cf
  | .e => f.zf
  | .ne => !f.zf
  | .be => f.cf || f.zf
  | .a => !(f.cf || f.zf)
  | .s => f.sf
  | .ns => !f.sf
  | .p => f.pf
  | .np => !f.pf
  | .l => f.sf != f.of
  | .ge => f.sf == f.of
  | .le => f.zf || (f.sf != f.of)
  | .g => !(f.zf || (f.sf != f.of))

def Cc.all : List Cc := [.o, .no, .b, .ae, .e, .ne, .be, .a, .s, .ns, .p, .np, .l, .ge, .le, .g]

/-- The condition in the low four bits of an opcode. -/
def Cc.of_opcode (op : UInt8) : Cc := Cc.all.getD (op &&& 0x0F).toNat .o

/-- The flags behind `xor r, r`. -/
def xor_flags : Flags := { zf := true, sf := false, cf := false, of := false, pf := true }

/-- The parity of the low byte. -/
def parity {w : Nat} (value : BitVec w) : Bool := (List.range 8).countP (fun i => value.getLsbD i) % 2 = 0

/-- The flags behind `test r, r`. -/
def test_flags {w : Nat} (value : BitVec w) : Flags :=
  { zf := value = 0, sf := value.msb, cf := false, of := false, pf := parity value }

/-- A sign-extended byte. -/
def disp8 (rel : UInt8) : UInt64 := rel.toInt8.toInt64.toUInt64

/-- A sign-extended little-endian double word. -/
def disp32 (a b c d : UInt8) : UInt64 :=
  let word := a.toUInt32 ||| b.toUInt32 <<< 8 ||| c.toUInt32 <<< 16 ||| d.toUInt32 <<< 24
  word.toInt32.toInt64.toUInt64

/-- What a branch looks at: the flags and the counter register. -/
structure Machine (n : Nat) where
  flags : Flags
  count : BitVec n

/-- A conditional branch: on a condition code, or on the counter. -/
inductive Cond where
  | cc (cc : Cc)
  | loopne | loope | loop | jcxz
  deriving DecidableEq

/-- Whether the branch is taken. The loops count down first. -/
def Cond.taken {n : Nat} (s : Machine n) : Cond → Bool
  | .cc c => c.holds s.flags
  | .loopne => s.count - 1 ≠ 0 && !s.flags.zf
  | .loope => s.count - 1 ≠ 0 && s.flags.zf
  | .loop => s.count - 1 ≠ 0
  | .jcxz => s.count = 0

/-- The branches with one opcode byte. -/
def Cond.of_opcode (op : UInt8) : Option Cond :=
  if op &&& 0xF0 = 0x70 then some (.cc (Cc.of_opcode op))
  else if op = 0xE0 then some .loopne
  else if op = 0xE1 then some .loope
  else if op = 0xE2 then some .loop
  else if op = 0xE3 then some .jcxz
  else none

/-- The condition and the displacement of a conditional branch, short or near. -/
def branch (code : List UInt8) : Option (Cond × UInt64) :=
  match code with
  | [op, rel] => (Cond.of_opcode op).map fun cond => (cond, disp8 rel)
  | [esc, op, a, b, c, d] =>
    if esc = 0x0F ∧ op &&& 0xF0 = 0x80 then some (.cc (Cc.of_opcode op), disp32 a b c d) else none
  | _ => none

/-- The displacement of a jump, short or near. -/
def jmp (code : List UInt8) : Option UInt64 :=
  match code with
  | [op, rel] => if op = 0xEB then some (disp8 rel) else none
  | [op, a, b, c, d] => if op = 0xE9 then some (disp32 a b c d) else none
  | _ => none

/-- Where a branch at an address goes; nops may stand before it. -/
def successor {n : Nat} (s : Machine n) (ip : UInt64) (code : List UInt8) : Option UInt64 :=
  let next := ip + UInt64.ofNat code.length
  match branch code, jmp code, code with
  | some (cond, disp), _, _ => some (if cond.taken s then next + disp else next)
  | none, some disp, _ => some (next + disp)
  | none, none, 0x90 :: rest => successor s (ip + 1) rest
  | none, none, _ => none

/-- Run nops and `xor eax, eax` to the end of the code. -/
def straight (ip : UInt64) (code : List UInt8) : Option UInt64 :=
  match code with
  | [] => some ip
  | 0x90 :: rest => straight (ip + 1) rest
  | 0x31 :: 0xC0 :: rest => straight (ip + 2) rest
  | _ => none

section

variable {n : Nat} (s : Machine n) (ip : UInt64)

theorem successor_branch {code : List UInt8} {cond : Cond} {disp : UInt64} (hbranch : branch code = some (cond, disp)) :
    successor s ip code =
      some (if cond.taken s then ip + UInt64.ofNat code.length + disp else ip + UInt64.ofNat code.length) := by
  rw [successor.eq_def, hbranch]

theorem successor_short (rel : UInt8) : successor s ip [0xEB, rel] = some (ip + UInt64.ofNat 2 + disp8 rel) := rfl

theorem successor_near (a b c d : UInt8) :
    successor s ip [0x90, 0xE9, a, b, c, d] = some (ip + UInt64.ofNat 6 + disp32 a b c d) := by
  have hnop : successor s ip [0x90, 0xE9, a, b, c, d] = successor s (ip + 1) [0xE9, a, b, c, d] := rfl
  have hjmp : successor s (ip + 1) [0xE9, a, b, c, d] = some (ip + 1 + UInt64.ofNat 5 + disp32 a b c d) := rfl
  rw [hnop, hjmp, UInt64.add_assoc ip 1]
  rfl

end

theorem straight_nops (ip : UInt64) (len : Nat) :
    straight ip (List.replicate len 0x90) = some (ip + UInt64.ofNat len) := by
  induction len generalizing ip with
  | zero =>
    rw [List.replicate_zero, straight]
    exact congrArg some (UInt64.add_zero ip).symm
  | succ len ih =>
    rw [List.replicate_succ, straight, ih]
    rw [Nat.add_comm len 1, UInt64.ofNat_add, UInt64.add_assoc]
    rfl

theorem straight_xor_nops (ip : UInt64) (len : Nat) :
    straight ip (0x31 :: 0xC0 :: List.replicate len 0x90) = some (ip + UInt64.ofNat (2 + len)) := by
  rw [straight, straight_nops, UInt64.ofNat_add, UInt64.add_assoc]
  rfl

/-! The condition codes that a test of a register with itself settles. -/

theorem test_flags_zero (w : Nat) : test_flags (0 : BitVec w) = { zf := true, sf := false, cf := false, of := false, pf := true } := by
  rw [test_flags]
  simp [parity]

theorem test_flags_one {w : Nat} (hw : 8 ≤ w) :
    test_flags (1 : BitVec w) = { zf := false, sf := false, cf := false, of := false, pf := false } := by
  have hzero : (1 : BitVec w) ≠ 0 := by
    rw [BitVec.ofNat_eq_ofNat, BitVec.ofNat_eq_ofNat, ne_eq, BitVec.one_eq_zero_iff]
    omega
  have hmsb : (1 : BitVec w).msb = false := by
    rw [BitVec.ofNat_eq_ofNat, BitVec.msb_one, decide_eq_false_iff_not]
    omega
  have hparity : parity (1 : BitVec w) = false := by
    have hbit : ∀ i, (1 : BitVec w).getLsbD i = decide (i = 0) := by
      intro i
      have hpos : 0 < w := by omega
      rw [BitVec.ofNat_eq_ofNat, BitVec.getLsbD_one, decide_eq_true hpos, Bool.true_and]
    simp only [parity, hbit]
    decide
  rw [test_flags, hmsb, hparity, decide_eq_false hzero]

theorem test_flags_min {w : Nat} (hw : 8 ≤ w) : (test_flags (BitVec.intMin w)).sf = true := by
  have hpos : 0 < w := by omega
  exact BitVec.msb_intMin.trans (decide_eq_true hpos)

/-- Whether the outcome does not depend on the register that is tested. -/
def Cc.settled (cc : Cc) : Bool := cc ∈ [Cc.o, .no, .b, .ae]

theorem Cc.settled_iff (cc : Cc) {w : Nat} (hw : 8 ≤ w) :
    (∀ value value' : BitVec w, cc.holds (test_flags value) = cc.holds (test_flags value')) ↔ cc.settled = true := by
  constructor
  · intro hsame
    have hone := hsame 0 1
    have hmin := hsame 0 (BitVec.intMin w)
    have hsf := test_flags_min hw
    have hof : (test_flags (BitVec.intMin w)).of = false := rfl
    rw [test_flags_zero, test_flags_one hw] at hone
    rw [test_flags_zero] at hmin
    cases cc <;> simp [Cc.holds, hsf, hof] at hone hmin <;> rfl
  · intro hsettled value value'
    cases cc <;> first | rfl | cases hsettled

end X86
