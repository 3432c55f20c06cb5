import ReverseSlop.Library.Binary64
import ReverseSlop.Library.Requests
import ReverseSlop.Library.Encoding
import ReverseSlop.Library.Transition

namespace slop.app

/-- An address or a count on the page, which is a double: an integer with a significand of
53 bits. -/
structure number_t where
  value : Nat
  representable : Binary64.Representable value
  deriving DecidableEq

namespace number_t

/-- The double next to an integer. -/
def of (n : Nat) : number_t := ⟨Binary64.round_nat n, Binary64.representable_round_nat n⟩

instance (n : Nat) : OfNat number_t n := ⟨of n⟩

instance : Add number_t := ⟨fun a b => of (a.value + b.value)⟩

/-- The multiple of `10 ^ e` next to a number, if it is read back as that number. -/
def shortened (n : number_t) (e : Nat) : Option Nat :=
  let low := n.value / 10 ^ e * 10 ^ e
  let high := low + 10 ^ e
  let low_fits := Binary64.round_nat low = n.value
  let high_fits := Binary64.round_nat high = n.value
  if low_fits ∧ (high_fits → n.value - low ≤ high - n.value) then some low
  else if high_fits then some high
  else none

/-- The integer that a request carries. A number is printed with as few digits as it takes
to read it back, and zeros behind them. -/
def text (n : number_t) : Nat := ((List.range (n.value.log2 + 1)).reverse.findSome? n.shortened).getD n.value

variable {m n i : Nat} {a : number_t}

/-- The page can count the bytes from an address on: none but the first is behind
`2 ^ 53`, from where on not every integer is a double. -/
def Counts (a : number_t) (data : List UInt8) : Prop := data.length ≤ 1 ∨ a.value + data.length ≤ 2 ^ 53 + 1

instance (a : number_t) (data : List UInt8) : Decidable (a.Counts data) := inferInstanceAs (Decidable (_ ∨ _))

/-- A kernel address is printed shorter than it is, and the page cannot count from it. -/
example : (of 0xFFFFF80000000000).text = 18446735277616530000 ∧
    of 0xFFFFF80000000000 + 1 = of 0xFFFFF80000000000 := by
  decide

end number_t

end slop.app

namespace slop.app.disasm_store

structure function_row_t where
  va : number_t
  size : number_t
  deriving DecidableEq

structure insn_t where
  va : number_t
  len : Nat
  text : String
  deriving DecidableEq

/-- The store of the disassembly pane. -/
structure store_t where
  functions : List function_row_t := []
  selected : Option number_t := none
  insns : List insn_t := []
  /-- The listing ran past the function bounds. -/
  linear : Bool := false
  error : Option String := none
  deriving DecidableEq

/-- A call of `disasm.disassemble`, with the size of the function that `select` has found. -/
structure request_t where
  va : number_t
  size : number_t
  count : Nat
  deriving DecidableEq

/-- `select` up to its request. It asks for more than the function should need. -/
def select (s : store_t) (va : number_t) : store_t × request_t :=
  let fn := s.functions.find? fun f => f.va = va
  let size := (fn.map function_row_t.size).getD 0
  ({ s with selected := some va }, { va, size, count := min 4000 (max 64 ((size.value + 1) / 2)) })

def in_range (r : request_t) (all : List insn_t) : List insn_t :=
  if r.size.value > 0 then all.filter fun i => i.va.value < (r.va + r.size).value else all

/-- The listing of an answer: the instructions inside the function, or all of them if
almost nothing would be left. -/
def listing (r : request_t) : Except String (List insn_t) → List insn_t
  | .ok all => if (in_range r all).length ≥ 4 then in_range r all else all
  | .error _ => []

/-- `select` from its response on. -/
def on_disassemble (s : store_t) (r : request_t) : Except String (List insn_t) → store_t
  | .ok all => { s with insns := listing r (.ok all), linear := (in_range r all).length < 4 }
  | .error e => { s with insns := listing r (.error e), error := some e }

private theorem on_disassemble_insns (s : store_t) (r : request_t) (res : Except String (List insn_t)) :
    (on_disassemble s r res).insns = listing r res := by
  cases res <;> rfl

private theorem on_disassemble_selected (s : store_t) (r : request_t) (res : Except String (List insn_t)) :
    (on_disassemble s r res).selected = s.selected := by
  cases res <;> rfl

end slop.app.disasm_store

namespace slop.core.mcp

/-- The hex text of `memory.read`. -/
def to_hex (data : List UInt8) : String := String.ofList (Hex.encode Hex.lower data)

end slop.core.mcp

namespace slop.app.memory_store

open core.mcp

/-- The store of the hex editor. -/
structure store_t where
  cursor : number_t := 0
  bytes : List UInt8 := []
  loading : Bool := false
  error : Option String := none
  deriving DecidableEq

def hexToBytes (hex : String) : List UInt8 := Hex.pairs (hex.toList.filterMap Hex.value)

/-- `readAt` up to its request, which asks for a page of bytes as hex. -/
def readAt (s : store_t) (addr : number_t) : store_t := { s with loading := true, cursor := addr }

/-- `readAt` from its response on: the hex text, or an error. -/
def on_read (s : store_t) : Except String String → store_t
  | .ok hex => { s with bytes := hexToBytes hex, error := none, loading := false }
  | .error e => { s with bytes := [], error := some e, loading := false }

private theorem hexToBytes_to_hex (data : List UInt8) : hexToBytes (to_hex data) = data := by
  rw [hexToBytes, to_hex, String.toList_ofList, Hex.pairs_encode Hex.value_lower]

end slop.app.memory_store

namespace slop.app

open core.mcp

/-- The two stores that show what is at an address, and their calls on the way. -/
structure pages_t where
  memory : memory_store.store_t := {}
  reads : Fetch.View number_t (Except String (List UInt8)) := {}
  disasm : disasm_store.store_t := {}
  listings : Fetch.View disasm_store.request_t (Except String (List disasm_store.insn_t)) := {}

inductive pages_op_t where
  | readAt (addr : number_t)
  /-- The engine's answer to a read: the bytes it has read from `addr.text` on, or an error. -/
  | on_read (addr : number_t) (res : Except String (List UInt8))
  /-- The list of functions has been pulled again. -/
  | functions (fns : List disasm_store.function_row_t)
  | select (va : number_t)
  | on_disassemble (r : disasm_store.request_t) (res : Except String (List disasm_store.insn_t))

/-- A call up to its request, or a response in any order. -/
def pages_t.step (s : pages_t) : pages_op_t → Option pages_t
  | .readAt addr => some { s with memory := memory_store.readAt s.memory addr, reads := s.reads.ask addr }
  | .on_read addr res =>
    (s.reads.answer addr res).map fun reads =>
      { s with memory := memory_store.on_read s.memory (res.map to_hex), reads }
  | .functions fns => some { s with disasm := { s.disasm with functions := fns } }
  | .select va =>
    some
      { s with
        disasm := (disasm_store.select s.disasm va).1
        listings := s.listings.ask (disasm_store.select s.disasm va).2 }
  | .on_disassemble r res =>
    (s.listings.answer r res).map fun listings =>
      { s with disasm := disasm_store.on_disassemble s.disasm r res, listings }

/-- The response that comes last, with no other on its way, is to a call for the address
of the latest call, and its bytes are where the page can count to them. -/
def LastInTime (s : pages_t) : pages_op_t → Prop
  | .on_read addr res =>
    s.reads.LastInTime id addr ∧ (s.reads.outstanding.erase addr = [] → res.toOption.all fun data => addr.Counts data)
  | .on_disassemble r _ => s.listings.LastInTime disasm_store.request_t.va r
  | _ => True

instance (s : pages_t) : ∀ op, Decidable (LastInTime s op)
  | .on_read addr _ =>
    inferInstanceAs (Decidable (s.reads.LastInTime id addr ∧ (s.reads.outstanding.erase addr = [] → _)))
  | .on_disassemble r _ => inferInstanceAs (Decidable (s.listings.LastInTime disasm_store.request_t.va r))
  | .readAt _ | .functions _ | .select _ => instDecidableTrue

/-- The stores follow their calls. -/
structure Follows (s : pages_t) : Prop where
  cursor : s.memory.cursor = s.reads.latest.getD 0
  bytes : s.memory.bytes = (s.reads.shown.bind fun a => a.2.toOption).getD []
  selected : s.disasm.selected = s.listings.latest.map disasm_store.request_t.va
  insns : s.disasm.insns = (s.listings.shown.map fun a => disasm_store.listing a.1 a.2).getD []
  reads : s.reads.Settled id
  listings : s.listings.Settled disasm_store.request_t.va
  counts : s.reads.outstanding = [] → s.reads.shown.all fun a => a.2.toOption.all fun data => a.1.Counts data

private theorem Follows.init : Follows {} :=
  ⟨rfl, rfl, rfl, rfl, fun _ => rfl, fun _ => rfl, fun _ => rfl⟩

private theorem on_read_cursor (s : memory_store.store_t) (res : Except String String) :
    (memory_store.on_read s res).cursor = s.cursor := by
  cases res <;> rfl

/-- The bytes of a response are those that the engine has read. -/
theorem on_read_bytes (s : memory_store.store_t) (res : Except String (List UInt8)) :
    (memory_store.on_read s (res.map to_hex)).bytes = res.toOption.getD [] := by
  cases res with
  | error e => rfl
  | ok data => exact memory_store.hexToBytes_to_hex data

private theorem Follows.step {s s' : pages_t} {op : pages_op_t} (h : Follows s) (hok : LastInTime s op)
    (hstep : s.step op = some s') : Follows s' := by
  cases op with
  | readAt addr =>
    cases hstep
    refine ⟨rfl, h.bytes, h.selected, h.insns, s.reads.ask_settled id addr, h.listings, fun hnone => ?_⟩
    exact absurd hnone (List.append_ne_nil_of_right_ne_nil _ (List.cons_ne_nil addr []))
  | on_read addr res =>
    obtain ⟨reads, hanswer, rfl⟩ := Option.map_eq_some_iff.mp hstep
    have hsettled := (Fetch.View.answer_settled_iff hanswer).mpr hok.1
    obtain ⟨-, rfl⟩ := Fetch.View.answer_eq hanswer
    refine ⟨?_, ?_, h.selected, h.insns, hsettled, h.listings, hok.2⟩
    · exact (on_read_cursor s.memory _).trans h.cursor
    · exact on_read_bytes s.memory res
  | functions fns =>
    cases hstep
    exact ⟨h.cursor, h.bytes, h.selected, h.insns, h.reads, h.listings, h.counts⟩
  | select va =>
    cases hstep
    exact ⟨h.cursor, h.bytes, rfl, h.insns, h.reads, s.listings.ask_settled _ _, h.counts⟩
  | on_disassemble r res =>
    obtain ⟨listings, hanswer, rfl⟩ := Option.map_eq_some_iff.mp hstep
    have hsettled := (Fetch.View.answer_settled_iff hanswer).mpr hok
    obtain ⟨-, rfl⟩ := Fetch.View.answer_eq hanswer
    refine ⟨h.cursor, h.bytes, ?_, ?_, h.reads, hsettled, h.counts⟩
    · exact (disasm_store.on_disassemble_selected s.disasm r res).trans h.selected
    · exact disasm_store.on_disassemble_insns s.disasm r res

end slop.app
