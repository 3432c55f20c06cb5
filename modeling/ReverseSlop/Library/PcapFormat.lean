import ReverseSlop.Library.Bytes

/-! The formats of a capture file: its records, and Ethernet, IPv4, TCP and UDP within them. -/
namespace PcapFormat

open Bytes

structure Ethernet where
  ethertype : Nat
  body : List UInt8

/-- A packet of IPv4, whose body is what its length covers behind the header. -/
structure IPv4 where
  total_len : Nat
  more_fragments : Bool
  fragment_offset : Nat
  protocol : Nat
  src : List UInt8
  dst : List UInt8
  body : List UInt8

/-- The ports and the payload of TCP or UDP. -/
structure Segment where
  src_port : Nat
  dst_port : Nat
  payload : List UInt8

def ethernet (s : List UInt8) : Option Ethernet := do
  let (_, s) ← split 12 s
  let (ethertype, s) ← split 2 s
  some { ethertype := of_be ethertype, body := s }

def ipv4 (s : List UInt8) : Option IPv4 := do
  let (ver_ihl, s) ← split 1 s
  let (_, s) ← split 1 s
  let (total_len, s) ← split 2 s
  let (_, s) ← split 2 s
  let (flags, s) ← split 2 s
  let (_, s) ← split 1 s
  let (protocol, s) ← split 1 s
  let (_, s) ← split 2 s
  let (src, s) ← split 4 s
  let (dst, s) ← split 4 s
  let ihl := of_be ver_ihl % 16 * 4
  let (_, s) ← split (ihl - 20) s
  let (body, _) ← split (of_be total_len - ihl) s
  if of_be ver_ihl / 16 = 4 ∧ 20 ≤ ihl ∧ ihl ≤ of_be total_len then
    some
      { total_len := of_be total_len, more_fragments := of_be flags / 2 ^ 13 % 2 = 1,
        fragment_offset := of_be flags % 2 ^ 13, protocol := of_be protocol, src, dst, body }
  else none

def tcp (s : List UInt8) : Option Segment := do
  let (src_port, s) ← split 2 s
  let (dst_port, s) ← split 2 s
  let (_, s) ← split 8 s
  let (data_off, s) ← split 1 s
  let (_, s) ← split 7 s
  let (_, s) ← split (of_be data_off / 16 * 4 - 20) s
  if 5 ≤ of_be data_off / 16 then some { src_port := of_be src_port, dst_port := of_be dst_port, payload := s } else none

def udp (s : List UInt8) : Option Segment := do
  let (src_port, s) ← split 2 s
  let (dst_port, s) ← split 2 s
  let (len, s) ← split 2 s
  let (_, s) ← split 2 s
  let (payload, _) ← split (of_be len - 8) s
  if 8 ≤ of_be len then some { src_port := of_be src_port, dst_port := of_be dst_port, payload } else none

/-- The IPv4 packet in a frame, and what is in it. -/
def packet (frame : List UInt8) : Option (IPv4 × Segment) := do
  let e ← ethernet frame
  if e.ethertype = 0x0800 then
    let ip ← ipv4 e.body
    let segment ← if ip.protocol = 6 then tcp ip.body else if ip.protocol = 17 then udp ip.body else none
    some (ip, segment)
  else none

/-- The frame of a record, and what is behind it; `number` reads a number in the byte order of the file. -/
def record (number : List UInt8 → Nat) (s : List UInt8) : Option (List UInt8 × List UInt8) := do
  let (_, s) ← split 8 s
  let (incl_len, s) ← split 4 s
  let (_, s) ← split 4 s
  split (number incl_len) s

def records (number : List UInt8 → Nat) : Nat → List UInt8 → Option (List (List UInt8))
  | _, [] => some []
  | 0, _ :: _ => none
  | fuel + 1, b :: s => do
    let (frame, s) ← record number (b :: s)
    let frames ← records number fuel s
    some (frame :: frames)

/-- The Ethernet frames of a file. -/
def file (s : List UInt8) : Option (List (List UInt8)) := do
  let (magic, s) ← split 4 s
  let (_, s) ← split 16 s
  let (network, s) ← split 4 s
  let number := if of_be magic = 0xa1b2c3d4 then of_be else of_le
  if number magic = 0xa1b2c3d4 ∧ number network = 1 then records number s.length s else none

section

variable {number : List UInt8 → Nat} {time incl_len orig_len frame s : List UInt8} {frames : List (List UInt8)}

/-- Fuel for every byte is enough. -/
theorem records_mono {fuel more : Nat} (hmore : fuel ≤ more) (hrecords : records number fuel s = some frames) :
    records number more s = some frames := by
  induction fuel generalizing more s frames with
  | zero =>
    cases s with
    | nil =>
      rw [← hrecords]
      cases more <;> rfl
    | cons b s => cases hrecords
  | succ fuel ih =>
    obtain ⟨more, rfl⟩ : ∃ m, more = m + 1 := ⟨more - 1, by omega⟩
    cases s with
    | nil => exact hrecords
    | cons b s =>
      simp only [records, Option.bind_eq_bind, Option.bind_eq_some_iff] at hrecords ⊢
      obtain ⟨first, hfirst, rest, hrest, hframes⟩ := hrecords
      exact ⟨first, hfirst, rest, ih (by omega) hrest, hframes⟩

theorem record_append (htime : time.length = 8) (hincl : incl_len.length = 4) (horig : orig_len.length = 4)
    (hlength : number incl_len = frame.length) :
    record number (time ++ incl_len ++ orig_len ++ frame ++ s) = some (frame, s) := by
  simp only [List.append_assoc, record, split_append htime, split_append hincl, split_append horig,
    split_append hlength.symm, Option.bind_eq_bind, Option.bind_some]

/-- A record at the front gives its frame. -/
theorem records_append {fuel : Nat} (htime : time.length = 8) (hincl : incl_len.length = 4) (horig : orig_len.length = 4)
    (hlength : number incl_len = frame.length) (hrest : records number fuel s = some frames) :
    records number (fuel + 1) (time ++ incl_len ++ orig_len ++ frame ++ s) = some (frame :: frames) := by
  have hrecord := record_append (s := s) htime hincl horig hlength
  obtain ⟨b, time, rfl⟩ := List.exists_cons_of_length_eq_add_one htime
  simp only [List.cons_append] at hrecord ⊢
  simp [records, hrecord, hrest, -List.append_assoc]

/-- A file for Ethernet whose numbers have their low bytes first. -/
theorem file_append {fuel : Nat} {magic middle network : List UInt8} (hmagic : magic = le 4 0xa1b2c3d4)
    (hmiddle : middle.length = 16) (hnetwork : network = le 4 1) (hfuel : fuel ≤ s.length)
    (hrecords : records of_le fuel s = some frames) : file (magic ++ middle ++ network ++ s) = some frames := by
  subst hmagic hnetwork
  have horder : (if of_be (le 4 0xa1b2c3d4) = 0xa1b2c3d4 then of_be else of_le) = of_le := if_neg (by decide)
  have hknown : of_le (le 4 0xa1b2c3d4) = 0xa1b2c3d4 ∧ of_le (le 4 1) = 1 := by decide
  simp only [List.append_assoc, file, split_append (length_le 4 _), split_append hmiddle, Option.bind_eq_bind,
    Option.bind_some, horder]
  rw [if_pos hknown, records_mono hfuel hrecords]

end

end PcapFormat
