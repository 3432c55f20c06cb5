import ReverseSlop.Library.Bytes
import ReverseSlop.Library.Numeral

namespace slop.core.util.zip

open Numeral (ascii)

def kLocalSig : UInt32 := 0x04034b50

def kCentralSig : UInt32 := 0x02014b50

def kEocdSig : UInt32 := 0x06054b50

def kEocd64LocSig : UInt32 := 0x07064b50

def kEocd64Sig : UInt32 := 0x06064b50

def kEocdSize : UInt64 := 22

def kEocd64LocSize : UInt64 := 20

def kEocd64Size : UInt64 := 56

def kCentralSize : UInt64 := 46

def kLocalSize : UInt64 := 30

def kMaxComment : UInt64 := 0xFFFF

def UINT_MAX : Nat := 0xFFFFFFFF

/-- A file; its length is a `size_t`. -/
structure file_t where
  bytes : List UInt8
  small : bytes.length < 2 ^ 64

def file_t.len (f : file_t) : UInt64 := UInt64.ofNat f.bytes.length

-- a read outside the file is `none` in all that follows; the place of a read is not reduced modulo 2^64

def rd16 (d : List UInt8) (off : Nat) : Option UInt64 := (Bytes.read 2 d off).map Nat.toUInt64

def rd32 (d : List UInt8) (off : Nat) : Option UInt64 := (Bytes.read 4 d off).map Nat.toUInt64

def rd64 (d : List UInt8) (off : Nat) : Option UInt64 := (Bytes.read 8 d off).map Nat.toUInt64

def in_range (off size len : UInt64) : Bool := off ≤ len && size ≤ len - off

structure entry_t where
  name : List UInt8 := []
  method : UInt16 := 0
  flags : UInt16 := 0
  crc32 : UInt32 := 0
  compressed_size : UInt64 := 0
  uncompressed_size : UInt64 := 0
  local_header_offset : UInt64 := 0

def entry_t.is_encrypted (e : entry_t) : Bool := e.flags &&& 1 ≠ 0

/-- A message about an entry. -/
def about (before name after : List UInt8) : List UInt8 := before ++ name ++ after

/-- The last record with room for its comment: the scan goes down while `pos-- > first`. -/
def find_eocd (f : file_t) (first : UInt64) : Nat → Option (Option Nat)
  | 0 => some none
  | pos + 1 =>
    if first.toNat < pos + 1 then do
      let sig ← rd32 f.bytes pos
      if sig ≠ kEocdSig.toUInt64 then find_eocd f first pos
      else
        let comment ← rd16 f.bytes (pos + 20)
        if comment ≤ f.len - UInt64.ofNat pos - kEocdSize then return some pos
        else find_eocd f first pos
    else some none

/-- What the end of the central directory says. -/
structure directory_t where
  total : UInt64
  cd_size : UInt64
  cd_off : UInt64

def read_eocd64 (f : file_t) (eocd : Nat) : Option (Except (List UInt8) directory_t) := do
  let bad := ascii "zip: bad zip64 end of central directory"
  let rec ← rd64 f.bytes (eocd - kEocd64LocSize.toNat + 8)
  if ¬ in_range rec kEocd64Size f.len then return .error bad
  let sig ← rd32 f.bytes rec.toNat
  if sig ≠ kEocd64Sig.toUInt64 then return .error bad
  let total ← rd64 f.bytes (rec.toNat + 32)
  let cd_size ← rd64 f.bytes (rec.toNat + 40)
  let cd_off ← rd64 f.bytes (rec.toNat + 48)
  return .ok { total, cd_size, cd_off }

/-- There is a zip64 locator in front of the record. -/
def has_locator (f : file_t) (eocd : Nat) : Option Bool :=
  if kEocd64LocSize.toNat ≤ eocd then
    (rd32 f.bytes (eocd - kEocd64LocSize.toNat)).map fun sig => sig = kEocd64LocSig.toUInt64
  else some false

def read_eocd (f : file_t) (eocd : Nat) : Option (Except (List UInt8) directory_t) := do
  let total ← rd16 f.bytes (eocd + 10)
  let cd_size ← rd32 f.bytes (eocd + 12)
  let cd_off ← rd32 f.bytes (eocd + 16)
  let located ← has_locator f eocd
  if located then read_eocd64 f eocd
  else if total = 0xFFFF ∨ cd_size = 0xFFFFFFFF ∨ cd_off = 0xFFFFFFFF then
    return .error (ascii "zip: zip64 locator missing")
  else return .ok { total, cd_size, cd_off }

/-- A field of the zip64 extra field at `x`, which has `sz` bytes, if it is needed and there. -/
def take (f : file_t) (x : Nat) (sz fpos : UInt64) (need : Bool) (v : UInt64) : Option (Option (UInt64 × UInt64)) :=
  if need then
    if sz - fpos < 8 then some none else (rd64 f.bytes (x + fpos.toNat)).map fun v => some (v, fpos + 8)
  else some (some (v, fpos))

/-- The saturated fields, in order. -/
def take_fields (f : file_t) (x : Nat) (sz : UInt64) (ent : entry_t) : Option (Option entry_t) := do
  let some (uncompressed_size, fpos) ← take f x sz 0 (ent.uncompressed_size = 0xFFFFFFFF) ent.uncompressed_size
    | return none
  let some (compressed_size, fpos) ← take f x sz fpos (ent.compressed_size = 0xFFFFFFFF) ent.compressed_size
    | return none
  let some (local_header_offset, _) ← take f x sz fpos (ent.local_header_offset = 0xFFFFFFFF) ent.local_header_offset
    | return none
  return some { ent with uncompressed_size, compressed_size, local_header_offset }

theorem extra_shrinks {extra_len xpos sz : UInt64} (hroom : ¬ extra_len - xpos < 4)
    (hfits : ¬ extra_len - xpos - 4 < sz) : (extra_len - (xpos + (4 + sz))).toNat < (extra_len - xpos).toNat := by
  have hleft : extra_len - (xpos + (4 + sz)) = extra_len - xpos - 4 - sz := by grind
  rw [UInt64.not_lt] at hroom hfits
  rw [hleft, UInt64.toNat_sub_of_le _ _ hfits, UInt64.toNat_sub_of_le _ _ hroom]
  rw [UInt64.le_iff_toNat_le] at hroom
  have hfour : (4 : UInt64).toNat = 4 := rfl
  omega

/-- The extra fields at `x`, until the zip64 one. -/
def read_extra (f : file_t) (x : Nat) (extra_len xpos : UInt64) (ent : entry_t) :
    Option (Except (List UInt8) entry_t) :=
  let missing := about (ascii "zip: missing zip64 extra field in '") ent.name (ascii "'")
  if hroom : extra_len - xpos < 4 then some (.error missing)
  else do
    let id ← rd16 f.bytes (x + xpos.toNat)
    let sz ← rd16 f.bytes (x + xpos.toNat + 2)
    if hfits : extra_len - xpos - 4 < sz then return .error missing
    else if id = 0x0001 then
      match ← take_fields f (x + xpos.toNat + 4) sz ent with
      | some ent => return .ok ent
      | none => return .error (about (ascii "zip: short zip64 extra field in '") ent.name (ascii "'"))
    else read_extra f x extra_len (xpos + (4 + sz)) ent
termination_by (extra_len - xpos).toNat
decreasing_by exact extra_shrinks hroom hfits

/-- The fields of the entry at `h`, with its name. -/
def read_central (f : file_t) (h : Nat) (name_len : UInt64) : Option entry_t := do
  let flags ← rd16 f.bytes (h + 8)
  let method ← rd16 f.bytes (h + 10)
  let crc32 ← rd32 f.bytes (h + 16)
  let compressed_size ← rd32 f.bytes (h + 20)
  let uncompressed_size ← rd32 f.bytes (h + 24)
  let local_header_offset ← rd32 f.bytes (h + 42)
  let name ← Bytes.slice name_len.toNat f.bytes (h + kCentralSize.toNat)
  return {
    name
    method := method.toUInt16
    flags := flags.toUInt16
    crc32 := crc32.toUInt32
    compressed_size
    uncompressed_size
    local_header_offset }

/-- The zip64 sizes of an entry that has any. -/
def resolve (f : file_t) (x : Nat) (extra_len : UInt64) (ent : entry_t) : Option (Except (List UInt8) entry_t) :=
  if ent.uncompressed_size = 0xFFFFFFFF ∨ ent.compressed_size = 0xFFFFFFFF ∨ ent.local_header_offset = 0xFFFFFFFF then
    read_extra f x extra_len 0 ent
  else some (.ok ent)

/-- Entry `i` of the directory at `cd`, and the place of the next one. -/
def read_entry (f : file_t) (cd : Nat) (cd_end pos : UInt64) (i : Nat) :
    Option (Except (List UInt8) (entry_t × UInt64)) := do
  let corrupt := ascii "zip: corrupt central directory entry " ++ Numeral.print 10 i
  if cd_end - pos < kCentralSize then return .error corrupt
  let h := cd + pos.toNat
  let sig ← rd32 f.bytes h
  if sig ≠ kCentralSig.toUInt64 then return .error corrupt
  let name_len ← rd16 f.bytes (h + 28)
  let extra_len ← rd16 f.bytes (h + 30)
  let comment_len ← rd16 f.bytes (h + 32)
  let var_len := name_len + extra_len + comment_len
  if cd_end - pos - kCentralSize < var_len then
    return .error (ascii "zip: truncated central directory entry " ++ Numeral.print 10 i)
  let ent ← read_central f h name_len
  match ← resolve f (h + kCentralSize.toNat + name_len.toNat) extra_len ent with
  | .error msg => return .error msg
  | .ok ent => return .ok (ent, pos + (kCentralSize + var_len))

/-- The entries, and the position of the first of each name. -/
structure table_t where
  entries_ : List entry_t := []
  index_ : List (List UInt8 × Nat) := []

def table_t.push (t : table_t) (ent : entry_t) : table_t where
  entries_ := t.entries_ ++ [ent]
  index_ := if t.index_.any fun e => e.1 = ent.name then t.index_ else t.index_ ++ [(ent.name, t.entries_.length)]

/-- The rest of the entries; those in front of a corrupt one stay. -/
def read_entries (f : file_t) (cd : Nat) (cd_end : UInt64) (total : Nat) : Nat → UInt64 → table_t →
    Option (table_t × Option (List UInt8))
  | 0, _, t => some (t, none)
  | left + 1, pos, t => do
    match ← read_entry f cd cd_end pos (total - (left + 1)) with
    | .error msg => return (t, some msg)
    | .ok (ent, next) => read_entries f cd cd_end total left next (t.push ent)

structure archive_t where
  data_ : Option file_t := none
  table : table_t := {}

/-- The archive, and why it could not be opened. -/
def archive_t.open_file (f : file_t) : Option (archive_t × Option (List UInt8)) := do
  let last := f.len - kEocdSize
  let first := if last > kMaxComment then last - kMaxComment else 0
  let some eocd ← find_eocd f first (last + 1).toNat
    | return ({}, some (ascii "zip: end of central directory not found"))
  match ← read_eocd f eocd with
  | .error msg => return ({}, some msg)
  | .ok dir =>
    if ¬ in_range dir.cd_off dir.cd_size f.len then
      return ({}, some (ascii "zip: central directory outside the file"))
    if dir.total > dir.cd_size / kCentralSize then
      return ({}, some (ascii "zip: entry count exceeds central directory size"))
    let (table, error) ← read_entries f dir.cd_off.toNat dir.cd_size dir.total.toNat dir.total.toNat 0 {}
    return ({ data_ := if error.isNone then some f else none, table }, error)

def archive_t.open : Option file_t → Option (archive_t × Option (List UInt8))
  | none => some ({}, some (ascii "zip: file too small"))
  | some f => if f.len < kEocdSize then some ({}, some (ascii "zip: file too small")) else archive_t.open_file f

/-- The entry of a name; `none` is an element past the end. -/
def archive_t.find (a : archive_t) (name : List UInt8) : Option (Option entry_t) :=
  match a.table.index_.find? fun e => e.1 = name with
  | none => some none
  | some e => a.table.entries_[e.2]?.map some

/-- What `inflate` returns. -/
inductive rc_t where
  | stream_end | ok | buf_error | other
  deriving DecidableEq

/-- What a call of `inflate` did: how much it read and what it wrote. -/
structure inflated_t (σ : Type) where
  rc : rc_t
  read : Nat
  written : List UInt8
  stream : σ

/-- The vendored library: `inflate` works on a window of input and some room for output. -/
structure zlib_t where
  stream : Type
  init : Option stream
  inflate : stream → List UInt8 → Nat → inflated_t stream
  msg : stream → Option (List UInt8)
  crc32 : UInt32 → List UInt8 → UInt32

/-- `inflate` keeps to the lengths that it is given. -/
def zlib_t.Respects (z : zlib_t) : Prop :=
  ∀ s input room, (z.inflate s input room).read ≤ input.length ∧ (z.inflate s input room).written.length ≤ room

/-- The variables of the loop around `inflate`; `next_in` is a place in the file. -/
structure loop_t (σ : Type) where
  stream : σ
  next_in : Nat
  avail_in : Nat := 0
  in_left : Nat
  written : List UInt8 := []
  avail_out : Nat := 0
  out_left : Nat

/-- Hand out the next piece of input, once the last one is used up. -/
def loop_t.refill_in {σ : Type} (l : loop_t σ) : loop_t σ :=
  if l.avail_in = 0 ∧ l.in_left ≠ 0 then
    { l with avail_in := min l.in_left UINT_MAX, in_left := l.in_left - min l.in_left UINT_MAX }
  else l

/-- The same with room. -/
def loop_t.refill_out {σ : Type} (l : loop_t σ) : loop_t σ :=
  if l.avail_out = 0 ∧ l.out_left ≠ 0 then
    { l with avail_out := min l.out_left UINT_MAX, out_left := l.out_left - min l.out_left UINT_MAX }
  else l

/-- After the call. -/
def loop_t.advance {σ : Type} (l : loop_t σ) (r : inflated_t σ) : loop_t σ :=
  { l with
    stream := r.stream
    next_in := l.next_in + r.read
    avail_in := l.avail_in - r.read
    written := l.written ++ r.written
    avail_out := l.avail_out - r.written.length }

def inflate_error {z : zlib_t} (name : List UInt8) (l : loop_t z.stream) : rc_t → Option (List UInt8)
  | .stream_end | .ok => none
  | .buf_error =>
    if l.avail_out = 0 ∧ l.out_left = 0 then some (about (ascii "zip: '") name (ascii "' inflates past its declared size"))
    else some (about (ascii "zip: deflate stream of '") name (ascii "' is truncated"))
  | .other => some (about (ascii "zip: corrupt deflate stream in '") name (ascii "'") ++
      match z.msg l.stream with
      | some msg => about (ascii " (") msg (ascii ")")
      | none => [])

/-- The outcome of `extract`, so far. -/
inductive extract_t where
  | running (out : List UInt8)
  | returned (out : List UInt8) (error : Option (List UInt8))

def extract_t.out : extract_t → List UInt8
  | .running out | .returned out _ => out

/-- The checksum, piece by piece. -/
def zlib_t.checksum (z : zlib_t) (crc : UInt32) (p : List UInt8) : UInt32 :=
  if p = [] then crc else z.checksum (z.crc32 crc (p.take UINT_MAX)) (p.drop UINT_MAX)
termination_by p.length
decreasing_by
  have hpos := List.length_pos_iff.mpr ‹p ≠ []›
  rw [List.length_drop, UINT_MAX]
  omega

def check_crc (z : zlib_t) (e : entry_t) (out : List UInt8) : extract_t :=
  if z.checksum (z.crc32 0 []) out ≠ e.crc32 then
    .returned [] (some (about (ascii "zip: crc-32 mismatch in '") e.name (ascii "'")))
  else .returned out none

/-- The loop has ended. -/
def finish (z : zlib_t) (e : entry_t) (l : loop_t z.stream) (rc : rc_t) : extract_t :=
  match inflate_error e.name l rc with
  | some msg => .returned [] (some msg)
  | none =>
    if l.written.length ≠ e.uncompressed_size.toNat then
      .returned [] (some (about (ascii "zip: '") e.name (ascii "' inflated to " ++ Numeral.print 10 l.written.length ++
        ascii " bytes, expected " ++ Numeral.print 10 e.uncompressed_size.toNat)))
    else check_crc z e l.written

/-- Some rounds of the loop around `inflate`, which reads in the file and writes in a buffer of
`usize` bytes: a window of either that does not lie inside is `none`. -/
def inflate_loop (z : zlib_t) (f : file_t) (e : entry_t) : Nat → loop_t z.stream → Option extract_t
  | 0, l => some (.running (l.written ++ List.replicate (e.uncompressed_size.toNat - l.written.length) 0))
  | rounds + 1, l => do
    let l := l.refill_in.refill_out
    let input ← Bytes.slice l.avail_in f.bytes l.next_in
    if e.uncompressed_size.toNat < l.written.length + l.avail_out then none
    else
      let r := z.inflate l.stream input l.avail_out
      if r.rc = .ok then inflate_loop z f e rounds (l.advance r) else return finish z e (l.advance r) r.rc

/-- Entries that `extract` does not even look for; every size fits in a `size_t`. -/
def refused (e : entry_t) (max_size : UInt64) : Option (List UInt8) :=
  if e.is_encrypted then some (about (ascii "zip: '") e.name (ascii "' is encrypted"))
  else if e.method ≠ 0 ∧ e.method ≠ 8 then
    some (about (ascii "zip: '") e.name (ascii "' uses unsupported compression method " ++ Numeral.print 10 e.method.toNat))
  else if e.uncompressed_size > max_size then
    some (about (ascii "zip: '") e.name (ascii "' is too large (" ++ Numeral.print 10 e.uncompressed_size.toNat ++
      ascii " bytes)"))
  else none

/-- The place of the data behind the local header, whose name and extra lengths may differ from those
of the directory. -/
def local_data (f : file_t) (e : entry_t) : Option (Except (List UInt8) UInt64) := do
  let bad := about (ascii "zip: bad local header for '") e.name (ascii "'")
  if ¬ in_range e.local_header_offset kLocalSize f.len then return .error bad
  let sig ← rd32 f.bytes e.local_header_offset.toNat
  if sig ≠ kLocalSig.toUInt64 then return .error bad
  let name_len ← rd16 f.bytes (e.local_header_offset.toNat + 26)
  let extra_len ← rd16 f.bytes (e.local_header_offset.toNat + 28)
  let data_off := e.local_header_offset + kLocalSize + name_len + extra_len
  if ¬ in_range data_off e.compressed_size f.len then
    return .error (about (ascii "zip: data for '") e.name (ascii "' is truncated"))
  return .ok data_off

def extract_data (z : zlib_t) (f : file_t) (e : entry_t) (rounds : Nat) (data_off : UInt64) : Option extract_t := do
  if e.method = 0 then
    if e.compressed_size ≠ e.uncompressed_size then
      return .returned [] (some (about (ascii "zip: stored entry '") e.name (ascii "' has mismatched sizes")))
    else
      let out ← Bytes.slice e.compressed_size.toNat f.bytes data_off.toNat
      return check_crc z e out
  else
    match z.init with
    | none => return .returned (List.replicate e.uncompressed_size.toNat 0) (some (ascii "zip: inflateInit failed"))
    | some stream =>
      inflate_loop z f e rounds
        { stream, next_in := data_off.toNat, in_left := e.compressed_size.toNat, out_left := e.uncompressed_size.toNat }

/-- Extract an entry, in at most a number of rounds of the loop around `inflate`. -/
def archive_t.extract (a : archive_t) (z : zlib_t) (e : entry_t) (max_size : UInt64) (rounds : Nat) :
    Option extract_t := do
  let some f := a.data_ | return .returned [] (some (ascii "zip: archive not open"))
  match refused e max_size with
  | some msg => return .returned [] (some msg)
  | none =>
    match ← local_data f e with
    | .error msg => return .returned [] (some msg)
    | .ok data_off => extract_data z f e rounds data_off

end slop.core.util.zip
