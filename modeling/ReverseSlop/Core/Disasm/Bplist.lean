import ReverseSlop.Core.Util.ZipBounds
import ReverseSlop.Library.Sorted

namespace slop.core.disasm.ipa

open Bytes (Returns)
open Numeral (ascii)
open util.zip (file_t)

/-- The strings of a dictionary. -/
abbrev plist_map_t := List (List UInt8 × List UInt8)

/-- Six bits behind the first byte of a character. -/
def utf8_tail (bits : UInt32) : UInt8 := ((0x80 : UInt32) ||| (bits &&& 0x3F)).toUInt8

def append_utf8 (s : List UInt8) (cp : UInt32) : List UInt8 :=
  if cp < 0x80 then s ++ [cp.toUInt8]
  else if cp < 0x800 then s ++ [((0xC0 : UInt32) ||| (cp >>> 6)).toUInt8, utf8_tail cp]
  else if cp < 0x10000 then s ++ [((0xE0 : UInt32) ||| (cp >>> 12)).toUInt8, utf8_tail (cp >>> 6), utf8_tail cp]
  else s ++ [((0xF0 : UInt32) ||| (cp >>> 18)).toUInt8, utf8_tail (cp >>> 12), utf8_tail (cp >>> 6), utf8_tail cp]

-- a read outside the file is `none` in all that follows

/-- The number of `n` bytes at a place, the high one first. -/
def rd_be (d : List UInt8) (p n : Nat) : Option UInt64 := (Bytes.slice n d p).map fun s => (Bytes.of_be s).toUInt64

def kHeader : UInt64 := 8

def kTrailer : UInt64 := 32

def objs_end (f : file_t) : UInt64 := f.len - kTrailer

/-- A trailer that has passed its checks. -/
structure trailer_t (f : file_t) where
  oint : UInt64
  ref : UInt64
  num : UInt64
  top : UInt64
  table : UInt64
  long : kHeader + kTrailer ≤ f.len
  oint_range : 1 ≤ oint ∧ oint ≤ 8
  ref_range : 1 ≤ ref ∧ ref ≤ 8
  top_lt : top < num
  table_range : kHeader ≤ table ∧ table ≤ objs_end f
  num_le : num ≤ (objs_end f - table) / oint

/-- The trailer, unless a check fails. -/
def read_trailer (f : file_t) : Option (Option (trailer_t f)) :=
  if long : kHeader + kTrailer ≤ f.len then do
    let magic ← Bytes.slice 8 f.bytes 0
    if magic ≠ ascii "bplist00" then return none
    let t := (f.len - kTrailer).toNat
    let oint ← rd_be f.bytes (t + 6) 1
    let ref ← rd_be f.bytes (t + 7) 1
    let num ← rd_be f.bytes (t + 8) 8
    let top ← rd_be f.bytes (t + 16) 8
    let table ← rd_be f.bytes (t + 24) 8
    if oint_range : 1 ≤ oint ∧ oint ≤ 8 then
      if ref_range : 1 ≤ ref ∧ ref ≤ 8 then
        if top_lt : top < num then
          if table_range : kHeader ≤ table ∧ table ≤ objs_end f then
            if num_le : num ≤ (objs_end f - table) / oint then
              return some { oint, ref, num, top, table, long, oint_range, ref_range, top_lt, table_range, num_le }
            else return none
          else return none
        else return none
      else return none
    else return none
  else some none

section

variable {f : file_t} (t : trailer_t f)

/-- An entry of the offset table. To ask for one behind its end is a read outside, too. -/
def entry (idx : UInt64) : Option UInt64 :=
  if idx < t.num then rd_be f.bytes (t.table.toNat + (idx * t.oint).toNat) t.oint.toNat else none

def obj_off (idx : UInt64) : Option (Option UInt64) :=
  if idx ≥ t.num then some none
  else do
    let o ← entry t idx
    return if o < kHeader ∨ o ≥ objs_end f then none else some o

/-- The high half of a marker, the count behind it, and the place of what is counted. -/
structure head_t where
  type : UInt8
  count : UInt64
  pos : UInt64

variable (f) in
def obj_head (off : UInt64) : Option (Option head_t) := do
  let m ← f.bytes[off.toNat]?
  let type := m >>> 4
  let count := m &&& 0x0F
  let pos := off + 1
  if count = 0x0F then
    if pos ≥ objs_end f then return none
    let im ← f.bytes[pos.toNat]?
    let pos := pos + 1
    if im >>> 4 ≠ 1 ∨ im &&& 0x0F > 3 then return none
    let n : UInt64 := 1 <<< (im &&& 0x0F).toUInt64
    if n > objs_end f - pos then return none
    let count ← rd_be f.bytes pos.toNat n.toNat
    return some ⟨type, count, pos + n⟩
  else return some ⟨type, count.toUInt64, pos⟩

def is_high (u : UInt32) : Bool := 0xD800 ≤ u && u ≤ 0xDBFF

def is_low (u : UInt32) : Bool := 0xDC00 ≤ u && u ≤ 0xDFFF

/-- A unit on its own. -/
def lone (u : UInt32) : UInt32 := if is_high u || is_low u then 0xFFFD else u

def rd_unit (d : List UInt8) (p : Nat) : Option UInt32 := do
  let hi ← d[p]?
  let lo ← d[p + 1]?
  return (hi.toUInt32 <<< 8) ||| lo.toUInt32

/-- The text of a number of units. -/
def read_utf16 (d : List UInt8) : Nat → Nat → List UInt8 → Option (List UInt8)
  | 0, _, s => some s
  | 1, p, s => do
    let u ← rd_unit d p
    return append_utf8 s (lone u)
  | n + 2, p, s => do
    let u ← rd_unit d p
    if is_high u then
      let lo ← rd_unit d (p + 2)
      if is_low lo then read_utf16 d n (p + 4) (append_utf8 s ((0x10000 : UInt32) + ((u - 0xD800) <<< (10 : UInt32)) + (lo - 0xDC00)))
      else read_utf16 d (n + 1) (p + 2) (append_utf8 s (lone u))
    else read_utf16 d (n + 1) (p + 2) (append_utf8 s (lone u))

/-- A string, if the object is one. -/
def read_string (idx : UInt64) : Option (Option (List UInt8)) := do
  let some off ← obj_off t idx | return none
  let some h ← obj_head f off | return none
  let avail := objs_end f - h.pos
  if h.type = 5 then
    if h.count > avail then return none
    let s ← Bytes.slice h.count.toNat f.bytes h.pos.toNat
    return some s
  if h.type = 6 then
    if h.count > avail / 2 then return none
    let s ← read_utf16 f.bytes h.count.toNat h.pos.toNat []
    return some s
  return none

/-- The last pairs of a dictionary of `n`, whose references are at `pos`. -/
def read_pairs (pos n : UInt64) : Nat → plist_map_t → Option (Bool × plist_map_t)
  | 0, out => some (true, out)
  | k + 1, out => do
    let i := n - UInt64.ofNat (k + 1)
    let kref ← rd_be f.bytes (pos.toNat + (i * t.ref).toNat) t.ref.toNat
    let vref ← rd_be f.bytes (pos.toNat + ((n + i) * t.ref).toNat) t.ref.toNat
    if kref ≥ t.num ∨ vref ≥ t.num then return (false, out)
    let some key ← read_string t kref | read_pairs pos n k out
    let some value ← read_string t vref | read_pairs pos n k out
    read_pairs pos n k (SortedMap.set key value out)

end

def parse_bplist (f : file_t) (out : plist_map_t) : Option (Bool × plist_map_t) := do
  let some t ← read_trailer f | return (false, out)
  let some off ← obj_off t t.top | return (false, out)
  let some h ← obj_head f off | return (false, out)
  if h.type ≠ 0xD then return (false, out)
  if h.count > (objs_end f - h.pos) / t.ref / 2 then return (false, out)
  read_pairs t h.pos h.count h.count.toNat out

/-- A dictionary with one pair, its strings, the offset table and the trailer. -/
def sample_file : file_t where
  bytes := ascii "bplist00" ++ [0xD1, 1, 2, 0x51, 97, 0x61, 0xD8, 0, 8, 11, 13, 0, 0, 0, 0, 0, 0, 1, 1, 0, 0, 0, 0, 0, 0, 0, 3] ++
    [0, 0, 0, 0, 0, 0, 0, 0, 0, 0, 0, 0, 0, 0, 0, 16]
  small := by decide

example : parse_bplist sample_file [] = some (true, [(ascii "a", [0xEF, 0xBF, 0xBD])]) := by decide +kernel

section

variable {f : file_t} {t : trailer_t f} {idx off pos n : UInt64} {d : List UInt8} {p k : Nat} {s : List UInt8} {out : plist_map_t}

theorem trailer_t.objs_end_toNat (t : trailer_t f) : (objs_end f).toNat + 32 = f.bytes.length := by
  have hlong := UInt64.le_iff_toNat_le.mp t.long
  have hle : kTrailer ≤ f.len := UInt64.le_trans (by decide) t.long
  have hsum : (kHeader + kTrailer).toNat = 40 := rfl
  rw [objs_end, UInt64.toNat_sub_of_le _ _ hle, f.len_toNat, show kTrailer.toNat = 32 from rfl]
  rw [f.len_toNat] at hlong
  omega

/-- The offset table has room for all of its entries. -/
theorem trailer_t.entries_le (t : trailer_t f) : t.table.toNat + t.num.toNat * t.oint.toNat ≤ (objs_end f).toNat := by
  have hnum := UInt64.le_iff_toNat_le.mp t.num_le
  have htable := UInt64.le_iff_toNat_le.mp t.table_range.2
  rw [UInt64.toNat_div, UInt64.toNat_sub_of_le _ _ t.table_range.2] at hnum
  have hmul := (Nat.mul_le_mul_right t.oint.toNat hnum).trans (Nat.div_mul_le_self _ _)
  omega

theorem rd_be_returns (hin : p + k ≤ d.length) : Returns (fun _ => True) (rd_be d p k) := by
  obtain ⟨s, hs⟩ := Option.isSome_iff_exists.mp (Bytes.slice_isSome.mpr hin)
  exact ⟨_, by rw [rd_be, hs]; rfl, trivial⟩

theorem getElem?_returns (hp : p < d.length) : Returns (fun _ => True) d[p]? := ⟨d[p], List.getElem?_eq_getElem hp, trivial⟩

theorem entry_returns (hidx : idx < t.num) : Returns (fun _ => True) (entry t idx) := by
  have hlt := UInt64.lt_iff_toNat_lt.mp hidx
  have hrows := Nat.mul_le_mul_right t.oint.toNat (Nat.succ_le_of_lt hlt)
  have hroom := t.entries_le
  have hend := t.objs_end_toNat
  have hsmall := f.small
  rw [Nat.succ_mul] at hrows
  rw [entry, if_pos hidx, UInt64.toNat_mul, Nat.mod_eq_of_lt (by omega)]
  exact rd_be_returns (by omega)

theorem obj_off_returns : Returns (fun r => ∀ off ∈ r, off.toNat < (objs_end f).toNat) (obj_off t idx) := by
  rw [obj_off]
  split
  · exact ⟨none, rfl, nofun⟩
  rename_i hidx
  refine (entry_returns (UInt64.not_le.mp hidx)).bind fun o _ => ?_
  refine ⟨_, rfl, ?_⟩
  split
  · exact nofun
  rename_i hrange
  intro off hoff
  cases hoff
  exact UInt64.lt_iff_toNat_lt.mp (UInt64.not_le.mp fun hge => hrange (.inr hge))

theorem obj_head_returns (t : trailer_t f) (hoff : off.toNat < (objs_end f).toNat) :
    Returns (fun r => ∀ h ∈ r, h.pos.toNat ≤ (objs_end f).toNat) (obj_head f off) := by
  have hend := t.objs_end_toNat
  have hsmall := f.small
  have hnext : (off + 1).toNat = off.toNat + 1 := by
    rw [UInt64.toNat_add, UInt64.toNat_one]
    omega
  rw [obj_head]
  refine (getElem?_returns (by omega)).bind fun m _ => ?_
  dsimp only
  split
  · split
    · exact ⟨none, rfl, nofun⟩
    rename_i hpos
    rw [UInt64.not_le, UInt64.lt_iff_toNat_lt] at hpos
    have hnext' : (off + 1 + 1).toNat = off.toNat + 2 := by
      rw [UInt64.toNat_add, hnext, UInt64.toNat_one]
      omega
    refine (getElem?_returns (by omega)).bind fun im _ => ?_
    split
    · exact ⟨none, rfl, nofun⟩
    split
    · exact ⟨none, rfl, nofun⟩
    rename_i hn
    rw [UInt64.not_lt, UInt64.le_iff_toNat_le, UInt64.toNat_sub_of_le _ _ (UInt64.le_iff_toNat_le.mpr (by omega))] at hn
    refine (rd_be_returns (by omega)).bind fun count _ => ⟨_, rfl, fun h hh => ?_⟩
    cases hh
    dsimp only
    rw [UInt64.toNat_add]
    omega
  · refine ⟨_, rfl, fun h hh => ?_⟩
    cases hh
    dsimp only
    omega

theorem rd_unit_returns (hin : p + 2 ≤ d.length) : Returns (fun _ => True) (rd_unit d p) := by
  rw [rd_unit]
  refine (getElem?_returns (by omega)).bind fun hi _ => ?_
  refine (getElem?_returns (by omega)).bind fun lo _ => ?_
  exact ⟨_, rfl, trivial⟩

theorem read_utf16_returns (hin : p + 2 * k ≤ d.length) : Returns (fun _ => True) (read_utf16 d k p s) := by
  induction k using Nat.strong_induction_on generalizing p s with
  | _ k ih =>
    match k with
    | 0 => exact ⟨s, rfl, trivial⟩
    | 1 => exact (rd_unit_returns (by omega)).bind fun u _ => ⟨_, rfl, trivial⟩
    | k + 2 =>
      have hone : ∀ s, Returns (fun _ => True) (read_utf16 d (k + 1) (p + 2) s) := fun s => ih (k + 1) (by omega) (by omega)
      have htwo : ∀ s, Returns (fun _ => True) (read_utf16 d k (p + 4) s) := fun s => ih k (by omega) (by omega)
      rw [read_utf16]
      refine (rd_unit_returns (by omega)).bind fun u _ => ?_
      split
      · refine (rd_unit_returns (by omega)).bind fun lo _ => ?_
        split
        · exact htwo _
        · exact hone _
      · exact hone _

theorem read_string_returns : Returns (fun _ => True) (read_string t idx) := by
  rw [read_string]
  refine obj_off_returns.bind fun found hoff => ?_
  cases found with
  | none => exact ⟨none, rfl, trivial⟩
  | some off =>
    refine (obj_head_returns t (hoff off rfl)).bind fun head hpos => ?_
    cases head with
    | none => exact ⟨none, rfl, trivial⟩
    | some h =>
      have hend := t.objs_end_toNat
      have hin := hpos h rfl
      have havail : (objs_end f - h.pos).toNat = (objs_end f).toNat - h.pos.toNat :=
        UInt64.toNat_sub_of_le _ _ (UInt64.le_iff_toNat_le.mpr hin)
      dsimp only
      split
      · split
        · exact ⟨none, rfl, trivial⟩
        rename_i hcount
        rw [UInt64.not_lt, UInt64.le_iff_toNat_le, havail] at hcount
        exact (util.zip.slice_returns (by omega)).bind fun s _ => ⟨some s, rfl, trivial⟩
      split
      · split
        · exact ⟨none, rfl, trivial⟩
        rename_i hcount
        rw [UInt64.not_lt, UInt64.le_iff_toNat_le, UInt64.toNat_div, havail] at hcount
        change h.count.toNat ≤ ((objs_end f).toNat - h.pos.toNat) / 2 at hcount
        exact (read_utf16_returns (by omega)).bind fun s _ => ⟨some s, rfl, trivial⟩
      exact ⟨none, rfl, trivial⟩

/-- The reference of a row is read inside the file. -/
theorem ref_returns {r i : UInt64} {rows : Nat} (hroom : pos.toNat + rows * r.toNat ≤ f.bytes.length) (hi : i.toNat < rows) :
    Returns (fun _ => True) (rd_be f.bytes (pos.toNat + (i * r).toNat) r.toNat) := by
  have hsmall := f.small
  have hrows := Nat.mul_le_mul_right r.toNat (Nat.succ_le_of_lt hi)
  rw [Nat.succ_mul] at hrows
  rw [UInt64.toNat_mul, Nat.mod_eq_of_lt (by omega)]
  exact rd_be_returns (by omega)

/-- The references of a dictionary lie before the offset table. -/
theorem read_pairs_returns (hroom : pos.toNat + 2 * n.toNat * t.ref.toNat ≤ f.bytes.length) (hn : 2 * n.toNat < 2 ^ 64)
    (hk : k ≤ n.toNat) : Returns (fun _ => True) (read_pairs t pos n k out) := by
  induction k generalizing out with
  | zero => exact ⟨_, rfl, trivial⟩
  | succ k ih =>
    have hrest : ∀ out, Returns (fun _ => True) (read_pairs t pos n k out) := fun out => ih (by omega)
    have hstep : (UInt64.ofNat (k + 1)).toNat = k + 1 := by
      rw [UInt64.toNat_ofNat']
      exact Nat.mod_eq_of_lt (by omega)
    have hi : (n - UInt64.ofNat (k + 1)).toNat = n.toNat - (k + 1) := by
      rw [UInt64.toNat_sub_of_le _ _ (UInt64.le_iff_toNat_le.mpr (by omega)), hstep]
    have hni : (n + (n - UInt64.ofNat (k + 1))).toNat = n.toNat + (n.toNat - (k + 1)) := by
      rw [UInt64.toNat_add, hi]
      exact Nat.mod_eq_of_lt (by omega)
    rw [read_pairs]
    refine (ref_returns hroom (by omega)).bind fun kref _ => ?_
    refine (ref_returns hroom (by omega)).bind fun vref _ => ?_
    split
    · exact ⟨_, rfl, trivial⟩
    refine read_string_returns.bind fun key _ => ?_
    cases key with
    | none => exact hrest _
    | some key =>
      refine read_string_returns.bind fun value _ => ?_
      cases value with
      | none => exact hrest _
      | some value => exact hrest _

theorem read_trailer_returns (f : file_t) : Returns (fun _ => True) (read_trailer f) := by
  rw [read_trailer]
  split
  · rename_i hlong
    have hle : kTrailer ≤ f.len := UInt64.le_trans (by decide) hlong
    have hsize := f.len_toNat
    have hbytes : 40 ≤ f.bytes.length := by
      rw [← hsize]
      exact UInt64.le_iff_toNat_le.mp hlong
    have ht : (f.len - kTrailer).toNat + 32 = f.bytes.length := by
      rw [UInt64.toNat_sub_of_le _ _ hle, hsize, show kTrailer.toNat = 32 from rfl]
      omega
    refine (util.zip.slice_returns (by omega)).bind fun magic _ => ?_
    split
    · exact ⟨none, rfl, trivial⟩
    refine (rd_be_returns (by omega)).bind fun oint _ => ?_
    refine (rd_be_returns (by omega)).bind fun ref _ => ?_
    refine (rd_be_returns (by omega)).bind fun num _ => ?_
    refine (rd_be_returns (by omega)).bind fun top _ => ?_
    refine (rd_be_returns (by omega)).bind fun table _ => ?_
    split_ifs <;> exact ⟨_, rfl, trivial⟩
  · exact ⟨none, rfl, trivial⟩

end

/-- On no file does the parser read outside the file, or ask for an offset behind the table. -/
theorem parse_bplist_safe (f : file_t) (out : plist_map_t) : ∃ r, parse_bplist f out = some r := by
  have hruns : Returns (fun _ => True) (parse_bplist f out) := by
    rw [parse_bplist]
    refine (read_trailer_returns f).bind fun trailer _ => ?_
    cases trailer with
    | none => exact ⟨_, rfl, trivial⟩
    | some t =>
      refine obj_off_returns.bind fun found hoff => ?_
      cases found with
      | none => exact ⟨_, rfl, trivial⟩
      | some off =>
        refine (obj_head_returns t (hoff off rfl)).bind fun head hpos => ?_
        cases head with
        | none => exact ⟨_, rfl, trivial⟩
        | some h =>
          have hend := t.objs_end_toNat
          have hin := hpos h rfl
          have hsmall := f.small
          dsimp only
          split
          · exact ⟨_, rfl, trivial⟩
          split
          · exact ⟨_, rfl, trivial⟩
          rename_i hcount
          have hpairs : 2 * h.count.toNat * t.ref.toNat ≤ (objs_end f).toNat - h.pos.toNat := by
            rw [UInt64.not_lt, UInt64.le_iff_toNat_le, UInt64.toNat_div, UInt64.toNat_div,
              UInt64.toNat_sub_of_le _ _ (UInt64.le_iff_toNat_le.mpr hin)] at hcount
            have htwo := (Nat.mul_le_mul_left 2 hcount).trans (Nat.mul_div_le _ 2)
            exact (Nat.mul_le_mul_right t.ref.toNat htwo).trans (Nat.div_mul_le_self _ _)
          have href : 1 ≤ t.ref.toNat := UInt64.le_iff_toNat_le.mp t.ref_range.1
          have hn := Nat.le_mul_of_pos_right (2 * h.count.toNat) href
          exact read_pairs_returns (by omega) (by omega) le_rfl
  obtain ⟨r, hr, -⟩ := hruns
  exact ⟨r, hr⟩

end slop.core.disasm.ipa
