import ReverseSlop.Core.Util.ZipReader

namespace slop.core.util.zip

open Bytes (Returns slice_isSome length_of_slice)
open Numeral (ascii)

section

variable {f : file_t} {d : List UInt8} {off size len : UInt64} {n pos : Nat}

theorem file_t.len_toNat (f : file_t) : f.len.toNat = f.bytes.length := by
  rw [len, UInt64.toNat_ofNat']
  exact Nat.mod_eq_of_lt f.small

/-- The test of a range does not overflow. -/
theorem in_range_iff : in_range off size len = true ↔ off.toNat + size.toNat ≤ len.toNat := by
  simp only [in_range, Bool.and_eq_true, decide_eq_true_eq, UInt64.le_iff_toNat_le]
  constructor
  · rintro ⟨hoff, hsize⟩
    rw [UInt64.toNat_sub_of_le _ _ (UInt64.le_iff_toNat_le.mpr hoff)] at hsize
    omega
  · intro hin
    have hoff : off.toNat ≤ len.toNat := by omega
    rw [UInt64.toNat_sub_of_le _ _ (UInt64.le_iff_toNat_le.mpr hoff)]
    omega

theorem rd16_returns (hin : n + 2 ≤ d.length) : Returns (fun v => v.toNat < 65536) (rd16 d n) := by
  obtain ⟨v, hv⟩ := Option.isSome_iff_exists.mp (Bytes.read_isSome.mpr hin)
  refine ⟨v.toUInt64, by rw [rd16, hv]; rfl, ?_⟩
  have hlt := Bytes.read_lt hv
  change (UInt64.ofNat v).toNat < 65536
  rw [UInt64.toNat_ofNat']
  omega

theorem rd32_returns (hin : n + 4 ≤ d.length) : Returns (fun _ => True) (rd32 d n) := by
  obtain ⟨v, hv⟩ := Option.isSome_iff_exists.mp (Bytes.read_isSome.mpr hin)
  exact ⟨v.toUInt64, by rw [rd32, hv]; rfl, trivial⟩

theorem rd64_returns (hin : n + 8 ≤ d.length) : Returns (fun _ => True) (rd64 d n) := by
  obtain ⟨v, hv⟩ := Option.isSome_iff_exists.mp (Bytes.read_isSome.mpr hin)
  exact ⟨v.toUInt64, by rw [rd64, hv]; rfl, trivial⟩

theorem slice_returns (hin : pos + n ≤ d.length) : Returns (fun s => s.length = n) (Bytes.slice n d pos) := by
  obtain ⟨s, hs⟩ := Option.isSome_iff_exists.mp (slice_isSome.mpr hin)
  exact ⟨s, hs, length_of_slice hs⟩

/-- A record that is found lies in the file. -/
theorem find_eocd_returns {first : UInt64} (hn : n + 21 ≤ f.bytes.length) :
    Returns (fun r => ∀ eocd ∈ r, eocd + 22 ≤ f.bytes.length) (find_eocd f first n) := by
  induction n with
  | zero => exact ⟨none, rfl, nofun⟩
  | succ n ih =>
    have hrest := ih (by omega)
    rw [find_eocd]
    split
    · refine (rd32_returns (by omega)).bind fun sig _ => ?_
      split
      · exact hrest
      · refine (rd16_returns (by omega)).bind fun comment _ => ?_
        split
        · refine ⟨some n, rfl, fun eocd heocd => ?_⟩
          cases heocd
          omega
        · exact hrest
    · exact ⟨none, rfl, nofun⟩

theorem read_eocd64_returns {eocd : Nat} (hloc : 20 ≤ eocd) (hin : eocd ≤ f.bytes.length) :
    Returns (fun _ => True) (read_eocd64 f eocd) := by
  have hsize : kEocd64LocSize.toNat = 20 := rfl
  have hrecord : kEocd64Size.toNat = 56 := rfl
  rw [read_eocd64]
  refine (rd64_returns (by rw [hsize]; omega)).bind fun rec _ => ?_
  split
  · exact ⟨_, rfl, trivial⟩
  case isFalse hrange =>
    rw [not_not, in_range_iff, f.len_toNat, hrecord] at hrange
    refine (rd32_returns (by omega)).bind fun sig _ => ?_
    split
    · exact ⟨_, rfl, trivial⟩
    · refine (rd64_returns (by omega)).bind fun total _ => ?_
      refine (rd64_returns (by omega)).bind fun cd_size _ => ?_
      refine (rd64_returns (by omega)).bind fun cd_off _ => ?_
      exact ⟨_, rfl, trivial⟩

theorem has_locator_returns {eocd : Nat} (hin : eocd ≤ f.bytes.length) :
    Returns (fun located => located = true → 20 ≤ eocd) (has_locator f eocd) := by
  have hsize : kEocd64LocSize.toNat = 20 := rfl
  rw [has_locator, hsize]
  split
  case isTrue hloc => exact (rd32_returns (by omega)).map fun _ _ _ => hloc
  case isFalse => exact ⟨false, rfl, nofun⟩

theorem read_eocd_returns {eocd : Nat} (hin : eocd + 22 ≤ f.bytes.length) : Returns (fun _ => True) (read_eocd f eocd) := by
  rw [read_eocd]
  refine (rd16_returns (by omega)).bind fun total _ => ?_
  refine (rd32_returns (by omega)).bind fun cd_size _ => ?_
  refine (rd32_returns (by omega)).bind fun cd_off _ => ?_
  refine (has_locator_returns (by omega)).bind fun located hlocated => ?_
  split
  case isTrue hloc => exact read_eocd64_returns (hlocated hloc) (by omega)
  case isFalse =>
    split
    · exact ⟨_, rfl, trivial⟩
    · exact ⟨_, rfl, trivial⟩

section

variable {x i : Nat} {sz fpos xpos extra_len cd_end : UInt64} {ent : entry_t}

/-- A field is taken inside the extra field. -/
theorem take_returns (hin : x + sz.toNat ≤ f.bytes.length) (hpos : fpos.toNat ≤ sz.toNat) (need : Bool) (v : UInt64) :
    Returns (fun r => ∀ t ∈ r, t.2.toNat ≤ sz.toNat) (take f x sz fpos need v) := by
  have height : (8 : UInt64).toNat = 8 := rfl
  have hle : fpos ≤ sz := UInt64.le_iff_toNat_le.mpr hpos
  rw [take]
  split
  · split
    · exact ⟨none, rfl, nofun⟩
    case isFalse hroom =>
      rw [UInt64.not_lt, UInt64.le_iff_toNat_le, UInt64.toNat_sub_of_le _ _ hle, height] at hroom
      refine (rd64_returns (by omega)).map fun v _ t ht => ?_
      cases ht
      have hsz := sz.toNat_lt
      rw [UInt64.toNat_add, height]
      omega
  · refine ⟨some (v, fpos), rfl, fun t ht => ?_⟩
    cases ht
    exact hpos

theorem take_fields_returns (hin : x + sz.toNat ≤ f.bytes.length) : Returns (fun _ => True) (take_fields f x sz ent) := by
  rw [take_fields]
  refine (take_returns hin (by simp) _ _).bind fun u hu => ?_
  split
  case h_1 v fpos =>
    refine (take_returns hin (hu _ rfl) _ _).bind fun c hc => ?_
    split
    case h_1 v fpos =>
      refine (take_returns hin (hc _ rfl) _ _).bind fun o _ => ?_
      split
      · exact ⟨_, rfl, trivial⟩
      · exact ⟨_, rfl, trivial⟩
    · exact ⟨_, rfl, trivial⟩
  · exact ⟨_, rfl, trivial⟩

/-- The walk over the extra fields stays inside. -/
theorem read_extra_returns (hin : x + extra_len.toNat ≤ f.bytes.length) (hpos : xpos.toNat ≤ extra_len.toNat) :
    Returns (fun _ => True) (read_extra f x extra_len xpos ent) := by
  have hfour : (4 : UInt64).toNat = 4 := rfl
  induction hleft : (extra_len - xpos).toNat using Nat.strong_induction_on generalizing xpos with
  | _ left ih =>
    rw [read_extra]
    split
    · exact ⟨_, rfl, trivial⟩
    case isFalse hroom =>
      have hle := hroom
      rw [UInt64.not_lt, UInt64.le_iff_toNat_le, UInt64.toNat_sub_of_le _ _ (UInt64.le_iff_toNat_le.mpr hpos), hfour] at hle
      refine (rd16_returns (by omega)).bind fun id _ => ?_
      refine (rd16_returns (by omega)).bind fun sz hsz => ?_
      split
      · exact ⟨_, rfl, trivial⟩
      case isFalse hfits =>
        have hend : xpos.toNat + 4 + sz.toNat ≤ extra_len.toNat := by
          have h := hfits
          rw [UInt64.not_lt, UInt64.le_iff_toNat_le, UInt64.toNat_sub_of_le _ _ (UInt64.not_lt.mp hroom),
            UInt64.toNat_sub_of_le _ _ (UInt64.le_iff_toNat_le.mpr hpos), hfour] at h
          omega
        split
        · refine (take_fields_returns (by omega)).bind fun r _ => ?_
          cases r <;> exact ⟨_, rfl, trivial⟩
        · have hnext : (xpos + (4 + sz)).toNat = xpos.toNat + 4 + sz.toNat := by
            have hextra := extra_len.toNat_lt
            rw [UInt64.toNat_add, UInt64.toNat_add, hfour]
            omega
          exact ih _ (hleft ▸ extra_shrinks hroom hfits) (by omega) rfl

theorem resolve_returns (hin : x + extra_len.toNat ≤ f.bytes.length) : Returns (fun _ => True) (resolve f x extra_len ent) := by
  rw [resolve]
  split
  · exact read_extra_returns hin (by simp)
  · exact ⟨_, rfl, trivial⟩

theorem read_central_returns {h : Nat} {name_len : UInt64} (hin : h + 46 + name_len.toNat ≤ f.bytes.length) :
    Returns (fun _ => True) (read_central f h name_len) := by
  have hsize : kCentralSize.toNat = 46 := rfl
  rw [read_central]
  refine (rd16_returns (by omega)).bind fun flags _ => ?_
  refine (rd16_returns (by omega)).bind fun method _ => ?_
  refine (rd32_returns (by omega)).bind fun crc32 _ => ?_
  refine (rd32_returns (by omega)).bind fun compressed_size _ => ?_
  refine (rd32_returns (by omega)).bind fun uncompressed_size _ => ?_
  refine (rd32_returns (by omega)).bind fun local_header_offset _ => ?_
  refine (slice_returns (by rw [hsize]; omega)).bind fun name _ => ?_
  exact ⟨_, rfl, trivial⟩

/-- An entry that is read lies in the directory, and so does the place of the next one. -/
theorem read_entry_returns {cd : Nat} {cd_end pos : UInt64} (hin : cd + cd_end.toNat ≤ f.bytes.length)
    (hpos : pos.toNat ≤ cd_end.toNat) :
    Returns (fun r => ∀ ent next, r = .ok (ent, next) → next.toNat ≤ cd_end.toNat) (read_entry f cd cd_end pos i) := by
  have hsize : kCentralSize.toNat = 46 := rfl
  have hle : pos ≤ cd_end := UInt64.le_iff_toNat_le.mpr hpos
  rw [read_entry]
  split
  · exact ⟨_, rfl, nofun⟩
  case isFalse hroom =>
    have hfixed := hroom
    rw [UInt64.not_lt, UInt64.le_iff_toNat_le, UInt64.toNat_sub_of_le _ _ hle, hsize] at hfixed
    refine (rd32_returns (by omega)).bind fun sig _ => ?_
    split
    · exact ⟨_, rfl, nofun⟩
    · refine (rd16_returns (by omega)).bind fun name_len hname => ?_
      refine (rd16_returns (by omega)).bind fun extra_len hextra => ?_
      refine (rd16_returns (by omega)).bind fun comment_len hcomment => ?_
      have hvar : (name_len + extra_len + comment_len).toNat = name_len.toNat + extra_len.toNat + comment_len.toNat := by
        rw [UInt64.toNat_add, UInt64.toNat_add]
        omega
      dsimp only
      split
      · exact ⟨_, rfl, nofun⟩
      case isFalse hfits =>
        rw [UInt64.not_lt, UInt64.le_iff_toNat_le, UInt64.toNat_sub_of_le _ _ (UInt64.not_lt.mp hroom),
          UInt64.toNat_sub_of_le _ _ hle, hsize, hvar] at hfits
        refine (read_central_returns (by omega)).bind fun ent _ => ?_
        refine (resolve_returns (by omega)).bind fun r _ => ?_
        cases r with
        | error msg => exact ⟨_, rfl, nofun⟩
        | ok ent =>
          refine ⟨_, rfl, fun ent' next hnext => ?_⟩
          cases hnext
          have hend := cd_end.toNat_lt
          rw [UInt64.toNat_add, UInt64.toNat_add, hvar, hsize]
          omega

end

end

/-- Every position of the index is one of an entry. -/
def table_t.Valid (t : table_t) : Prop := ∀ e ∈ t.index_, e.2 < t.entries_.length

theorem table_t.Valid.push {t : table_t} (h : t.Valid) (ent : entry_t) : (t.push ent).Valid := by
  intro e he
  rw [table_t.push, List.length_append, List.length_singleton]
  have hold : e ∈ t.index_ → e.2 < t.entries_.length + 1 := fun he => Nat.lt_succ_of_lt (h e he)
  rw [table_t.push] at he
  split at he
  · exact hold he
  · rcases List.mem_append.mp he with he | he
    · exact hold he
    · rw [List.mem_singleton.mp he]
      exact Nat.lt_succ_self _

theorem read_entries_returns {f : file_t} {cd total left : Nat} {cd_end pos : UInt64} {t : table_t}
    (hin : cd + cd_end.toNat ≤ f.bytes.length) (hpos : pos.toNat ≤ cd_end.toNat) (ht : t.Valid) :
    Returns (fun r => r.1.Valid) (read_entries f cd cd_end total left pos t) := by
  induction left generalizing pos t with
  | zero => exact ⟨_, rfl, ht⟩
  | succ left ih =>
    rw [read_entries]
    refine (read_entry_returns hin hpos).bind fun r hr => ?_
    split
    · exact ⟨_, rfl, ht⟩
    · exact ih (hr _ _ rfl) (ht.push _)

theorem open_file_returns {f : file_t} (hlen : 22 ≤ f.bytes.length) :
    Returns (fun r => r.1.table.Valid) (archive_t.open_file f) := by
  have hsize : kEocdSize.toNat = 22 := rfl
  have hlast : (f.len - kEocdSize + 1).toNat + 21 ≤ f.bytes.length := by
    have hle : kEocdSize ≤ f.len := by rwa [UInt64.le_iff_toNat_le, f.len_toNat]
    have hone : (1 : UInt64).toNat = 1 := rfl
    have hsmall := f.small
    rw [UInt64.toNat_add, UInt64.toNat_sub_of_le _ _ hle, f.len_toNat, hsize, hone]
    omega
  have hempty : table_t.Valid {} := nofun
  rw [archive_t.open_file]
  dsimp only
  refine (find_eocd_returns hlast).bind fun r hr => ?_
  split
  case h_1 eocd =>
    refine (read_eocd_returns (hr _ rfl)).bind fun dir _ => ?_
    split
    · exact ⟨_, rfl, hempty⟩
    · split
      · exact ⟨_, rfl, hempty⟩
      case isFalse hrange =>
        split
        · exact ⟨_, rfl, hempty⟩
        · rw [not_not, in_range_iff, f.len_toNat] at hrange
          refine (read_entries_returns hrange (by simp) hempty).bind fun r hr => ?_
          exact ⟨_, rfl, hr⟩
  · exact ⟨_, rfl, hempty⟩

theorem open_returns (data : Option file_t) : Returns (fun r => r.1.table.Valid) (archive_t.open data) := by
  have hempty : table_t.Valid {} := nofun
  cases data with
  | none => exact ⟨_, rfl, hempty⟩
  | some f =>
    rw [archive_t.open]
    split
    · exact ⟨_, rfl, hempty⟩
    case isFalse hlen =>
      refine open_file_returns ?_
      rwa [UInt64.not_lt, UInt64.le_iff_toNat_le, f.len_toNat] at hlen

theorem find_returns {a : archive_t} (ha : a.table.Valid) (name : List UInt8) : (a.find name).isSome := by
  rw [archive_t.find]
  split
  · rfl
  case h_2 e hfind =>
    have hlt := ha e (List.mem_of_find?_eq_some hfind)
    rw [Option.isSome_map, List.getElem?_eq_getElem hlt]
    rfl

section

variable {z : zlib_t} {f : file_t} {e : entry_t}

/-- The data that is looked for lies in the file, whatever the sum of the lengths came to. -/
theorem local_data_returns : Returns (fun r => ∀ data_off, r = .ok data_off →
    data_off.toNat + e.compressed_size.toNat ≤ f.bytes.length) (local_data f e) := by
  have hsize : kLocalSize.toNat = 30 := rfl
  rw [local_data]
  dsimp only
  split
  · exact ⟨_, rfl, nofun⟩
  case isFalse hheader =>
    rw [not_not, in_range_iff, f.len_toNat, hsize] at hheader
    refine (rd32_returns (by omega)).bind fun sig _ => ?_
    split
    · exact ⟨_, rfl, nofun⟩
    · refine (rd16_returns (by omega)).bind fun name_len _ => ?_
      refine (rd16_returns (by omega)).bind fun extra_len _ => ?_
      split
      · exact ⟨_, rfl, nofun⟩
      case isFalse hdata =>
        refine ⟨_, rfl, fun data_off hok => ?_⟩
        cases hok
        rwa [not_not, in_range_iff, f.len_toNat] at hdata

/-- The windows that are still to come lie in the file and in the buffer. -/
structure loop_t.Within {σ : Type} (l : loop_t σ) (f : file_t) (usize : Nat) : Prop where
  input : l.next_in + l.avail_in + l.in_left ≤ f.bytes.length
  output : l.written.length + l.avail_out + l.out_left ≤ usize

theorem loop_t.Within.refill_in {σ : Type} {l : loop_t σ} {usize : Nat} (h : l.Within f usize) :
    l.refill_in.Within f usize := by
  have hinput := h.input
  rw [loop_t.refill_in]
  split
  · refine ⟨?_, h.output⟩
    dsimp only
    omega
  · exact h

theorem loop_t.Within.refill_out {σ : Type} {l : loop_t σ} {usize : Nat} (h : l.Within f usize) :
    l.refill_out.Within f usize := by
  have houtput := h.output
  rw [loop_t.refill_out]
  split
  · refine ⟨h.input, ?_⟩
    dsimp only
    omega
  · exact h

theorem loop_t.Within.advance {l : loop_t z.stream} {usize : Nat} {r : inflated_t z.stream} (h : l.Within f usize)
    (hread : r.read ≤ l.avail_in) (hwritten : r.written.length ≤ l.avail_out) : (l.advance r).Within f usize := by
  obtain ⟨hinput, houtput⟩ := h
  constructor
  · dsimp only [loop_t.advance]
    omega
  · dsimp only [loop_t.advance]
    rw [List.length_append]
    omega

theorem length_check_crc {out : List UInt8} {usize : Nat} (hout : out.length ≤ usize) :
    (check_crc z e out).out.length ≤ usize := by
  rw [check_crc]
  split
  · exact Nat.zero_le _
  · exact hout

theorem length_finish {l : loop_t z.stream} {usize : Nat} (h : l.Within f usize) (rc : rc_t) :
    (finish z e l rc).out.length ≤ usize := by
  have hwritten : l.written.length ≤ usize := by
    have h := h.output
    omega
  rw [finish]
  split
  · exact Nat.zero_le _
  · split
    · exact Nat.zero_le _
    · exact length_check_crc hwritten

theorem inflate_loop_returns (hz : z.Respects) {rounds : Nat} {l : loop_t z.stream}
    (h : l.Within f e.uncompressed_size.toNat) :
    Returns (fun r => r.out.length ≤ e.uncompressed_size.toNat) (inflate_loop z f e rounds l) := by
  induction rounds generalizing l with
  | zero =>
    refine ⟨_, rfl, ?_⟩
    have h := h.output
    change (l.written ++ List.replicate _ 0).length ≤ e.uncompressed_size.toNat
    rw [List.length_append, List.length_replicate]
    omega
  | succ rounds ih =>
    have hrefill := h.refill_in.refill_out
    have hinput := hrefill.input
    have houtput := hrefill.output
    rw [inflate_loop]
    dsimp only
    refine (slice_returns (by omega)).bind fun input hlength => ?_
    obtain ⟨hread, hwritten⟩ := hz l.refill_in.refill_out.stream input l.refill_in.refill_out.avail_out
    rw [hlength] at hread
    have hnext := hrefill.advance hread hwritten
    rw [if_neg (by omega)]
    split
    · exact ih hnext
    · exact ⟨_, rfl, length_finish hnext _⟩

theorem extract_data_returns (hz : z.Respects) {data_off : UInt64} (rounds : Nat)
    (hin : data_off.toNat + e.compressed_size.toNat ≤ f.bytes.length) :
    Returns (fun r => r.out.length ≤ e.uncompressed_size.toNat) (extract_data z f e rounds data_off) := by
  rw [extract_data]
  split
  · split
    · exact ⟨_, rfl, Nat.zero_le _⟩
    case isFalse hsizes =>
      rw [not_not] at hsizes
      refine (slice_returns hin).bind fun out hlength => ?_
      exact ⟨_, rfl, length_check_crc (by rw [hlength, hsizes])⟩
  · split
    · exact ⟨_, rfl, (List.length_replicate).le⟩
    · refine inflate_loop_returns hz ⟨?_, ?_⟩
      · dsimp only
        omega
      · exact (Nat.zero_add _).le

theorem extract_returns (hz : z.Respects) (a : archive_t) (e : entry_t) (max_size : UInt64) (rounds : Nat) :
    Returns (fun r => r.out.length ≤ e.uncompressed_size.toNat) (a.extract z e max_size rounds) := by
  rw [archive_t.extract]
  split
  · split
    · exact ⟨_, rfl, Nat.zero_le _⟩
    · refine local_data_returns.bind fun r hr => ?_
      split
      · exact ⟨_, rfl, Nat.zero_le _⟩
      · exact extract_data_returns hz rounds (hr _ rfl)
  · exact ⟨_, rfl, Nat.zero_le _⟩

end

/-- Whatever file is opened, whatever name is looked up in it and whatever entry is extracted from it, for
however long, every read is inside the file, and what is extracted is no longer than the entry says. -/
theorem zip_in_bounds (z : zlib_t) (hz : z.Respects) (data : Option file_t) :
    ∃ a error, archive_t.open data = some (a, error) ∧ (∀ name, (a.find name).isSome) ∧
      ∀ (e : entry_t) (max_size : UInt64) (rounds : Nat), ∃ r, a.extract z e max_size rounds = some r ∧
        r.out.length ≤ e.uncompressed_size.toNat := by
  obtain ⟨⟨a, error⟩, hopen, hvalid⟩ := open_returns data
  exact ⟨a, error, hopen, find_returns hvalid, extract_returns hz a⟩

/-- `a` is stored and holds `hi`; `b` is deflated, with its sizes in a zip64 field, and holds `xyz`. -/
def two_entries : file_t where
  bytes := ascii "PK\x03\x04" ++ List.replicate 10 0 ++ [172, 42, 147, 216, 2, 0, 0, 0, 2, 0, 0, 0, 1, 0, 0, 0] ++ ascii "ahi" ++
    ascii "PK\x03\x04" ++ List.replicate 4 0 ++ [8, 0, 0, 0, 0, 0, 103, 186, 142, 235] ++ List.replicate 8 255 ++
    [1, 0, 0, 0] ++ ascii "b" ++ [1, 3, 0, 252, 255] ++ ascii "xyz" ++
    ascii "PK\x01\x02" ++ List.replicate 12 0 ++ [172, 42, 147, 216, 2, 0, 0, 0, 2, 0, 0, 0, 1] ++ List.replicate 17 0 ++
    ascii "a" ++ ascii "PK\x01\x02" ++ List.replicate 6 0 ++ [8, 0, 0, 0, 0, 0, 103, 186, 142, 235] ++
    List.replicate 8 255 ++ [1, 0, 20] ++ List.replicate 11 0 ++ [33, 0, 0, 0] ++ ascii "b" ++ [1, 0, 16, 0, 3, 0, 0, 0, 0, 0, 0, 0, 8, 0,
      0, 0, 0, 0, 0, 0] ++
    ascii "PK\x05\x06" ++ [0, 0, 0, 0, 2, 0, 2, 0, 114, 0, 0, 0, 72, 0, 0, 0, 0, 0]
  small := by decide +kernel

/-- A round of the checksum that zip files use. -/
def crc_round (c : UInt32) : UInt32 := if c &&& 1 = 1 then (c >>> 1) ^^^ 0xEDB88320 else c >>> 1

/-- Deflate streams of one stored block. -/
def stored_zlib : zlib_t where
  stream := Unit
  init := some ()
  inflate s input room :=
    match input with
    | 1 :: n :: 0 :: _ :: 255 :: rest =>
      if n.toNat ≤ rest.length ∧ n.toNat ≤ room then ⟨.stream_end, n.toNat + 5, rest.take n.toNat, s⟩
      else ⟨.buf_error, 0, [], s⟩
    | _ => ⟨.buf_error, 0, [], s⟩
  msg _ := none
  crc32 crc p := ~~~(p.foldl (fun c b => (crc_round^[8]) (c ^^^ b.toUInt32)) (~~~crc))

private theorem stored_zlib_respects : stored_zlib.Respects := by
  intro s input room
  simp only [stored_zlib]
  split
  · split
    case isTrue hfits =>
      simp only [List.length_cons, List.length_take]
      omega
    case isFalse => exact ⟨Nat.zero_le _, Nat.zero_le _⟩
  · exact ⟨Nat.zero_le _, Nat.zero_le _⟩

/-- Both entries are extracted, and nothing is read outside the file. -/
theorem two_entries_in_bounds :
    ∃ a, archive_t.open (some two_entries) = some (a, none) ∧
      a.table.entries_.map (fun e => (a.extract stored_zlib e 100 1).map extract_t.out) =
        [some (ascii "hi"), some (ascii "xyz")] ∧
      (∀ name, (a.find name).isSome) ∧
      ∀ (e : entry_t) (max_size : UInt64) (rounds : Nat), ∃ r, a.extract stored_zlib e max_size rounds = some r ∧
        r.out.length ≤ e.uncompressed_size.toNat := by
  obtain ⟨a, error, hopen, hfind, hextract⟩ := zip_in_bounds stored_zlib stored_zlib_respects (some two_entries)
  have hboth : (archive_t.open (some two_entries)).map (fun r =>
      (r.2, r.1.table.entries_.map fun e => (r.1.extract stored_zlib e 100 1).map extract_t.out)) =
        some (none, [some (ascii "hi"), some (ascii "xyz")]) := by
    decide +kernel
  rw [hopen, Option.map_some, Option.some.injEq, Prod.mk.injEq] at hboth
  obtain ⟨rfl, hout⟩ := hboth
  exact ⟨a, hopen, hout, hfind, hextract⟩

end slop.core.util.zip
