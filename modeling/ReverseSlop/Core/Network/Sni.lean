import ReverseSlop.Library.Bytes

namespace slop.core.network

open Bytes (At Returns)

-- a read outside the bytes received is `none`

/-- `(d[off] << 8) | d[off + 1]`. -/
def rd16 (d : List UInt8) (off : Nat) : Option Nat := (Bytes.slice 2 d off).map Bytes.of_be

/-- Step over a vector whose length is in one byte. -/
def skip_vector8 (d : List UInt8) (off : Nat) : Option (Option Nat) :=
  if off ≥ d.length then some none else d[off]?.map fun len => some (off + (1 + len.toNat))

/-- Step over a vector whose length is in two bytes. -/
def skip_vector16 (d : List UInt8) (off : Nat) : Option (Option Nat) :=
  if off + 2 > d.length then some none else (rd16 d off).map fun len => some (off + (2 + len))

/-- Where the extensions of a ClientHello start and end. -/
def find_extensions (d : List UInt8) : Option (Option (Nat × Nat)) := do
  if d.length < 6 then return none
  if (← d[0]?) ≠ 0x16 then return none
  if (← d[1]?) ≠ 0x03 then return none
  if 5 ≥ d.length then return none
  if (← d[5]?) ≠ 0x01 then return none
  -- behind the record header, the handshake header, the version and the random bytes
  if 5 + 4 + 34 > d.length then return none
  let some off ← skip_vector8 d (5 + 4 + (2 + 32)) | return none   -- session id
  let some off ← skip_vector16 d off | return none   -- cipher suites
  let some off ← skip_vector8 d off | return none   -- compression methods
  if off + 2 > d.length then return none
  let ext_total ← rd16 d off
  return some (off + 2, off + 2 + ext_total)

/-- The name of a server_name extension whose data has `len` bytes. -/
def server_name (d : List UInt8) (sni len : Nat) : Option (List UInt8) := do
  let kind ← d[sni + 2]?
  if kind = 0 then
    let name_len ← rd16 d (sni + 3)
    if 5 + name_len ≤ len then Bytes.slice name_len d (sni + 5) else return []
  else return []

/-- The name of the first server_name extension from `off` on. -/
def find_server_name (d : List UInt8) (ext_end off : Nat) : Option (List UInt8) :=
  if off + 4 ≤ d.length ∧ off ≤ ext_end then do
    let type ← rd16 d off
    let len ← rd16 d (off + 2)
    if type = 0 ∧ len ≥ 5 then server_name d (off + 4) len
    else find_server_name d ext_end (off + 4 + len)
  else some []
termination_by d.length - off

def extract_sni (d : List UInt8) : Option (List UInt8) := do
  match ← find_extensions d with
  | none => return []
  | some (off, ext_end) => find_server_name d ext_end off

/-- A ClientHello starts the bytes, with its extensions from `off` on. -/
def Extensions (d : List UInt8) (off ext_end : Nat) : Prop :=
  d[0]? = some 0x16 ∧ d[1]? = some 0x03 ∧ d[5]? = some 0x01 ∧
    ∃ (session_id compression : UInt8) (suites ext_total : Nat),
      d[43]? = some session_id ∧ rd16 d (44 + session_id.toNat) = some suites ∧
      d[46 + session_id.toNat + suites]? = some compression ∧
      rd16 d (47 + session_id.toNat + suites + compression.toNat) = some ext_total ∧
      off = 49 + session_id.toNat + suites + compression.toNat ∧ ext_end = off + ext_total

/-- An extension that ends the walk. -/
def IsServerName (d : List UInt8) (off : Nat) : Prop := ∃ len, rd16 d off = some 0 ∧ rd16 d (off + 2) = some len ∧ 5 ≤ len

/-- From an extension the walk comes to another. -/
inductive Comes (d : List UInt8) (ext_end : Nat) : Nat → Nat → Prop where
  | here {off : Nat} : off + 4 ≤ d.length → off ≤ ext_end → Comes d ext_end off off
  | next {off len p : Nat} : off + 4 ≤ d.length → off ≤ ext_end → ¬ IsServerName d off → rd16 d (off + 2) = some len →
      Comes d ext_end (off + 4 + len) p → Comes d ext_end off p

/-- What is read of a server_name extension is there: its type, the length of a host name, the host name. -/
def Inside (d : List UInt8) (off : Nat) : Prop :=
  off + 7 ≤ d.length ∧ (d[off + 6]? = some 0 → off + 9 ≤ d.length ∧
    ∀ len name_len, rd16 d (off + 2) = some len → rd16 d (off + 7) = some name_len → 5 + name_len ≤ len →
      off + 9 + name_len ≤ d.length)

section

variable {d : List UInt8} {off ext_end p len : Nat}

private theorem rd16_returns (hin : off + 2 ≤ d.length) : Returns (fun _ => True) (rd16 d off) := by
  obtain ⟨s, hs⟩ := Option.isSome_iff_exists.mp (Bytes.slice_isSome.mpr hin)
  exact ⟨_, by rw [rd16, hs]; rfl, trivial⟩

private theorem getElem?_returns (hin : off < d.length) : Returns (fun _ => True) d[off]? :=
  ⟨d[off], List.getElem?_eq_getElem hin, trivial⟩

private theorem skip_vector8_returns : Returns (fun _ => True) (skip_vector8 d off) := by
  rw [skip_vector8]
  split
  · exact ⟨none, rfl, trivial⟩
  · exact (getElem?_returns (by omega)).map fun len _ => trivial

private theorem skip_vector16_returns : Returns (fun _ => True) (skip_vector16 d off) := by
  rw [skip_vector16]
  split
  · exact ⟨none, rfl, trivial⟩
  · exact (rd16_returns (by omega)).map fun len _ => trivial

/-- Up to the extensions no read is outside. -/
theorem find_extensions_returns (d : List UInt8) : Returns (fun _ => True) (find_extensions d) := by
  have hstop : Returns (fun _ => True) (some (none : Option (Nat × Nat))) := ⟨none, rfl, trivial⟩
  rw [find_extensions]
  split
  · exact hstop
  refine (getElem?_returns (by omega)).bind fun content _ => ?_
  split
  · exact hstop
  refine (getElem?_returns (by omega)).bind fun major _ => ?_
  split
  · exact hstop
  split
  · exact hstop
  refine (getElem?_returns (by omega)).bind fun kind _ => ?_
  split
  · exact hstop
  split
  · exact hstop
  refine skip_vector8_returns.bind fun session_id _ => ?_
  cases session_id with
  | none => exact hstop
  | some off =>
    refine skip_vector16_returns.bind fun suites _ => ?_
    cases suites with
    | none => exact hstop
    | some off =>
      refine skip_vector8_returns.bind fun compression _ => ?_
      cases compression with
      | none => exact hstop
      | some off =>
        dsimp only
        split
        · exact hstop
        exact (rd16_returns (by omega)).bind fun ext_total _ => ⟨_, rfl, trivial⟩

private theorem rd16_isSome : (rd16 d off).isSome ↔ off + 2 ≤ d.length := by
  rw [rd16, Option.isSome_map, Bytes.slice_isSome]

private theorem skip_vector8_eq {next : Nat} :
    skip_vector8 d off = some (some next) ↔ ∃ n : UInt8, d[off]? = some n ∧ next = off + (1 + n.toNat) := by
  rw [skip_vector8]
  split
  · rename_i hshort
    refine iff_of_false (by simp) ?_
    rintro ⟨n, hn, -⟩
    rw [List.getElem?_eq_none hshort] at hn
    cases hn
  · simp only [Option.map_eq_some_iff, Option.some.injEq]
    exact exists_congr fun n => and_congr_right fun _ => eq_comm

private theorem skip_vector16_eq {next : Nat} :
    skip_vector16 d off = some (some next) ↔ ∃ n, rd16 d off = some n ∧ next = off + (2 + n) := by
  rw [skip_vector16]
  split
  · rename_i hshort
    refine iff_of_false (by simp) ?_
    rintro ⟨n, hn, -⟩
    have hin := rd16_isSome.mp (Option.isSome_iff_exists.mpr ⟨n, hn⟩)
    omega
  · simp only [Option.map_eq_some_iff, Option.some.injEq]
    exact exists_congr fun n => and_congr_right fun _ => eq_comm

private theorem find_extensions_eq : find_extensions d = some (some (off, ext_end)) ↔ Extensions d off ext_end := by
  constructor
  · intro h
    rw [find_extensions] at h
    split at h
    · cases h
    obtain ⟨content, hcontent, h⟩ := Option.bind_eq_some_iff.mp h
    split at h
    · cases h
    rename_i hhandshake
    obtain ⟨major, hmajor, h⟩ := Option.bind_eq_some_iff.mp h
    split at h
    · cases h
    rename_i hthree
    split at h
    · cases h
    obtain ⟨kind, hkind, h⟩ := Option.bind_eq_some_iff.mp h
    split at h
    · cases h
    rename_i hclient
    split at h
    · cases h
    obtain ⟨off1, hsession_id, h⟩ := Option.bind_eq_some_iff.mp h
    cases off1 with
    | none => cases h
    | some off1 =>
      obtain ⟨session_id, hid, rfl⟩ := skip_vector8_eq.mp hsession_id
      obtain ⟨off2, hsuites, h⟩ := Option.bind_eq_some_iff.mp h
      cases off2 with
      | none => cases h
      | some off2 =>
        obtain ⟨suites, hcount, rfl⟩ := skip_vector16_eq.mp hsuites
        obtain ⟨off3, hcompression, h⟩ := Option.bind_eq_some_iff.mp h
        cases off3 with
        | none => cases h
        | some off3 =>
          obtain ⟨compression, hmethods, rfl⟩ := skip_vector8_eq.mp hcompression
          dsimp only at h
          split at h
          · cases h
          obtain ⟨ext_total, hext_total, h⟩ := Option.bind_eq_some_iff.mp h
          cases h
          rw [not_not] at hhandshake hthree hclient
          rw [hhandshake] at hcontent
          rw [hthree] at hmajor
          rw [hclient] at hkind
          refine ⟨hcontent, hmajor, hkind, session_id, compression, suites, ext_total, hid, ?_, ?_, ?_, by omega, rfl⟩
          · rw [← hcount]
            exact congrArg (rd16 d) (by omega)
          · rw [← hmethods]
            exact congrArg (d[·]?) (by omega)
          · rw [← hext_total]
            exact congrArg (rd16 d) (by omega)
  · rintro ⟨hcontent, hmajor, hkind, session_id, compression, suites, ext_total, hsession_id, hsuites, hcompression, htotal,
      rfl, rfl⟩
    have hin := rd16_isSome.mp (Option.isSome_iff_exists.mpr ⟨ext_total, htotal⟩)
    have hoff1 := skip_vector8_eq.mpr ⟨session_id, hsession_id, rfl⟩
    have hoff2 := skip_vector16_eq.mpr ⟨suites, hsuites, rfl⟩
    have hoff3 := skip_vector8_eq.mpr ⟨compression, hcompression, rfl⟩
    rw [show 43 + (1 + session_id.toNat) = 44 + session_id.toNat by omega] at hoff1
    rw [show 44 + session_id.toNat + (2 + suites) = 46 + session_id.toNat + suites by omega] at hoff2
    rw [show 46 + session_id.toNat + suites + (1 + compression.toNat) = 47 + session_id.toNat + suites + compression.toNat by
      omega] at hoff3
    rw [find_extensions, if_neg (by omega), hcontent, Option.bind_eq_bind, Option.bind_some, if_neg (by decide), hmajor,
      Option.bind_some, if_neg (by decide), if_neg (by omega), hkind, Option.bind_some, if_neg (by decide), if_neg (by omega), hoff1]
    simp only [Option.bind_eq_bind, Option.bind_some, hoff2, hoff3]
    rw [if_neg (by omega), htotal, Option.bind_some, show 49 = 47 + 2 from rfl]
    refine congrArg (fun off => some (some (off, off + ext_total))) (by omega)

private theorem IsServerName.comes (hname : IsServerName d off) :
    Comes d ext_end off p ↔ p = off ∧ off + 4 ≤ d.length ∧ off ≤ ext_end := by
  constructor
  · intro h
    cases h with
    | here hin hend => exact ⟨rfl, hin, hend⟩
    | next hin hend hnot => exact absurd hname hnot
  · rintro ⟨rfl, hin, hend⟩
    exact .here hin hend

/-- Behind any other extension the walk goes on. -/
theorem comes_next (hnot : ¬ IsServerName d off) (hin : off + 4 ≤ d.length) (hend : off ≤ ext_end)
    (hlen : rd16 d (off + 2) = some len) : Comes d ext_end off p ↔ p = off ∨ Comes d ext_end (off + 4 + len) p := by
  constructor
  · intro h
    cases h with
    | here => exact .inl rfl
    | next _ _ _ hlen' h =>
      obtain rfl := Option.some.inj (hlen.symm.trans hlen')
      exact .inr h
  · rintro (rfl | h)
    · exact .here hin hend
    · exact .next hin hend hnot hlen h

/-- The reads of a server_name extension are inside exactly when the bytes are there. -/
theorem server_name_isSome (hlen : rd16 d (off + 2) = some len) : (server_name d (off + 4) len).isSome ↔ Inside d off := by
  rw [Inside, server_name]
  cases hkind : d[off + 4 + 2]? with
  | none =>
    have hshort := List.getElem?_eq_none_iff.mp hkind
    exact iff_of_false Bool.false_ne_true (by omega)
  | some kind =>
    obtain ⟨hin, -⟩ := List.getElem?_eq_some_iff.mp hkind
    have hin7 : off + 7 ≤ d.length := by omega
    rw [Option.bind_eq_bind, Option.bind_some]
    by_cases hhost : kind = 0
    · subst hhost
      rw [if_pos rfl]
      cases hname : rd16 d (off + 4 + 3) with
      | none =>
        have hshort : ¬ off + 4 + 3 + 2 ≤ d.length := by
          rw [← rd16_isSome, hname]
          exact Bool.false_ne_true
        exact iff_of_false Bool.false_ne_true fun h => hshort (h.2 rfl).1
      | some name_len =>
        have hin9 : off + 4 + 3 + 2 ≤ d.length := by
          rw [← rd16_isSome, hname]
          rfl
        rw [Option.bind_eq_bind, Option.bind_some]
        by_cases hfits : 5 + name_len ≤ len
        · rw [if_pos hfits, Bytes.slice_isSome]
          constructor
          · intro hin
            refine ⟨hin7, fun _ => ⟨hin9, fun len' name_len' _ hname' _ => ?_⟩⟩
            obtain rfl := Option.some.inj hname'
            exact hin
          · exact fun h => (h.2 rfl).2 len name_len hlen rfl hfits
        · rw [if_neg hfits]
          refine iff_of_true rfl ⟨hin7, fun _ => ⟨hin9, fun len' name_len' hlen' hname' hle => ?_⟩⟩
          obtain rfl := Option.some.inj (hlen.symm.trans hlen')
          obtain rfl := Option.some.inj hname'
          exact absurd hle hfits
    · rw [if_neg hhost]
      exact iff_of_true rfl ⟨hin7, fun hzero => absurd (Option.some.inj hzero) hhost⟩

/-- The walk reads inside exactly when it does at the server_name extension it comes to. -/
theorem find_server_name_isSome :
    (find_server_name d ext_end off).isSome ↔ ∀ p, Comes d ext_end off p → IsServerName d p → Inside d p := by
  fun_induction find_server_name d ext_end off with
  | case1 off h ih =>
    obtain ⟨type, htype, -⟩ := rd16_returns (show off + 2 ≤ d.length by omega)
    obtain ⟨len, hlen, -⟩ := rd16_returns (show off + 2 + 2 ≤ d.length by omega)
    rw [htype, hlen, Option.bind_eq_bind, Option.bind_some, Option.bind_some]
    split
    · rename_i hsni
      obtain ⟨rfl, hlarge⟩ := hsni
      have hname : IsServerName d off := ⟨len, htype, hlen, hlarge⟩
      rw [server_name_isSome hlen]
      constructor
      · intro hin p hp _
        rwa [(hname.comes.mp hp).1]
      · exact fun hall => hall off (.here h.1 h.2) hname
    · rename_i hother
      have hnot : ¬ IsServerName d off := by
        rintro ⟨len', htype', hlen', hlarge⟩
        obtain rfl := Option.some.inj (htype.symm.trans htype')
        obtain rfl := Option.some.inj (hlen.symm.trans hlen')
        exact hother ⟨rfl, hlarge⟩
      rw [ih len]
      simp only [comes_next hnot h.1 h.2 hlen]
      constructor
      · rintro hall p (rfl | hp) hname
        · exact absurd hname hnot
        · exact hall p hp hname
      · exact fun hall p hp => hall p (.inr hp)
  | case2 off h =>
    refine iff_of_true rfl fun p hp => ?_
    cases hp with
    | here hin hend => exact absurd ⟨hin, hend⟩ h
    | next hin hend => exact absurd ⟨hin, hend⟩ h

end

/-- The bytes of a number, the high one first. -/
def be (n v : Nat) : List UInt8 := (Bytes.le n v).reverse

structure extension_t where
  type : Nat
  data : List UInt8

def extension_t.bytes (e : extension_t) : List UInt8 := be 2 e.type ++ (be 2 e.data.length ++ e.data)

/-- The parts of a ClientHello whose server_name extension starts with a host name. -/
structure hello_parts_t where
  minor : UInt8
  version : List UInt8
  random : List UInt8
  session_id : List UInt8
  suites : List UInt8
  compression : List UInt8
  before : List extension_t
  name : List UInt8
  more_names : List UInt8
  more_extensions : List UInt8

section

variable (h : hello_parts_t)

def hello_parts_t.name_list : List UInt8 := [0] ++ (be 2 h.name.length ++ (h.name ++ h.more_names))

def hello_parts_t.server_name : extension_t := ⟨0, be 2 h.name_list.length ++ h.name_list⟩

def hello_parts_t.extensions : List UInt8 := h.before.flatMap extension_t.bytes ++ (h.server_name.bytes ++ h.more_extensions)

def hello_parts_t.body : List UInt8 :=
  h.version ++ (h.random ++ ([h.session_id.length.toUInt8] ++ (h.session_id ++ (be 2 h.suites.length ++ (h.suites ++
    ([h.compression.length.toUInt8] ++ (h.compression ++ (be 2 h.extensions.length ++ h.extensions))))))))

def hello_parts_t.handshake : List UInt8 := [1] ++ (be 3 h.body.length ++ h.body)

/-- The record with the hello. -/
def hello_parts_t.bytes : List UInt8 := [0x16, 0x03, h.minor] ++ (be 2 h.handshake.length ++ h.handshake)

end

/-- A ClientHello in one record: the lengths fit, and there is one server_name extension. -/
structure hello_t where
  parts : hello_parts_t
  version_length : parts.version.length = 2
  random_length : parts.random.length = 32
  session_id_length : parts.session_id.length < 256
  compression_length : parts.compression.length < 256
  before_type : ∀ e ∈ parts.before, e.type ≠ 0 ∧ e.type < 65536
  name_ne : parts.name ≠ []
  record_length : parts.handshake.length < 65536

/-- What is promised: reads inside, and the name of every hello in the buffer. -/
def FindsName (d : List UInt8) : Prop :=
  (extract_sni d).isSome ∧ ∀ (h : hello_t) rest, d = h.parts.bytes ++ rest → extract_sni d = some h.parts.name

section

variable {d s rest : List UInt8} {off ext_end p v : Nat}

@[simp]
private theorem length_be (n v : Nat) : (be n v).length = n := by
  rw [be, List.length_reverse, Bytes.length_le]

private theorem rd16_at (h : At d off (be 2 v)) (hv : v < 65536) : rd16 d off = some v := by
  rw [rd16, h.slice (length_be 2 v) (by decide), Option.map_some, Bytes.of_be, be, List.reverse_reverse, Bytes.of_le_le hv]

private theorem skip_vector8_at {n : Nat} (next : Nat) (h : At d off [n.toUInt8]) (hn : n < 256) (hnext : next = off + (1 + n)) :
    skip_vector8 d off = some (some next) := by
  have hin := h.length_le (by simp)
  have hget := (Bytes.at_cons.mp h).1
  have htoNat : n.toUInt8.toNat = n := by
    rw [Nat.toUInt8_eq, UInt8.toNat_ofNat']
    exact Nat.mod_eq_of_lt hn
  rw [List.length_singleton] at hin
  rw [skip_vector8, if_neg (by omega), hget, Option.map_some, htoNat, hnext]

private theorem skip_vector16_at (next : Nat) (h : At d off (be 2 v)) (hv : v < 65536) (hnext : next = off + (2 + v)) :
    skip_vector16 d off = some (some next) := by
  have hin := h.length_le (List.ne_nil_of_length_pos (by rw [length_be]; decide))
  rw [length_be] at hin
  rw [skip_vector16, if_neg (by omega), rd16_at h hv, Option.map_some, hnext]

/-- The extensions of a hello are found. -/
theorem find_extensions_hello (h : hello_t) (hd : At d 0 h.parts.bytes) :
    ∃ off, find_extensions d = some (some (off, off + h.parts.extensions.length)) ∧ At d off h.parts.extensions := by
  have hsize := h.record_length
  simp only [hello_parts_t.handshake, hello_parts_t.body, List.length_append, length_be, List.length_singleton] at hsize
  simp only [hello_parts_t.bytes, hello_parts_t.handshake, hello_parts_t.body, Bytes.at_append, length_be, List.length_append,
    List.length_cons, List.length_nil, h.version_length, h.random_length, Nat.zero_add, Nat.reduceAdd] at hd
  obtain ⟨hrecord, -, hkind, -, -, -, hsid, -, hsuites, -, hcompression, -, hlength, hext⟩ := hd
  obtain ⟨hcontent, hrecord⟩ := Bytes.at_cons.mp hrecord
  have hmajor := (Bytes.at_cons.mp hrecord).1
  have hclient := (Bytes.at_cons.mp hkind).1
  have hin := hlength.length_le (List.ne_nil_of_length_pos (by rw [length_be]; decide))
  rw [length_be] at hin
  refine ⟨_, ?_, hext⟩
  rw [find_extensions, if_neg (by omega), hcontent, Option.bind_eq_bind, Option.bind_some, if_neg (by decide), hmajor,
    Option.bind_some, if_neg (by decide), if_neg (by omega), hclient, Option.bind_some, if_neg (by decide), if_neg (by omega),
    skip_vector8_at (44 + h.parts.session_id.length) hsid h.session_id_length (by omega)]
  simp only [Option.bind_eq_bind, Option.bind_some]
  rw [skip_vector16_at (44 + h.parts.session_id.length + 2 + h.parts.suites.length) hsuites (by omega) (by omega)]
  simp only [Option.bind_some]
  rw [skip_vector8_at (44 + h.parts.session_id.length + 2 + h.parts.suites.length + 1 + h.parts.compression.length) hcompression
    h.compression_length (by omega)]
  simp only [Option.bind_some]
  rw [if_neg (by omega), rd16_at hlength (by omega)]
  rfl

/-- The name is read from the extension. -/
theorem server_name_hello (h : hello_t) (hd : At d off h.parts.server_name.data) (hlen : h.parts.server_name.data.length < 65536) :
    server_name d off h.parts.server_name.data.length = some h.parts.name := by
  simp only [hello_parts_t.server_name, hello_parts_t.name_list, List.length_append, length_be, List.length_singleton] at hlen ⊢
  simp only [hello_parts_t.server_name, hello_parts_t.name_list, Bytes.at_append, length_be, List.length_singleton] at hd
  obtain ⟨-, hkind, hname_len, hname, -⟩ := hd
  rw [server_name, (Bytes.at_cons.mp hkind).1, Option.bind_eq_bind, Option.bind_some, if_pos rfl,
    rd16_at hname_len (by omega), Option.bind_eq_bind, Option.bind_some, if_pos (by omega)]
  exact hname.slice rfl (List.length_pos_iff.mpr h.name_ne)

/-- The walk over the extensions of a hello ends at the host name. -/
theorem find_server_name_hello (h : hello_t) {before : List extension_t}
    (hd : At d off (before.flatMap extension_t.bytes ++ (h.parts.server_name.bytes ++ rest)))
    (hbefore : ∀ e ∈ before, e.type ≠ 0 ∧ e.type < 65536 ∧ e.data.length < 65536)
    (hlen : h.parts.server_name.data.length < 65536) (hend : off + (before.flatMap extension_t.bytes).length ≤ ext_end) :
    find_server_name d ext_end off = some h.parts.name := by
  induction before generalizing off with
  | nil =>
    rw [List.flatMap_nil, List.nil_append, Bytes.at_append, extension_t.bytes, Bytes.at_append, Bytes.at_append] at hd
    simp only [length_be] at hd
    obtain ⟨⟨htype, hsize, hdata⟩, -⟩ := hd
    have hin := hsize.length_le (List.ne_nil_of_length_pos (by rw [length_be]; decide))
    rw [length_be] at hin
    have hlarge : h.parts.server_name.data.length ≥ 5 := by
      simp only [hello_parts_t.server_name, hello_parts_t.name_list, List.length_append, length_be, List.length_singleton]
      omega
    rw [List.flatMap_nil, List.length_nil] at hend
    rw [find_server_name, if_pos ⟨by omega, by omega⟩, rd16_at htype (Nat.zero_lt_succ 65535), Option.bind_eq_bind, Option.bind_some,
      rd16_at hsize hlen, Option.bind_some, if_pos ⟨rfl, hlarge⟩]
    exact server_name_hello h hdata hlen
  | cons e before ih =>
    obtain ⟨⟨hother, hsmall, hdata_len⟩, hbefore⟩ := List.forall_mem_cons.mp hbefore
    rw [List.flatMap_cons, List.length_append] at hend
    rw [List.flatMap_cons, List.append_assoc, Bytes.at_append, extension_t.bytes, Bytes.at_append, Bytes.at_append] at hd
    simp only [length_be, List.length_append, extension_t.bytes] at hd hend
    obtain ⟨⟨htype, hsize, -⟩, hrest⟩ := hd
    have hin := hsize.length_le (List.ne_nil_of_length_pos (by rw [length_be]; decide))
    rw [length_be] at hin
    rw [find_server_name, if_pos ⟨by omega, by omega⟩, rd16_at htype hsmall, Option.bind_eq_bind, Option.bind_some,
      rd16_at hsize hdata_len, Option.bind_some, if_neg fun h => hother h.1]
    have hnext : off + (2 + (2 + e.data.length)) = off + 4 + e.data.length := by omega
    rw [hnext] at hrest
    exact ih hrest hbefore (by omega)

/-- The name of a hello is found. -/
theorem extract_sni_hello (h : hello_t) (rest : List UInt8) : extract_sni (h.parts.bytes ++ rest) = some h.parts.name := by
  have hd : At (h.parts.bytes ++ rest) 0 h.parts.bytes := List.prefix_append _ _
  obtain ⟨off, hfound, hext⟩ := find_extensions_hello h hd
  have hsize := h.record_length
  have hserver : h.parts.server_name.bytes.length = 4 + h.parts.server_name.data.length := by
    simp only [extension_t.bytes, List.length_append, length_be]
    omega
  simp only [hello_parts_t.handshake, hello_parts_t.body, hello_parts_t.extensions, List.length_append, length_be,
    List.length_singleton, hserver] at hsize
  rw [extract_sni, hfound]
  refine find_server_name_hello h hext (fun e he => ?_) (by omega) ?_
  · obtain ⟨hother, hsmall⟩ := h.before_type e he
    obtain ⟨l, r, hlr⟩ := List.append_of_mem he
    have hdata : e.data.length ≤ (h.parts.before.flatMap extension_t.bytes).length := by
      simp only [hlr, List.flatMap_append, List.flatMap_cons, List.length_append, extension_t.bytes]
      omega
    exact ⟨hother, hsmall, by omega⟩
  · rw [hello_parts_t.extensions, List.length_append]
    omega

end

/-- A hello of which the bytes behind the header of the server_name extension have not come yet. -/
def truncated_hello : List UInt8 :=
  [0x16, 3, 1, 0, 56, 1, 0, 0, 52, 3, 3] ++ List.replicate 32 0 ++ [0, 0, 2, 0x13, 1, 1, 0, 0, 9, 0, 0, 0, 5]

theorem truncated_hello_reads_outside : ¬ FindsName truncated_hello := by
  rintro ⟨hsafe, -⟩
  have hfound : find_extensions truncated_hello = some (some (52, 61)) := by decide
  rw [extract_sni, hfound] at hsafe
  have hin := find_server_name_isSome.mp hsafe 52 (.here (by decide) (by decide)) ⟨5, by decide, by decide, Nat.le_refl 5⟩
  exact absurd hin.1 (by decide)

/-- Reads are inside, and the name of a hello is found, unless the buffer ends in a server_name extension to be read. -/
theorem extract_sni_iff (d : List UInt8) :
    FindsName d ↔ ∀ off ext_end, Extensions d off ext_end → ∀ p, Comes d ext_end off p → IsServerName d p → Inside d p := by
  constructor
  · rintro ⟨hsafe, -⟩ off ext_end hfound
    rw [extract_sni, find_extensions_eq.mpr hfound] at hsafe
    exact find_server_name_isSome.mp hsafe
  · intro hall
    refine ⟨?_, fun h rest hd => ?_⟩
    · obtain ⟨r, hr, -⟩ := find_extensions_returns d
      rw [extract_sni, hr]
      cases r with
      | none => rfl
      | some r => exact find_server_name_isSome.mpr (hall r.1 r.2 (find_extensions_eq.mp hr))
    · rw [hd]
      exact extract_sni_hello h rest

end slop.core.network
