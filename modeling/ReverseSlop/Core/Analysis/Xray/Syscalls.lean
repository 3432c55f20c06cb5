import ReverseSlop.Core.Analysis.Xray.Gadgets
import ReverseSlop.Library.Bytes

namespace slop.core.analysis.xray

/-- A pattern: the bytes of a stub in the order in which they are read, and the places of its number and of the byte
that the loop meets it at. -/
structure stub_t where
  pattern : String
  bytes : List (Nat × UInt8)
  ssn : Nat
  found : Nat
  length : Nat
  deriving DecidableEq

def mov_r10_rcx : stub_t := ⟨"mov_r10_rcx", [(0, 0x4C), (1, 0x8B), (2, 0xD1), (3, 0xB8), (8, 0x0F), (9, 0x05)], 4, 0, 10⟩

def mov_eax_syscall : stub_t := ⟨"mov_eax_syscall", [(0, 0xB8), (5, 0x0F), (6, 0x05)], 1, 0, 7⟩

def int_2e : stub_t := ⟨"int_2e", [(5, 0xCD), (6, 0x2E), (0, 0xB8)], 1, 5, 7⟩

def stubs : List stub_t := [mov_r10_rcx, mov_eax_syscall, int_2e]

structure syscall_hit_t where
  address : UInt64
  ssn : UInt32
  pattern : String

/-- The comparisons of a pattern up to the first that fails. There is no answer if a byte is read that is not in
the buffer. -/
def compares (buf : List UInt8) (s : Nat) : List (Nat × UInt8) → Option Bool
  | [] => some true
  | (off, b) :: bytes =>
    match buf[s + off]? with
    | none => none
    | some c => if c = b then compares buf s bytes else some false

def report_stub (start : UInt64) (buf : List UInt8) (p : stub_t) (s : Nat) : Option (List syscall_hit_t) :=
  (Bytes.read 4 buf (s + p.ssn)).map fun ssn =>
    if ssn.toUInt32 ≤ 0x1000 then [⟨start + s.toUInt64, ssn.toUInt32, p.pattern⟩] else []

def try_stub (start : UInt64) (buf : List UInt8) (p : stub_t) (s skip : Nat) (other : Option (List syscall_hit_t × Nat)) :
    Option (List syscall_hit_t × Nat) :=
  match compares buf s p.bytes with
  | none => none
  | some true => (report_stub start buf p s).map fun hits => (hits, skip)
  | some false => other

/-- One turn of the loop, with the bytes that it skips. -/
def scan_stub (start : UInt64) (buf : List UInt8) (i : Nat) : Option (List syscall_hit_t × Nat) :=
  try_stub start buf mov_r10_rcx i 9 <|
    try_stub start buf mov_eax_syscall i 6 <|
      if i < 5 then some ([], 0) else try_stub start buf int_2e (i - 5) 0 (some ([], 0))

def scan_stubs (start : UInt64) (buf : List UInt8) (i : Nat) : Option (List syscall_hit_t) :=
  if i + 7 ≤ buf.length then
    match scan_stub start buf i with
    | none => none
    | some (hits, skip) => (scan_stubs start buf (i + skip + 1)).map (hits ++ ·)
  else some []
termination_by buf.length - i

def syscall_ranges (img : image_ref_t) (va size : UInt64) : List (UInt64 × UInt64) :=
  if va ≠ 0 ∧ size ≠ 0 then [(va, size)]
  else
    (img.pe.sections.filter fun s => s.is_executable ∧ s.raw_size > 0).map fun s =>
      (img.base + s.rva.toUInt64, (min s.raw_size s.virtual_size).toUInt64)

def scan_range (img : image_ref_t) (range : UInt64 × UInt64) : Option (List syscall_hit_t) :=
  if range.2 < 6 then some []
  else
    match read_img img range.1 range.2.toNat with
    | none => some []
    | some buf => scan_stubs range.1 buf 0

def scan_ranges (img : image_ref_t) : List (UInt64 × UInt64) → Option (List syscall_hit_t)
  | [] => some []
  | range :: ranges =>
    match scan_range img range with
    | none => none
    | some hits => (scan_ranges img ranges).map (hits ++ ·)

/-- The stubs of a range, or of all executable sections. There is no result if the loop reads behind its buffer. -/
def detect_syscalls (img : image_ref_t) (va size : UInt64) : Option (List syscall_hit_t) :=
  scan_ranges img (syscall_ranges img va size)

/-- A pattern at a place, with a number. -/
structure site_t where
  stub : stub_t
  place : Nat
  ssn : UInt32

/-- The bytes of a pattern are at a place. -/
def stub_t.At (p : stub_t) (buf : List UInt8) (s : Nat) : Prop := ∀ x ∈ p.bytes, buf[s + x.1]? = some x.2

instance (p : stub_t) (buf : List UInt8) (s : Nat) : Decidable (p.At buf s) :=
  inferInstanceAs (Decidable (∀ x ∈ p.bytes, buf[s + x.1]? = some x.2))

/-- A stub that is all in the buffer, with the number of a system call. -/
structure site_t.In (x : site_t) (buf : List UInt8) : Prop where
  mem : x.stub ∈ stubs
  at_place : x.stub.At buf x.place
  number : (Bytes.read 4 buf (x.place + x.stub.ssn)).map Nat.toUInt32 = some x.ssn
  small : x.ssn ≤ 0x1000

def site_t.found (x : site_t) : Nat := x.place + x.stub.found

def site_t.hit (x : site_t) (start : UInt64) : syscall_hit_t := ⟨start + x.place.toUInt64, x.ssn, x.stub.pattern⟩

def site_t.Overlaps (x y : site_t) : Prop := x.place < y.place + y.stub.length ∧ y.place < x.place + x.stub.length

/-- Every stub is reported but those that overlap one reported before. -/
def AllReported (start : UInt64) (buf : List UInt8) (out : List syscall_hit_t) : Prop :=
  ∀ x : site_t, x.In buf →
    (∀ y : site_t, y.In buf → y.hit start ∈ out → y.found < x.found → ¬ y.Overlaps x) → x.hit start ∈ out

/-- No read is behind the buffer, and each range has its part of the result, with all of its stubs. -/
def StubsRight (img : image_ref_t) (va size : UInt64) : Prop :=
  ∃ outs, detect_syscalls img va size = some outs.flatten ∧
    List.Forall₂ (fun range out => scan_range img range = some out ∧
      ∀ buf, read_img img range.1 range.2.toNat = some buf → AllReported range.1 buf out) (syscall_ranges img va size) outs

/-- The bytes that the loop skips behind a place. -/
def skip_at (buf : List UInt8) (i : Nat) : Nat := if mov_r10_rcx.At buf i then 9 else if mov_eax_syscall.At buf i then 6 else 0

/-- The places that the loop comes to from one on. -/
def places (buf : List UInt8) (i : Nat) : List Nat :=
  if i + 7 ≤ buf.length then i :: places buf (i + skip_at buf i + 1) else []
termination_by buf.length - i

/-- The first four bytes of `mov_r10_rcx`, at the end of the buffer. -/
def Overread (buf : List UInt8) (i : Nat) : Prop :=
  (∀ x ∈ mov_r10_rcx.bytes.take 4, buf[i + x.1]? = some x.2) ∧
    (buf.length ≤ i + 8 ∨ buf[i + 8]? = some 0x0F ∧ buf.length ≤ i + 9)

/-- A pattern with another number, which the loop skips. -/
def Swallowed (buf : List UInt8) (i : Nat) : Prop :=
  ∃ j ∈ places buf 0, ∃ p ∈ [mov_r10_rcx, mov_eax_syscall], p.At buf j ∧ j < i ∧ i < j + p.length ∧
    ∃ ssn, (Bytes.read 4 buf (j + p.ssn)).map Nat.toUInt32 = some ssn ∧ 0x1000 < ssn

/-- The loop comes to no `mov r10, rcx` that runs out of the buffer. It comes to all stubs that no earlier one overlaps:
none is in the skip of another number, and none with `int 2E` has fewer than five bytes behind it. -/
structure StubsMeet (buf : List UInt8) : Prop where
  inside : ∀ i ∈ places buf 0, ¬ Overread buf i
  met : ∀ x : site_t, x.In buf →
    (∀ y : site_t, y.In buf → y.found ∈ places buf 0 → y.found < x.found → ¬ y.Overlaps x) →
      x.found + 7 ≤ buf.length ∧ ¬ Swallowed buf x.found

section

variable {start : UInt64} {buf : List UInt8} {p : stub_t} {i j s skip n : Nat} {bytes : List (Nat × UInt8)} {x y : site_t}
  {hits out : List syscall_hit_t} {hit : syscall_hit_t} {other : Option (List syscall_hit_t × Nat)}

theorem compares_eq_true : compares buf s bytes = some true ↔ ∀ x ∈ bytes, buf[s + x.1]? = some x.2 := by
  induction bytes with
  | nil => exact iff_of_true rfl (List.forall_mem_nil _)
  | cons x bytes ih =>
    rw [compares, List.forall_mem_cons]
    cases buf[s + x.1]? with
    | none => exact iff_of_false (Option.some_ne_none _).symm fun h => Option.some_ne_none _ h.1.symm
    | some c =>
      dsimp only
      rw [Option.some_inj]
      split
      · rename_i hc
        rw [ih, and_iff_right hc]
      · rename_i hc
        exact iff_of_false (by decide) fun h => hc h.1

theorem compares_append (bytes bytes' : List (Nat × UInt8)) :
    compares buf s (bytes ++ bytes') =
      if compares buf s bytes = some true then compares buf s bytes' else compares buf s bytes := by
  induction bytes with
  | nil => rfl
  | cons x bytes ih =>
    rw [List.cons_append, compares, compares]
    cases buf[s + x.1]? with
    | none => rfl
    | some c =>
      dsimp only
      split
      · exact ih
      · rfl

theorem compares_ne_none (hinside : ∀ x ∈ bytes, s + x.1 < buf.length) : compares buf s bytes ≠ none := by
  induction bytes with
  | nil => exact Option.some_ne_none _
  | cons x bytes ih =>
    obtain ⟨hx, hbytes⟩ := List.forall_mem_cons.mp hinside
    rw [compares, List.getElem?_eq_getElem hx]
    dsimp only
    split
    · exact ih hbytes
    · exact Option.some_ne_none _

/-- Only the longest pattern is read behind the bound of the loop. -/
theorem compares_mov_r10_rcx (hi : i + 7 ≤ buf.length) : compares buf i mov_r10_rcx.bytes = none ↔ Overread buf i := by
  have hsplit : mov_r10_rcx.bytes = mov_r10_rcx.bytes.take 4 ++ [(8, 0x0F), (9, 0x05)] := rfl
  have hfour : ∀ x ∈ mov_r10_rcx.bytes.take 4, i + x.1 < buf.length := by
    intro x hx
    have hlt : ∀ x ∈ mov_r10_rcx.bytes.take 4, x.1 < 4 := by decide
    have := hlt x hx
    omega
  rw [hsplit, compares_append, Overread, ← compares_eq_true]
  split
  · rename_i htrue
    rw [and_iff_right htrue, compares]
    by_cases h8 : i + 8 < buf.length
    · rw [List.getElem?_eq_getElem h8, Option.some_inj]
      dsimp only
      split
      · rename_i hsys
        rw [and_iff_right hsys, compares]
        by_cases h9 : i + 9 < buf.length
        · rw [List.getElem?_eq_getElem h9]
          dsimp only
          refine iff_of_false ?_ (by omega)
          split
          · exact Option.some_ne_none _
          · exact Option.some_ne_none _
        · rw [List.getElem?_eq_none (by omega)]
          exact iff_of_true rfl (by omega)
      · rename_i hsys
        refine iff_of_false (Option.some_ne_none _) ?_
        rintro (hlen | ⟨hother, -⟩)
        · omega
        · exact hsys hother
    · rw [List.getElem?_eq_none (by omega)]
      exact iff_of_true rfl (.inl (by omega))
  · rename_i hfalse
    exact iff_of_false (compares_ne_none hfour) fun h => hfalse h.1

theorem stub_t.At.inside (hat : p.At buf s) (hp : p ∈ stubs) : s + p.length ≤ buf.length := by
  have hlast : ∀ p ∈ stubs, ∃ x ∈ p.bytes, x.1 + 1 = p.length := by decide
  obtain ⟨x, hx, hlength⟩ := hlast p hp
  have hlt := (List.getElem?_eq_some_iff.mp (hat x hx)).1
  omega

theorem stub_t.At.number (hat : p.At buf s) (hp : p ∈ stubs) :
    ∃ ssn, (Bytes.read 4 buf (s + p.ssn)).map Nat.toUInt32 = some ssn := by
  have hbefore : ∀ p ∈ stubs, p.ssn + 4 ≤ p.length := by decide
  have hinside := hat.inside hp
  have hnumber := hbefore p hp
  rw [Bytes.read, if_pos (by omega)]
  exact ⟨_, rfl⟩

/-- Where the loop meets one pattern, it meets no other. -/
theorem stub_t.At.unique {p' : stub_t} {s' : Nat} (hat : p.At buf s) (hat' : p'.At buf s') (hp : p ∈ stubs) (hp' : p' ∈ stubs)
    (hfound : s + p.found = s' + p'.found) : p = p' := by
  have hfirst : ∀ p ∈ stubs, ∃ x ∈ p.bytes, x.1 = p.found := by decide
  have hdiffer : ∀ p ∈ stubs, ∀ p' ∈ stubs, ∀ x ∈ p.bytes, ∀ x' ∈ p'.bytes, x.1 = p.found → x'.1 = p'.found →
      x.2 = x'.2 → p = p' := by decide
  obtain ⟨x, hx, hxfound⟩ := hfirst p hp
  obtain ⟨x', hx', hxfound'⟩ := hfirst p' hp'
  have hbyte := hat x hx
  rw [hxfound, hfound, ← hxfound', hat' x' hx'] at hbyte
  exact hdiffer p hp p' hp' x hx x' hx' hxfound hxfound' (Option.some.inj hbyte).symm

theorem try_stub_at (hat : p.At buf s) (hp : p ∈ stubs) :
    ∃ hits, try_stub start buf p s skip other = some (hits, skip) ∧
      ∀ hit, hit ∈ hits ↔ ∃ x : site_t, x.In buf ∧ x.found = s + p.found ∧ x.hit start = hit := by
  obtain ⟨ssn, hssn⟩ := hat.number hp
  obtain ⟨n, hread, rfl⟩ := Option.map_eq_some_iff.mp hssn
  rw [try_stub, compares_eq_true.mpr hat, report_stub, hread]
  refine ⟨_, rfl, fun hit => ?_⟩
  have hone (x : site_t) (hx : x.In buf) (hfound : x.found = s + p.found) : x = ⟨p, s, n.toUInt32⟩ := by
    obtain ⟨p', s', ssn'⟩ := x
    obtain rfl : p' = p := hx.at_place.unique hat hx.mem hp hfound
    obtain rfl : s' = s := Nat.add_right_cancel hfound
    rw [← Option.some.inj (hx.number.symm.trans hssn)]
  dsimp only
  split
  · rename_i hsmall
    rw [List.mem_singleton]
    constructor
    · rintro rfl
      exact ⟨⟨p, s, n.toUInt32⟩, ⟨hp, hat, hssn, hsmall⟩, rfl, rfl⟩
    · rintro ⟨x, hx, hfound, rfl⟩
      rw [hone x hx hfound]
      rfl
  · rename_i hlarge
    refine iff_of_false List.not_mem_nil ?_
    rintro ⟨x, hx, hfound, -⟩
    rw [hone x hx hfound] at hx
    exact hlarge hx.small

theorem try_stub_not (hread : compares buf s p.bytes ≠ none) (hnot : ¬ p.At buf s) :
    try_stub start buf p s skip other = other := by
  rw [try_stub]
  split
  · exact absurd ‹_› hread
  · exact absurd (compares_eq_true.mp ‹_›) hnot
  · rfl

theorem scan_stub_none (hi : i + 7 ≤ buf.length) (hover : Overread buf i) : scan_stub start buf i = none := by
  rw [scan_stub, try_stub, (compares_mov_r10_rcx hi).mpr hover]

/-- A turn reports the stub that the loop meets there, if there is one. -/
theorem scan_stub_some (start : UInt64) (hi : i + 7 ≤ buf.length) (hover : ¬ Overread buf i) :
    ∃ hits, scan_stub start buf i = some (hits, skip_at buf i) ∧
      ∀ hit, hit ∈ hits ↔ ∃ x : site_t, x.In buf ∧ x.found = i ∧ x.hit start = hit := by
  rw [scan_stub, skip_at]
  by_cases hr10 : mov_r10_rcx.At buf i
  · rw [if_pos hr10]
    exact try_stub_at hr10 (by decide)
  rw [if_neg hr10, try_stub_not (mt (compares_mov_r10_rcx hi).mp hover) hr10]
  by_cases heax : mov_eax_syscall.At buf i
  · rw [if_pos heax]
    exact try_stub_at heax (by decide)
  have hread : compares buf i mov_eax_syscall.bytes ≠ none := by
    refine compares_ne_none fun x hx => ?_
    have hlt : ∀ x ∈ mov_eax_syscall.bytes, x.1 < 7 := by decide
    have := hlt x hx
    omega
  rw [if_neg heax, try_stub_not hread heax]
  have hnone (hint : 5 ≤ i → ¬ int_2e.At buf (i - 5)) (hit : syscall_hit_t) :
      hit ∈ [] ↔ ∃ x : site_t, x.In buf ∧ x.found = i ∧ x.hit start = hit := by
    refine iff_of_false List.not_mem_nil ?_
    rintro ⟨⟨p, s, ssn⟩, hx, rfl, -⟩
    have hmem : p = mov_r10_rcx ∨ p = mov_eax_syscall ∨ p = int_2e := by simpa [stubs] using hx.mem
    rcases hmem with rfl | rfl | rfl
    · exact hr10 hx.at_place
    · exact heax hx.at_place
    · exact hint (Nat.le_add_left 5 s) hx.at_place
  by_cases hlow : i < 5
  · rw [if_pos hlow]
    exact ⟨[], rfl, hnone fun hle => absurd hlow (Nat.not_lt.mpr hle)⟩
  rw [if_neg hlow]
  obtain ⟨s, rfl⟩ := Nat.exists_eq_add_of_le' (Nat.not_lt.mp hlow)
  rw [Nat.add_sub_cancel] at hnone ⊢
  by_cases hint : int_2e.At buf s
  · exact try_stub_at hint (by decide)
  · refine ⟨[], try_stub_not (compares_ne_none fun x hx => ?_) hint, hnone fun _ => hint⟩
    have hlt : ∀ x ∈ int_2e.bytes, x.1 < 7 := by decide
    have := hlt x hx
    omega

theorem scan_stubs_none (hover : ∃ j ∈ places buf i, Overread buf j) : scan_stubs start buf i = none := by
  fun_induction places buf i with
  | case1 i hi ih =>
    rw [scan_stubs, if_pos hi]
    by_cases hhere : Overread buf i
    · rw [scan_stub_none hi hhere]
    · obtain ⟨hits, hrun, -⟩ := scan_stub_some start hi hhere
      rw [hrun]
      dsimp only
      rw [ih (((List.exists_mem_cons_iff _ _ _).mp hover).resolve_left hhere)]
      rfl
  | case2 i hi =>
    obtain ⟨j, hj, -⟩ := hover
    exact absurd hj List.not_mem_nil

theorem scan_stubs_some (start : UInt64) (hover : ∀ j ∈ places buf i, ¬ Overread buf j) :
    ∃ out, scan_stubs start buf i = some out ∧
      ∀ hit, hit ∈ out ↔ ∃ x : site_t, x.In buf ∧ x.found ∈ places buf i ∧ x.hit start = hit := by
  fun_induction places buf i with
  | case1 i hi ih =>
    obtain ⟨hhere, hrest⟩ := List.forall_mem_cons.mp hover
    obtain ⟨hits, hrun, hhits⟩ := scan_stub_some start hi hhere
    obtain ⟨out, hout, hmem⟩ := ih hrest
    rw [scan_stubs, if_pos hi, hrun]
    dsimp only
    rw [hout]
    refine ⟨hits ++ out, rfl, fun hit => ?_⟩
    rw [List.mem_append, hhits, hmem, ← exists_or]
    refine exists_congr fun x => ?_
    rw [List.mem_cons, or_and_right, and_or_left]
  | case2 i hi =>
    rw [scan_stubs, if_neg hi]
    refine ⟨[], rfl, fun hit => iff_of_false List.not_mem_nil ?_⟩
    rintro ⟨x, -, hx, -⟩
    exact List.not_mem_nil hx

theorem le_of_mem_places (hj : j ∈ places buf i) : i ≤ j ∧ j + 7 ≤ buf.length := by
  fun_induction places buf i with
  | case1 i hi ih =>
    rcases List.mem_cons.mp hj with rfl | hj
    · exact ⟨le_rfl, hi⟩
    · have := ih hj
      omega
  | case2 i hi => exact absurd hj List.not_mem_nil

/-- The loop comes to a place before its bound, or skips it. -/
theorem mem_places_or_skipped (hle : i ≤ n) (hn : n + 7 ≤ buf.length) :
    n ∈ places buf i ∨ ∃ j ∈ places buf i, j < n ∧ n ≤ j + skip_at buf j := by
  fun_induction places buf i with
  | case1 i hi ih =>
    rcases Nat.eq_or_lt_of_le hle with rfl | hlt
    · exact .inl List.mem_cons_self
    by_cases hskip : n ≤ i + skip_at buf i
    · exact .inr ⟨i, List.mem_cons_self, hlt, hskip⟩
    · rcases ih (by omega) with hmem | ⟨j, hj, hskipped⟩
      · exact .inl (List.mem_cons_of_mem _ hmem)
      · exact .inr ⟨j, List.mem_cons_of_mem _ hj, hskipped⟩
  | case2 i hi => omega

theorem skip_lt_of_mem_places (hn : n ∈ places buf i) (hj : j ∈ places buf i) (hlt : j < n) : j + skip_at buf j < n := by
  fun_induction places buf i with
  | case1 i hi ih =>
    rcases List.mem_cons.mp hn with rfl | hn
    · rcases List.mem_cons.mp hj with rfl | hj
      · omega
      · have := (le_of_mem_places hj).1
        omega
    · rcases List.mem_cons.mp hj with rfl | hj
      · have := (le_of_mem_places hn).1
        omega
      · exact ih hn hj
  | case2 i hi => exact absurd hn List.not_mem_nil

/-- What is skipped behind a place is in a stub there. -/
theorem le_skip_at_iff (hlt : j < n) :
    n ≤ j + skip_at buf j ↔ ∃ p ∈ [mov_r10_rcx, mov_eax_syscall], p.At buf j ∧ n < j + p.length := by
  have hexists : (∃ p ∈ [mov_r10_rcx, mov_eax_syscall], p.At buf j ∧ n < j + p.length) ↔
      mov_r10_rcx.At buf j ∧ n < j + 10 ∨ mov_eax_syscall.At buf j ∧ n < j + 7 := by
    simp only [List.mem_cons, List.not_mem_nil, or_false, exists_eq_or_imp, exists_eq_left]
    rfl
  rw [hexists, skip_at]
  by_cases hr10 : mov_r10_rcx.At buf j
  · rw [if_pos hr10, and_iff_right hr10]
    omega
  rw [if_neg hr10, or_iff_right fun h => hr10 h.1]
  by_cases heax : mov_eax_syscall.At buf j
  · rw [if_pos heax, and_iff_right heax]
    omega
  · rw [if_neg heax]
    exact iff_of_false (by omega) fun h => heax h.1

/-- The hit of a stub tells which one it is. -/
theorem site_t.In.eq_of_hit (hlen : buf.length < 2 ^ 64) (hx : x.In buf) (hy : y.In buf) (hhit : x.hit start = y.hit start) :
    x = y := by
  obtain ⟨p, s, ssn⟩ := x
  obtain ⟨p', s', ssn'⟩ := y
  have hpattern : ∀ p ∈ stubs, ∀ p' ∈ stubs, p.pattern = p'.pattern → p = p' := by decide
  obtain ⟨haddress, rfl, hname⟩ := syscall_hit_t.mk.inj hhit
  obtain rfl : p = p' := hpattern p hx.mem p' hy.mem hname
  have hinside := hx.at_place.inside hx.mem
  have hinside' := hy.at_place.inside hy.mem
  dsimp only at hinside hinside'
  obtain rfl : s = s' := by
    have hplace : s.toUInt64.toNat = s'.toUInt64.toNat := congrArg UInt64.toNat ((UInt64.add_right_inj start).mp haddress)
    rw [Nat.toUInt64_eq, Nat.toUInt64_eq, UInt64.toNat_ofNat', UInt64.toNat_ofNat'] at hplace
    rwa [Nat.mod_eq_of_lt (by omega), Nat.mod_eq_of_lt (by omega)] at hplace
  rfl

/-- A stub that the loop skips is in one that is reported, or in the skip of another number. -/
theorem overlapped_of_skipped (hx : x.In buf) (hj : j ∈ places buf 0) (hlt : j < x.found)
    (hskip : x.found ≤ j + skip_at buf j) :
    Swallowed buf x.found ∨ ∃ y : site_t, y.In buf ∧ y.found ∈ places buf 0 ∧ y.found < x.found ∧ y.Overlaps x := by
  have hwithin : ∀ p ∈ stubs, p.found < p.length := by decide
  have hstart : ∀ p ∈ [mov_r10_rcx, mov_eax_syscall], p ∈ stubs ∧ p.found = 0 := by decide
  obtain ⟨p, hp, hat, hend⟩ := (le_skip_at_iff hlt).mp hskip
  obtain ⟨hstub, hfound⟩ := hstart p hp
  obtain ⟨ssn, hssn⟩ := hat.number hstub
  by_cases hsmall : ssn ≤ 0x1000
  · have hplace : (⟨p, j, ssn⟩ : site_t).found = j := by rw [site_t.found, hfound, Nat.add_zero]
    refine .inr ⟨⟨p, j, ssn⟩, ⟨hstub, hat, hssn, hsmall⟩, by rwa [hplace], by rwa [hplace], ?_, ?_⟩
    · have := hwithin x.stub hx.mem
      rw [site_t.found] at hlt
      dsimp only
      omega
    · rw [site_t.found] at hend
      dsimp only
      omega
  · exact .inl ⟨j, hj, p, hp, hat, hlt, hend, ssn, hssn, UInt32.not_le.mp hsmall⟩

/-- The loop reports all stubs of its buffer exactly if they meet it. -/
theorem scan_stubs_iff (hlen : buf.length < 2 ^ 64) :
    (∃ out, scan_stubs start buf 0 = some out ∧ AllReported start buf out) ↔ StubsMeet buf := by
  constructor
  · rintro ⟨out, hrun, hall⟩
    have hover : ∀ i ∈ places buf 0, ¬ Overread buf i := by
      intro i hi hover
      rw [scan_stubs_none ⟨i, hi, hover⟩] at hrun
      cases hrun
    obtain ⟨out', hrun', hmem⟩ := scan_stubs_some start hover
    obtain rfl := Option.some.inj (hrun.symm.trans hrun')
    refine ⟨hover, fun x hx hfree => ?_⟩
    have hreported := hall x hx fun y hy hhit hlt => by
      obtain ⟨y', hy', hplace, hhit'⟩ := (hmem _).mp hhit
      obtain rfl := hy'.eq_of_hit hlen hy hhit'
      exact hfree y' hy hplace hlt
    obtain ⟨x', hx', hplace, hhit⟩ := (hmem _).mp hreported
    obtain rfl := hx'.eq_of_hit hlen hx hhit
    refine ⟨(le_of_mem_places hplace).2, ?_⟩
    rintro ⟨j, hj, p, hp, hat, hlt, hend, -⟩
    have hskip := skip_lt_of_mem_places hplace hj hlt
    have hwithin := (le_skip_at_iff hlt).mpr ⟨p, hp, hat, hend⟩
    omega
  · intro hmeet
    obtain ⟨out, hrun, hmem⟩ := scan_stubs_some start hmeet.inside
    refine ⟨out, hrun, fun x hx hfree => ?_⟩
    have hfree' (y : site_t) (hy : y.In buf) (hplace : y.found ∈ places buf 0) (hlt : y.found < x.found) : ¬ y.Overlaps x :=
      hfree y hy ((hmem _).mpr ⟨y, hy, hplace, rfl⟩) hlt
    obtain ⟨hbound, hswallowed⟩ := hmeet.met x hx hfree'
    rcases mem_places_or_skipped (Nat.zero_le _) hbound with hplace | ⟨j, hj, hlt, hskip⟩
    · exact (hmem _).mpr ⟨x, hx, hplace, rfl⟩
    · rcases overlapped_of_skipped hx hj hlt hskip with hin | ⟨y, hy, hplace, hylt, hoverlap⟩
      · exact absurd hin hswallowed
      · exact absurd hoverlap (hfree' y hy hplace hylt)

theorem length_of_read_img {img : image_ref_t} {va : UInt64} {len : Nat} (hread : read_img img va len = some buf) :
    buf.length = len := by
  unfold read_img at hread
  split at hread
  · cases hread
  split at hread
  · cases hread
  split at hread
  · cases hread
  · cases hread
    rw [List.length_take, List.length_drop]
    omega

theorem site_t.In.le_length (hx : x.In buf) : 7 ≤ buf.length := by
  have hroom : ∀ p ∈ stubs, 7 ≤ p.length := by decide
  exact (hroom x.stub hx.mem).trans ((Nat.le_add_left _ _).trans (hx.at_place.inside hx.mem))

theorem scan_range_of_read {img : image_ref_t} {va size : UInt64} (hlong : 6 ≤ size)
    (hread : read_img img va size.toNat = some buf) : scan_range img (va, size) = scan_stubs va buf 0 := by
  rw [scan_range, if_neg (UInt64.not_lt.mpr hlong), hread]

theorem scan_range_iff {img : image_ref_t} {range : UInt64 × UInt64} :
    (∃ out, scan_range img range = some out ∧
      ∀ buf, read_img img range.1 range.2.toNat = some buf → AllReported range.1 buf out) ↔
      ∀ buf, read_img img range.1 range.2.toNat = some buf → StubsMeet buf := by
  obtain ⟨va, size⟩ := range
  dsimp only
  by_cases hshort : size < 6
  · -- a short buffer has no turn of the loop, and no room for a stub
    rw [scan_range, if_pos hshort]
    have hlen {buf : List UInt8} (hread : read_img img va size.toNat = some buf) : buf.length < 6 :=
      length_of_read_img hread ▸ UInt64.lt_iff_toNat_lt.mp hshort
    refine iff_of_true ⟨[], rfl, fun buf hread x hx => ?_⟩ fun buf hread => ⟨fun i hi => ?_, fun x hx => ?_⟩
    · exact absurd hx.le_length (by have := hlen hread; omega)
    · exact absurd (le_of_mem_places hi).2 (by have := hlen hread; omega)
    · exact absurd hx.le_length (by have := hlen hread; omega)
  cases hread : read_img img va size.toNat with
  | none =>
    rw [scan_range, if_neg hshort, hread]
    refine iff_of_true ⟨[], rfl, fun buf hbuf => ?_⟩ fun buf hbuf => ?_
    · cases hbuf
    · cases hbuf
  | some buf =>
    have hlen : buf.length < 2 ^ 64 := length_of_read_img hread ▸ size.toNat_lt
    rw [scan_range_of_read (UInt64.not_lt.mp hshort) hread]
    simp only [Option.some_inj, forall_eq']
    exact scan_stubs_iff hlen

theorem scan_ranges_eq_some {img : image_ref_t} {ranges : List (UInt64 × UInt64)} {outs : List (List syscall_hit_t)}
    (houts : List.Forall₂ (fun range out => scan_range img range = some out) ranges outs) :
    scan_ranges img ranges = some outs.flatten := by
  induction houts with
  | nil => rfl
  | cons hrange _ ih =>
    rw [scan_ranges, hrange]
    dsimp only
    rw [ih]
    rfl

theorem exists_forall₂ {α β : Type} {R : α → β → Prop} {xs : List α} :
    (∃ ys, List.Forall₂ R xs ys) ↔ ∀ x ∈ xs, ∃ y, R x y := by
  induction xs with
  | nil => exact iff_of_true ⟨[], .nil⟩ (List.forall_mem_nil _)
  | cons x xs ih =>
    rw [List.forall_mem_cons, ← ih]
    constructor
    · rintro ⟨_, _ | ⟨hx, hxs⟩⟩
      exact ⟨⟨_, hx⟩, _, hxs⟩
    · rintro ⟨⟨y, hy⟩, ys, hys⟩
      exact ⟨y :: ys, .cons hy hys⟩

/-- The stubs are all found, without a read behind a buffer, exactly if they meet the loop in each range. -/
theorem detect_syscalls_right (img : image_ref_t) (va size : UInt64) :
    StubsRight img va size ↔
      ∀ range ∈ syscall_ranges img va size, ∀ buf, read_img img range.1 range.2.toNat = some buf → StubsMeet buf := by
  simp only [← scan_range_iff]
  rw [← exists_forall₂]
  constructor
  · rintro ⟨outs, -, hranges⟩
    exact ⟨outs, hranges⟩
  · rintro ⟨outs, hranges⟩
    exact ⟨outs, scan_ranges_eq_some (hranges.imp fun _ _ h => h.1), hranges⟩

end

/-- The first seven bytes of a stub. -/
def cut_stub : List UInt8 := [0x4C, 0x8B, 0xD1, 0xB8, 0x18, 0, 0]

/-- At the end of a range they are read on behind the buffer. -/
theorem stub_read_behind : ¬ StubsRight (small_code cut_stub) 0x140001000 7 := by
  have hread : read_img (small_code cut_stub) 0x140001000 (7 : UInt64).toNat = some cut_stub := by decide +kernel
  have hover : scan_stubs 0x140001000 cut_stub 0 = none := by
    refine scan_stubs_none ⟨0, ?_, by decide, .inl (by decide)⟩
    rw [places, if_pos (by decide)]
    exact List.mem_cons_self
  rintro ⟨outs, -, hranges⟩
  rw [show syscall_ranges (small_code cut_stub) 0x140001000 7 = [(0x140001000, 7)] from if_pos (by decide)] at hranges
  obtain _ | ⟨⟨hscan, -⟩, -⟩ := hranges
  rw [scan_range_of_read (by decide) hread, hover] at hscan
  cases hscan

end slop.core.analysis.xray
