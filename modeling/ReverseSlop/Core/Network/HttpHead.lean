import ReverseSlop.Library.Find
import ReverseSlop.Library.Numeral

namespace slop.core.network

open Find (find First)
open Numeral (ascii)

def kMaxHeaderBytes : Nat := 128 * 1024

def crlf : List UInt8 := ascii "\r\n"

/-- The end of a line and an empty line. -/
def crlfcrlf : List UInt8 := crlf ++ crlf

def find_header_end (b : List UInt8) (first : Nat) : Option Nat := (find b crlfcrlf first).map (· + 4)

/-- What one `recv` gives. -/
structure chunk_t where
  bytes : List UInt8
  pos : bytes ≠ []
  fits : bytes.length ≤ 4096

/-- The loop on the chunks that come before the peer closes: the bytes received, and where the head ends. -/
def read_headers : List chunk_t → List UInt8 → Nat → Option (List UInt8 × Nat)
  | chunks, buf, scan_from =>
    match find_header_end buf scan_from with
    | some hit => some (buf, hit)
    | none =>
      if buf.length > kMaxHeaderBytes then none
      else
        match chunks with
        | [] => none
        | chunk :: chunks =>
          read_headers chunks (buf ++ chunk.bytes) (if scan_from + 3 < buf.length then buf.length - 3 else scan_from)

def stream (chunks : List chunk_t) : List UInt8 := (chunks.map chunk_t.bytes).flatten

/-- The answer that a stream has when its segmentation does not matter. -/
def Answers (s : List UInt8) (r : Option (List UInt8 × Nat)) : Prop :=
  (∀ i, First s crlfcrlf i → i + 4 ≤ kMaxHeaderBytes →
    ∃ body, body <+: s.drop (i + 4) ∧ r = some (s.take (i + 4) ++ body, i + 4)) ∧
  ((∀ i, First s crlfcrlf i → kMaxHeaderBytes < i + 4) → r = none)

section

variable {chunks : List chunk_t} {buf s : List UInt8} {scan_from e i : Nat} {r : List UInt8 × Nat}

private theorem crlfcrlf_ne : crlfcrlf ≠ [] := by decide

theorem length_crlfcrlf : crlfcrlf.length = 4 := by decide

/-- There is no terminator in front of the place where the next search starts. -/
def Clear (s : List UInt8) (scan_from : Nat) : Prop := ∀ j < scan_from, ¬ crlfcrlf <+: s.drop j

/-- A terminator that is found is the first one of the stream. -/
theorem Clear.found (hclear : Clear s scan_from) (hbuf : buf <+: s) (he : find_header_end buf scan_from = some e) :
    ∃ i, First s crlfcrlf i ∧ e = i + 4 ∧ e ≤ buf.length := by
  rw [find_header_end, Option.map_eq_some_iff] at he
  obtain ⟨i, hi, rfl⟩ := he
  obtain ⟨rest, rfl⟩ := hbuf
  have hin := Find.place_in crlfcrlf_ne ((Find.find_eq_some crlfcrlf_ne).mp hi).2.1
  obtain ⟨-, hplace, hfirst⟩ := (Find.find_eq_some crlfcrlf_ne).mp (Find.find_append (t := rest) crlfcrlf_ne hi)
  rw [length_crlfcrlf] at hin
  refine ⟨i, ⟨hplace, fun j hj => ?_⟩, rfl, hin⟩
  rcases Nat.lt_or_ge j scan_from with hlt | hge
  · exact hclear j hlt
  · exact hfirst j hge hj

/-- After a search in vain, every terminator ends behind the buffer. -/
theorem Clear.behind (hclear : Clear s scan_from) (hbuf : buf <+: s) (hnone : find_header_end buf scan_from = none) :
    ∀ i, First s crlfcrlf i → buf.length < i + 4 := by
  rw [find_header_end, Option.map_eq_none_iff, Find.find_eq_none crlfcrlf_ne] at hnone
  obtain ⟨rest, rfl⟩ := hbuf
  intro i hi
  by_contra hle
  have hfront := (Find.place_append (by rw [length_crlfcrlf]; omega)).mp hi.1
  rcases Nat.lt_or_ge i scan_from with hlt | hge
  · exact hclear i hlt hi.1
  · exact hnone i hge hfront

/-- Three bytes back is far enough for the next search. -/
theorem Clear.next (hclear : Clear s scan_from) (hbuf : buf <+: s) (hnone : find_header_end buf scan_from = none) :
    Clear s (if scan_from + 3 < buf.length then buf.length - 3 else scan_from) := by
  split
  · rename_i hlt
    rw [find_header_end, Option.map_eq_none_iff, Find.find_eq_none crlfcrlf_ne] at hnone
    obtain ⟨rest, rfl⟩ := hbuf
    intro j hj hplace
    rcases Nat.lt_or_ge j scan_from with hfront | hback
    · exact hclear j hfront hplace
    · exact hnone j hback ((Find.place_append (by rw [length_crlfcrlf]; omega)).mp hplace)
  · exact hclear

private theorem stream_cons (chunk : chunk_t) (chunks : List chunk_t) : stream (chunk :: chunks) = chunk.bytes ++ stream chunks := rfl

/-- What a head that is read is. -/
theorem read_headers_some (hs : buf ++ stream chunks = s) (hclear : Clear s scan_from) (hlen : buf.length ≤ kMaxHeaderBytes + 4096)
    (hr : read_headers chunks buf scan_from = some r) :
    ∃ i, First s crlfcrlf i ∧ r.2 = i + 4 ∧ i + 4 ≤ r.1.length ∧ r.1.length ≤ kMaxHeaderBytes + 4096 ∧ r.1 <+: s := by
  induction chunks generalizing buf scan_from with
  | nil =>
    have hbuf : buf <+: s := ⟨_, hs⟩
    rw [read_headers] at hr
    split at hr
    · rename_i hit hfound
      cases hr
      obtain ⟨i, hi, rfl, hle⟩ := hclear.found hbuf hfound
      exact ⟨i, hi, rfl, hle, hlen, hbuf⟩
    · split at hr <;> cases hr
  | cons chunk chunks ih =>
    have hbuf : buf <+: s := ⟨_, hs⟩
    rw [read_headers] at hr
    split at hr
    · rename_i hit hfound
      cases hr
      obtain ⟨i, hi, rfl, hle⟩ := hclear.found hbuf hfound
      exact ⟨i, hi, rfl, hle, hlen, hbuf⟩
    rename_i hnone
    split at hr
    · cases hr
    rename_i hsmall
    refine ih ?_ (hclear.next hbuf hnone) ?_ hr
    · rw [List.append_assoc, ← stream_cons, hs]
    · have hfits := chunk.fits
      rw [List.length_append]
      omega

/-- A head that ends before the limit is read. -/
theorem read_headers_isSome (hs : buf ++ stream chunks = s) (hclear : Clear s scan_from) (hi : First s crlfcrlf i)
    (hle : i + 4 ≤ kMaxHeaderBytes) : (read_headers chunks buf scan_from).isSome := by
  have hin := Find.place_in crlfcrlf_ne hi.1
  rw [length_crlfcrlf] at hin
  induction chunks generalizing buf scan_from with
  | nil =>
    have hbuf : buf <+: s := ⟨_, hs⟩
    rw [read_headers]
    cases hfound : find_header_end buf scan_from with
    | some hit => rfl
    | none =>
      have hbehind := hclear.behind hbuf hfound i hi
      have hall : buf = s := by simpa [stream] using hs
      rw [hall] at hbehind
      omega
  | cons chunk chunks ih =>
    have hbuf : buf <+: s := ⟨_, hs⟩
    rw [read_headers]
    cases hfound : find_header_end buf scan_from with
    | some hit => rfl
    | none =>
      have hbehind := hclear.behind hbuf hfound i hi
      dsimp only
      rw [if_neg (by omega)]
      refine ih ?_ (hclear.next hbuf hfound)
      rw [List.append_assoc, ← stream_cons, hs]

/-- A stream that comes byte by byte. -/
def single (b : UInt8) : chunk_t := ⟨[b], List.cons_ne_nil b [], by simp⟩

private theorem stream_singles (s : List UInt8) : stream (s.map single) = s := by
  induction s with
  | nil => rfl
  | cons b s ih => rw [List.map_cons, stream_cons, ih]; rfl

/-- What a `recv` with enough bytes to come can give. -/
def first_chunk (s : List UInt8) (hs : s ≠ []) : chunk_t where
  bytes := s.take 4096
  pos := by simpa using hs
  fits := by simp

/-- When every chunk but the last is full, a head is read that ends less than a chunk behind the limit. -/
theorem exists_read_headers {buf rest : List UInt8} {scan_from : Nat} (hs : buf ++ rest = s) (hfull : 4096 ∣ buf.length ∨ rest = [])
    (hclear : Clear s scan_from) (hi : First s crlfcrlf i) (hle : i + 4 ≤ kMaxHeaderBytes + 4096) :
    ∃ chunks, stream chunks = rest ∧ (read_headers chunks buf scan_from).isSome := by
  have hbuf : buf <+: s := ⟨rest, hs⟩
  have hin := Find.place_in crlfcrlf_ne hi.1
  rw [length_crlfcrlf] at hin
  cases hfound : find_header_end buf scan_from with
  | some hit =>
    refine ⟨rest.map single, stream_singles rest, ?_⟩
    unfold read_headers
    rw [hfound]
    rfl
  | none =>
    have hbehind := hclear.behind hbuf hfound i hi
    have hmore : rest ≠ [] := by
      rintro rfl
      rw [List.append_nil] at hs
      rw [hs] at hbehind
      omega
    have hdvd := hfull.resolve_right hmore
    have hsmall : ¬ buf.length > kMaxHeaderBytes := by
      obtain ⟨k, hk⟩ := hdvd
      have hlimit : kMaxHeaderBytes = 4096 * 32 := rfl
      omega
    have hnext : 4096 ∣ (buf ++ rest.take 4096).length ∨ rest.drop 4096 = [] := by
      rcases Nat.lt_or_ge 4096 rest.length with hlt | hge
      · rw [List.length_append, List.length_take, Nat.min_eq_left hlt.le]
        exact .inl (hdvd.add (Nat.dvd_refl 4096))
      · exact .inr (List.drop_eq_nil_of_le hge)
    have hall : buf ++ rest.take 4096 ++ rest.drop 4096 = s := by rw [List.append_assoc, List.take_append_drop, hs]
    obtain ⟨chunks, hchunks, hread⟩ := exists_read_headers hall hnext (hclear.next hbuf hfound) hi hle
    refine ⟨first_chunk rest hmore :: chunks, ?_, ?_⟩
    · rw [stream_cons, hchunks]
      exact List.take_append_drop 4096 rest
    · rw [read_headers, hfound]
      dsimp only
      rw [if_neg hsmall]
      exact hread
termination_by rest.length
decreasing_by
  rw [List.length_drop]
  have hpos := List.length_pos_iff.mpr hmore
  omega

private theorem clear_zero (s : List UInt8) : Clear s 0 := fun j hj => absurd hj (Nat.not_lt_zero j)

/-- A head that ends behind the limit by no more than a chunk is read in some segmentation. -/
theorem overrun (hi : First s crlfcrlf i) (hlong : kMaxHeaderBytes < i + 4) (hle : i + 4 ≤ kMaxHeaderBytes + 4096) :
    ∃ chunks, stream chunks = s ∧ ¬ Answers s (read_headers chunks [] 0) := by
  obtain ⟨chunks, hchunks, hread⟩ := exists_read_headers (List.nil_append s) (.inl (Nat.dvd_zero 4096)) (clear_zero s) hi hle
  refine ⟨chunks, hchunks, fun hanswers => ?_⟩
  have hnone := hanswers.2 fun j hj => by rwa [hj.unique hi]
  rw [hnone] at hread
  cases hread

end

/-- A head that ends one byte behind the limit. -/
def long_head : List UInt8 := List.replicate 131069 97 ++ crlfcrlf

theorem long_head_is_read : ¬ ∀ chunks, stream chunks = long_head → Answers long_head (read_headers chunks [] 0) := by
  intro hall
  have hdrop : ∀ j ≤ 131069, long_head.drop j = List.replicate (131069 - j) 97 ++ crlfcrlf := fun j hj => by
    rw [long_head, List.drop_append_of_le_length (by rw [List.length_replicate]; exact hj), List.drop_replicate]
  have hi : First long_head crlfcrlf 131069 := by
    refine ⟨?_, fun j hj hplace => ?_⟩
    · rw [hdrop _ le_rfl, Nat.sub_self, List.replicate_zero, List.nil_append]
    · rw [hdrop j hj.le, show 131069 - j = (131069 - j - 1) + 1 by omega, List.replicate_succ] at hplace
      exact absurd (List.cons_prefix_cons.mp hplace).1 (by decide)
  obtain ⟨chunks, hchunks, hnot⟩ := overrun hi (by decide) (by decide)
  exact hnot (hall chunks hchunks)

/-- However a stream is split, its head is read as it should be, unless it ends less than a chunk behind the limit. -/
theorem read_headers_any_split (s : List UInt8) :
    (∀ chunks, stream chunks = s → Answers s (read_headers chunks [] 0)) ↔
      ∀ i, First s crlfcrlf i → ¬ (kMaxHeaderBytes < i + 4 ∧ i + 4 ≤ kMaxHeaderBytes + 4096) := by
  constructor
  · rintro hall i hi ⟨hlong, hle⟩
    obtain ⟨chunks, hchunks, hnot⟩ := overrun hi hlong hle
    exact hnot (hall chunks hchunks)
  · intro hcond chunks hchunks
    rw [← List.nil_append (stream chunks)] at hchunks
    refine ⟨fun i hi hle => ?_, fun hlong => ?_⟩
    · obtain ⟨r, hr⟩ := Option.isSome_iff_exists.mp (read_headers_isSome hchunks (clear_zero s) hi hle)
      obtain ⟨j, hj, hend, hlen, -, hpre⟩ := read_headers_some hchunks (clear_zero s) (Nat.zero_le _) hr
      obtain rfl := hj.unique hi
      obtain ⟨rest, rfl⟩ := hpre
      refine ⟨r.1.drop (j + 4), ?_, ?_⟩
      · rw [List.drop_append_of_le_length hlen]
        exact List.prefix_append _ _
      · rw [hr, List.take_append_of_le_length hlen, List.take_append_drop, ← hend]
    · cases hr : read_headers chunks [] 0 with
      | none => rfl
      | some r =>
        obtain ⟨i, hi, -, hlen, hle, -⟩ := read_headers_some hchunks (clear_zero s) (Nat.zero_le _) hr
        exact absurd ⟨hlong i hi, hlen.trans hle⟩ (hcond i hi)

end slop.core.network
