import ReverseSlop.Core.Network.HttpHead
import ReverseSlop.Library.Bytes

namespace slop.core.network

open Find (find rfind First)
open Numeral (ascii)

def to_lower (s : List UInt8) : List UInt8 := s.map fun c => if 65 ≤ c && c ≤ 90 then c + 32 else c

/-- The value of a header line, if this is its name. -/
def field_value (name line : List UInt8) : Option (List UInt8) :=
  match find line (ascii ":") 0 with
  | none => none
  | some colon => if to_lower (line.take colon) ≠ name then none else some ((line.drop (colon + 1)).dropWhile (· = 32))

/-- The first value in the lines from `pos` on. -/
def header_value_from (text name : List UInt8) (pos : Nat) : List UInt8 :=
  if pos < text.length then
    match _hfound : find text crlf pos with
    | none => []
    | some eol =>
      match field_value name ((text.drop pos).take (eol - pos)) with
      | none => header_value_from text name (eol + 2)
      | some val => val
  else []
termination_by text.length - pos
decreasing_by
  have hfound := (Find.find_eq_some (List.cons_ne_nil 13 [10])).mp _hfound
  have hpos := hfound.1
  omega

def header_value (raw name : List UInt8) : List UInt8 :=
  let text := raw.take kMaxHeaderBytes
  -- `npos + 2` is 1
  header_value_from text name ((find text crlf 0).elim 1 (· + 2))

def first_line (head : List UInt8) : List UInt8 :=
  let first_line := head.take 2048
  match find first_line crlf 0 with
  | some eol => first_line.take eol
  | none => first_line

def request_method (head : List UInt8) : List UInt8 :=
  let line := first_line head
  match find line (ascii " ") 0 with
  | none => []
  | some sp1 => line.take sp1

def request_target (head : List UInt8) : List UInt8 :=
  let line := first_line head
  match find line (ascii " ") 0 with
  | none => []
  | some sp1 =>
    match find line (ascii " ") (sp1 + 1) with
    | none => []
    | some sp2 => (line.drop (sp1 + 1)).take (sp2 - sp1 - 1)

/-- `_stricmp` compares up to the first zero byte. -/
def is_connect (method : List UInt8) : Bool := to_lower (method.takeWhile (· ≠ 0)) == ascii "connect"

/-- Cut at the last colon. -/
def split_port (s port : List UInt8) : List UInt8 × List UInt8 :=
  match rfind 58 s with
  | none => (s, port)
  | some colon => (s.take colon, s.drop (colon + 1))

structure proxy_entry_t where
  host : List UInt8
  port : List UInt8
  path : List UInt8 := []
  raw_request : List UInt8 := []

/-- The entry of a CONNECT request. -/
def connect_entry (head : List UInt8) : proxy_entry_t :=
  let (host, port) := split_port (request_target head) (ascii "443")
  { host, port }

/-- The request line of the server's request. -/
def newline (method target : List UInt8) : List UInt8 :=
  method ++ ascii " " ++ (match find target (ascii "/") 7 with | none => ascii "/" | some slash => target.drop slash) ++ ascii " HTTP/1.1"

/-- The host and port of an absolute target, when there is no host yet. -/
def target_host (target host port : List UInt8) : List UInt8 × List UInt8 :=
  if host = [] then
    let authority := match find target (ascii "/") 7 with | none => target.drop 7 | some slash_a => (target.drop 7).take (slash_a - 7)
    split_port authority port
  else (host, port)

/-- The entry of any other request. -/
def plain_entry (head : List UInt8) : proxy_entry_t :=
  let target := request_target head
  let (host, port) := split_port (header_value head (ascii "host")) (ascii "80")
  if ascii "http://" <+: target then
    let first_eol := (find head crlf 0).getD head.length
    let (host, port) := target_host target host port
    { host, port, path := target, raw_request := newline (request_method head) target ++ head.drop first_eol }
  else
    { host, port, path := if target ≠ [] ∧ target[0]? ≠ some 47 then ascii "/" else target, raw_request := head }

/-- Where a plain request is sent. -/
def proxy_entry_t.destination (e : proxy_entry_t) : List UInt8 × List UInt8 :=
  (if e.host = [] then ascii "127.0.0.1" else e.host, e.port)

/-- The lines of a text that have an end. -/
def lines (s : List UInt8) : List (List UInt8) :=
  match _hfound : find s crlf 0 with
  | none => []
  | some i => s.take i :: lines (s.drop (i + 2))
termination_by s.length
decreasing_by
  have hin := Find.place_in (List.cons_ne_nil 13 [10]) ((Find.find_zero (List.cons_ne_nil 13 [10])).mp _hfound).1
  simp only [List.length_cons, List.length_nil] at hin
  rw [List.length_drop]
  omega

/-- The lines behind the request line that the search for a header looks at. -/
def header_lines (raw : List UInt8) : List (List UInt8) :=
  let text := raw.take kMaxHeaderBytes
  lines (text.drop ((find text crlf 0).elim 1 (· + 2)))

/-- A Host header is found in a head. -/
def HasHost (head : List UInt8) : Prop := ∃ line ∈ header_lines head, (field_value (ascii "host") line).isSome

/-- The head of a request other than CONNECT: it ends with its first empty line. -/
structure plain_head_t where
  bytes : List UInt8
  eol : Nat
  ends : First bytes crlfcrlf eol
  length_eq : bytes.length = eol + 4
  plain : is_connect (request_method bytes) = false

section

variable {s t text name : List UInt8} {pos i : Nat}

theorem crlf_ne : crlf ≠ [] := by decide

theorem length_crlf : crlf.length = 2 := by decide

private theorem lines_none (hnone : find s crlf 0 = none) : lines s = [] := by
  rw [lines]
  split
  · rfl
  · rename_i i hi
    rw [hnone] at hi
    cases hi

private theorem lines_some (hi : find s crlf 0 = some i) : lines s = s.take i :: lines (s.drop (i + 2)) := by
  rw [lines]
  split
  · rename_i hnone
    rw [hi] at hnone
    cases hnone
  · rename_i j hj
    rw [hi] at hj
    cases hj
    rfl

/-- The value is that of the first line with the name. -/
theorem header_value_from_eq :
    header_value_from text name pos = ((lines (text.drop pos)).findSome? (field_value name)).getD [] := by
  have hsearch : ∀ pos, find text crlf pos = (find (text.drop pos) crlf 0).map (· + pos) := fun pos => Find.find_drop crlf_ne
  fun_induction header_value_from text name pos with
  | case1 pos hpos hnone =>
    rw [hsearch, Option.map_eq_none_iff] at hnone
    rw [lines_none hnone]
    rfl
  | case2 pos hpos eol hfound hnone ih =>
    rw [hsearch, Option.map_eq_some_iff] at hfound
    obtain ⟨i, hi, rfl⟩ := hfound
    rw [Nat.add_sub_cancel] at hnone
    rw [lines_some hi, List.findSome?_cons, hnone, List.drop_drop, ih]
    exact congrArg (fun n => ((lines (text.drop n)).findSome? (field_value name)).getD []) (by omega)
  | case3 pos hpos eol hfound val hval =>
    rw [hsearch, Option.map_eq_some_iff] at hfound
    obtain ⟨i, hi, rfl⟩ := hfound
    rw [Nat.add_sub_cancel] at hval
    rw [lines_some hi, List.findSome?_cons, hval]
    rfl
  | case4 pos hpos =>
    rw [List.drop_eq_nil_of_le (Nat.le_of_not_lt hpos), lines_none rfl]
    rfl

private theorem header_value_eq (raw name : List UInt8) :
    header_value raw name = ((header_lines raw).findSome? (field_value name)).getD [] := header_value_from_eq

/-- A text that stops between two lines. -/
def Whole (s : List UInt8) : Prop := s = [] ∨ ∃ r, s = r ++ crlf

private theorem line_end_le (hi : find s crlf 0 = some i) : i + 2 ≤ s.length := by
  have hin := Find.place_in crlf_ne ((Find.find_zero crlf_ne).mp hi).1
  rwa [length_crlf] at hin

/-- Two line ends do not overlap. -/
theorem Whole.drop (hs : Whole s) (hi : First s crlf i) : Whole (s.drop (i + 2)) := by
  rcases hs with rfl | ⟨r, rfl⟩
  · exact .inl (List.drop_nil ..)
  have hle : i ≤ r.length := by
    by_contra hgt
    exact hi.2 r.length (by omega) (by rw [List.drop_left])
  rcases Nat.lt_trichotomy (i + 1) r.length with hlt | heq | hgt
  · refine .inr ⟨r.drop (i + 2), ?_⟩
    rw [List.drop_append_of_le_length (by omega)]
  · have hlf : (r ++ crlf)[i + 1]? = some 10 := (Bytes.at_cons.mp (Bytes.at_cons.mp hi.1).2).1
    rw [heq, List.getElem?_append_right (Nat.le_refl _), Nat.sub_self] at hlf
    cases hlf
  · refine .inl (List.drop_eq_nil_of_le ?_)
    rw [List.length_append, length_crlf]
    omega

/-- What follows whole lines does not change them. -/
theorem lines_append {s t : List UInt8} (hs : Whole s) : lines (s ++ t) = lines s ++ lines t := by
  cases hfind : find s crlf 0 with
  | none =>
    rcases hs with rfl | ⟨r, rfl⟩
    · rw [lines_none hfind, List.nil_append, List.nil_append]
    · rw [Find.find_eq_none crlf_ne] at hfind
      exact absurd (by rw [List.drop_left]) (hfind r.length (Nat.zero_le _))
  | some i =>
    have hi := (Find.find_zero crlf_ne).mp hfind
    have hin := line_end_le hfind
    have hrest := lines_append (hs.drop hi) (t := t)
    rw [lines_some hfind, lines_some (Find.find_append crlf_ne hfind), List.take_append_of_le_length (by omega),
      List.drop_append_of_le_length hin, hrest, List.cons_append]
termination_by s.length
decreasing_by
  rw [List.length_drop]
  omega

private theorem length_of_mem_lines {s line : List UInt8} (hline : line ∈ lines s) : line.length + 2 ≤ s.length := by
  cases hfind : find s crlf 0 with
  | none =>
    rw [lines_none hfind] at hline
    cases hline
  | some i =>
    have hin := line_end_le hfind
    rw [lines_some hfind] at hline
    rcases List.mem_cons.mp hline with rfl | hline
    · rw [List.length_take]
      omega
    · have hrest := length_of_mem_lines hline
      rw [List.length_drop] at hrest
      omega
termination_by s.length
decreasing_by
  rw [List.length_drop]
  omega

variable (head : plain_head_t) (body : List UInt8)

private theorem plain_head_t.eq : ∃ r, head.bytes = r ++ crlfcrlf := by
  obtain ⟨rest, hrest⟩ := head.ends.1
  have hlength := congrArg List.length hrest
  rw [List.length_append, List.length_drop, head.length_eq, length_crlfcrlf] at hlength
  obtain rfl : rest = [] := List.eq_nil_of_length_eq_zero (by omega)
  rw [List.append_nil] at hrest
  exact ⟨head.bytes.take head.eol, by rw [hrest, List.take_append_drop]⟩

/-- The end of the request line. -/
theorem plain_head_t.line_end : ∃ j, find head.bytes crlf 0 = some j ∧ j + 2 ≤ head.bytes.length := by
  obtain ⟨r, hr⟩ := head.eq
  cases hfind : find head.bytes crlf 0 with
  | none =>
    rw [Find.find_eq_none crlf_ne] at hfind
    refine absurd ?_ (hfind r.length (Nat.zero_le _))
    rw [hr, List.drop_left]
    exact List.prefix_append _ _
  | some j => exact ⟨j, rfl, line_end_le hfind⟩

/-- The search sees the lines of the head, and those of the body as far as the limit. -/
theorem header_lines_append :
    header_lines (head.bytes ++ body) = header_lines head.bytes ++ lines (body.take (kMaxHeaderBytes - head.bytes.length)) := by
  rw [header_lines, header_lines, List.take_append]
  rcases Nat.lt_or_ge kMaxHeaderBytes head.bytes.length with hlt | hge
  · rw [Nat.sub_eq_zero_of_le hlt.le, List.take_zero, List.append_nil, lines_none (s := []) rfl, List.append_nil]
  · obtain ⟨j, hj, hin⟩ := head.line_end
    obtain ⟨r, hr⟩ := head.eq
    have hwhole : Whole head.bytes := .inr ⟨r ++ crlf, by rw [hr, List.append_assoc]; rfl⟩
    rw [List.take_of_length_le hge]
    rw [Find.find_append crlf_ne hj, hj, Option.elim_some, List.drop_append_of_le_length hin]
    exact lines_append (hwhole.drop ((Find.find_zero crlf_ne).mp hj))

private theorem first_line_append : first_line (head.bytes ++ body) = first_line head.bytes := by
  rw [first_line, first_line, List.take_append]
  rcases Nat.lt_or_ge 2048 head.bytes.length with hlt | hge
  · rw [Nat.sub_eq_zero_of_le hlt.le, List.take_zero, List.append_nil]
  · obtain ⟨j, hj, hin⟩ := head.line_end
    rw [List.take_of_length_le hge]
    rw [Find.find_append crlf_ne hj, hj]
    exact List.take_append_of_le_length (by omega)

private theorem request_target_append : request_target (head.bytes ++ body) = request_target head.bytes := by
  rw [request_target, request_target, first_line_append]

/-- The target and the Host header decide where a request is sent. -/
theorem destination_congr {a b : List UInt8} (htarget : request_target a = request_target b)
    (hhost : header_value a (ascii "host") = header_value b (ascii "host")) :
    (plain_entry a).destination = (plain_entry b).destination := by
  simp only [plain_entry, htarget, hhost]
  split <;> rfl

/-- A Host header of the head is the one that is found. -/
theorem header_value_of_hasHost (hhost : HasHost head.bytes) :
    header_value (head.bytes ++ body) (ascii "host") = header_value head.bytes (ascii "host") := by
  obtain ⟨line, hline, hvalue⟩ := hhost
  have hsome : ((header_lines head.bytes).findSome? (field_value (ascii "host"))).isSome := by
    rw [List.findSome?_isSome_iff]
    exact ⟨line, hline, hvalue⟩
  obtain ⟨val, hval⟩ := Option.isSome_iff_exists.mp hsome
  rw [header_value_eq, header_value_eq, header_lines_append, List.findSome?_append, hval, Option.some_or]

/-- Without one, the lines of the body decide. -/
theorem header_value_of_not_hasHost (hhost : ¬ HasHost head.bytes) :
    header_value (head.bytes ++ body) (ascii "host") =
      ((lines (body.take (kMaxHeaderBytes - head.bytes.length))).findSome? (field_value (ascii "host"))).getD [] := by
  have hnone : (header_lines head.bytes).findSome? (field_value (ascii "host")) = none := by
    rw [List.findSome?_eq_none_iff]
    intro line hline
    by_contra hsome
    exact hhost ⟨line, hline, Option.isSome_iff_ne_none.mpr hsome⟩
  rw [header_value_eq, header_lines_append, List.findSome?_append, hnone, Option.none_or]

/-- A line too short for a value names no host. -/
theorem field_value_short {line val : List UInt8} (hshort : line.length ≤ 5) (hval : field_value (ascii "host") line = some val) :
    val = [] := by
  rw [field_value] at hval
  split at hval
  · cases hval
  rename_i colon _
  split at hval
  · cases hval
  rename_i hname
  have hfour := congrArg List.length (not_not.mp hname)
  rw [to_lower, List.length_map, List.length_take, show (ascii "host").length = 4 from rfl] at hfour
  cases hval
  rw [List.drop_eq_nil_of_le (by omega)]
  rfl

/-- A body that has no room for a line with a host decides nothing. -/
theorem header_value_of_no_room (hhost : ¬ HasHost head.bytes) (hroom : kMaxHeaderBytes < head.bytes.length + 8) :
    header_value (head.bytes ++ body) (ascii "host") = [] := by
  rw [header_value_of_not_hasHost head body hhost]
  cases hfirst : (lines (body.take (kMaxHeaderBytes - head.bytes.length))).findSome? (field_value (ascii "host")) with
  | none => rfl
  | some val =>
    obtain ⟨line, hline, hval⟩ := List.exists_of_findSome?_eq_some hfirst
    have hlength := length_of_mem_lines hline
    rw [List.length_take] at hlength
    exact field_value_short (by omega) hval

/-- The line of a Host header. -/
def host_line (c : UInt8) : List UInt8 := ascii "Host:" ++ c :: crlf

private theorem header_value_host_line (hhost : ¬ HasHost head.bytes) (hroom : head.bytes.length + 8 ≤ kMaxHeaderBytes) (c : UInt8)
    (hc : c = 120 ∨ c = 121) : header_value (head.bytes ++ host_line c) (ascii "host") = [c] := by
  have hline : (lines (host_line c)).findSome? (field_value (ascii "host")) = some [c] := by
    rcases hc with rfl | rfl
    · rw [lines_some (i := 6) (by decide)]
      rfl
    · rw [lines_some (i := 6) (by decide)]
      rfl
  have hlength : (host_line c).length = 8 := rfl
  rw [header_value_of_not_hasHost head _ hhost, List.take_of_length_le (by omega), hline]
  rfl

private theorem destination_host (hvalue : header_value (head.bytes ++ body) (ascii "host") = [120] ∨
    header_value (head.bytes ++ body) (ascii "host") = [121]) :
    (plain_entry (head.bytes ++ body)).destination = (header_value (head.bytes ++ body) (ascii "host"), ascii "80") := by
  simp only [plain_entry]
  rcases hvalue with hvalue | hvalue <;> rw [hvalue] <;> split <;> rfl

/-- Two bodies that send a request to different hosts. -/
theorem body_selects (hhost : ¬ HasHost head.bytes) (hroom : head.bytes.length + 8 ≤ kMaxHeaderBytes) :
    (plain_entry (head.bytes ++ host_line 120)).destination ≠ (plain_entry (head.bytes ++ host_line 121)).destination := by
  have hx := header_value_host_line head hhost hroom 120 (.inl rfl)
  have hy := header_value_host_line head hhost hroom 121 (.inr rfl)
  rw [destination_host head _ (.inl hx), destination_host head _ (.inr hy), hx, hy]
  decide

end

/-- A request without headers. -/
def bare_head : plain_head_t where
  bytes := ascii "GET / HTTP/1.1\r\n\r\n"
  eol := 14
  ends := by refine ⟨by decide, by decide⟩
  length_eq := rfl
  plain := by decide

theorem bare_head_follows_body :
    ¬ ∀ b b', (plain_entry (bare_head.bytes ++ b)).destination = (plain_entry (bare_head.bytes ++ b')).destination := by
  intro hall
  have hhost : ¬ HasHost bare_head.bytes := by
    rintro ⟨line, hline, hvalue⟩
    rw [header_lines, lines_some (i := 0) (by decide), lines_none (by decide), List.mem_singleton] at hline
    rw [hline] at hvalue
    exact absurd hvalue (by decide)
  exact body_selects bare_head hhost (by decide) (hall _ _)

/-- The destination depends on the head alone exactly when the head has a Host header or there is no room for one behind it. -/
theorem destination_of_head (head : plain_head_t) :
    (∀ b b', (plain_entry (head.bytes ++ b)).destination = (plain_entry (head.bytes ++ b')).destination) ↔
      HasHost head.bytes ∨ kMaxHeaderBytes < head.bytes.length + 8 := by
  constructor
  · intro hall
    by_contra hnot
    rw [not_or, Nat.not_lt] at hnot
    exact body_selects head hnot.1 hnot.2 (hall _ _)
  · intro hcond b b'
    refine destination_congr ?_ ?_
    · rw [request_target_append, request_target_append]
    · by_cases hhost : HasHost head.bytes
      · rw [header_value_of_hasHost head b hhost, header_value_of_hasHost head b' hhost]
      · have hroom := hcond.resolve_left hhost
        rw [header_value_of_no_room head b hhost hroom, header_value_of_no_room head b' hhost hroom]

end slop.core.network
