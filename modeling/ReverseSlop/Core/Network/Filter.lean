import Mathlib.Data.List.DropRight
import Mathlib.Data.List.Infix
import ReverseSlop.Core.Network.Streams

namespace slop.core.network

open Numeral (ascii)

def ULONG_MAX : Nat := 2 ^ 32 - 1

def addr_prefix_match (addr needle : List UInt8) : Bool := needle.isPrefixOf addr || decide (needle <:+: addr)

/-- A byte of the payload and a signed character of the text are compared as numbers. -/
def byte_matches (b c : UInt8) : Bool := (b.toNat : Int) = c.toInt8.toInt

/-- `std::search`: whether a text is somewhere in the payload. -/
def search : List UInt8 → List UInt8 → Bool
  | [], needle => needle.isEmpty
  | b :: p, needle => starts (b :: p) needle || search p needle
where
  starts : List UInt8 → List UInt8 → Bool
    | _, [] => true
    | [], _ :: _ => false
    | b :: p, c :: needle => byte_matches b c && starts p needle

def payload_contains_ascii (p needle : List UInt8) : Bool := if needle = [] then true else search p needle

def trim (term : List UInt8) : List UInt8 := (term.dropWhile (· = 32)).rdropWhile (· = 32)

/-- A predicate of a filter, without the blanks around it. -/
def eval_term (p : packet_record_t) (term : List UInt8) : Bool :=
  if (ascii "port=").isPrefixOf term then
    let port := (Numeral.strtoul 10 ULONG_MAX (term.drop 5)).toUInt16
    p.local_port = port || p.remote_port = port
  else if (ascii "host:").isPrefixOf term then
    addr_prefix_match p.local_addr (term.drop 5) || addr_prefix_match p.remote_addr (term.drop 5)
  else if (ascii "text:").isPrefixOf term then payload_contains_ascii p.payload (term.drop 5)
  else if (ascii "pid:").isPrefixOf term then p.pid.toNat = Numeral.strtoul 10 ULONG_MAX (term.drop 4)
  else if (ascii "proto:").isPrefixOf term then
    let pr := term.drop 6
    if pr = ascii "tcp" then p.protocol = kProtoTcp
    else if pr = ascii "udp" then p.protocol = kProtoUdp
    else p.protocol.toNat = Numeral.strtoul 10 ULONG_MAX pr
  else false

def eval_filter (p : packet_record_t) (expr : List UInt8) : Bool :=
  (expr.splitOn 59).all fun term => trim term = [] || eval_term p (trim term)

/-! The grammar. -/

/-- A number in decimal digits. -/
structure number_t where
  ds : List (Fin 10)
  nonempty : ds ≠ []

/-- A text without a semicolon that does not end in a blank. -/
structure text_t where
  bytes : List UInt8
  no_semicolon : 59 ∉ bytes
  no_blank : bytes.getLast? ≠ some 32

inductive term_t where
  /-- `port=N`, or `port==N`. -/
  | port (double : Bool) (n : number_t)
  | host (h : text_t)
  | text (t : text_t)
  | pid (n : number_t)
  | proto_tcp
  | proto_udp
  | proto (n : number_t)

/-- Terms, with a number of blanks before and behind each. -/
abbrev filter_t := List (Nat × term_t × Nat)

def number_t.bytes (n : number_t) : List UInt8 := (n.ds.map Fin.val).map Numeral.upper

def number_t.value (n : number_t) : Nat := Numeral.value 10 (n.ds.map Fin.val)

def term_t.bytes : term_t → List UInt8
  | .port double n => ascii "port=" ++ ((if double then [61] else []) ++ n.bytes)
  | .host h => ascii "host:" ++ h.bytes
  | .text t => ascii "text:" ++ t.bytes
  | .pid n => ascii "pid:" ++ n.bytes
  | .proto_tcp => ascii "proto:tcp"
  | .proto_udp => ascii "proto:udp"
  | .proto n => ascii "proto:" ++ n.bytes

def filter_t.bytes (f : filter_t) : List UInt8 :=
  [59].intercalate (f.map fun e => List.replicate e.1 32 ++ e.2.1.bytes ++ List.replicate e.2.2 32)

section

variable (p : packet_record_t)

def packet_record_t.ports : List Nat := [p.local_port.toNat, p.remote_port.toNat]

/-- What a term says of a packet. -/
def term_t.Holds : term_t → Prop
  | .port _ n => n.value ∈ p.ports
  | .host h => h.bytes <:+: p.local_addr ∨ h.bytes <:+: p.remote_addr
  | .text t => t.bytes <:+: p.payload
  | .pid n => n.value = p.pid.toNat
  | .proto_tcp => p.protocol = kProtoTcp
  | .proto_udp => p.protocol = kProtoUdp
  | .proto n => n.value = p.protocol.toNat

/-- The terms that are taken for something else: a port behind `==` is taken for 0, a port or another number
that is too large for one that is not, and a text that is not of ASCII characters is never found. -/
def term_t.Misread : term_t → Prop
  | .port true n => ¬ (n.value ∈ p.ports ↔ 0 ∈ p.ports)
  | .port false n => 2 ^ 16 ≤ n.value ∧ min n.value ULONG_MAX % 2 ^ 16 ∈ p.ports
  | .text t => (∃ c ∈ t.bytes, 128 ≤ c) ∧ t.bytes <:+: p.payload
  | .pid n => ULONG_MAX < n.value ∧ p.pid.toNat = ULONG_MAX
  | .proto n => ULONG_MAX < n.value ∧ p.protocol.toNat = ULONG_MAX
  | .host _ | .proto_tcp | .proto_udp => False

def filter_t.Holds (f : filter_t) : Prop := ∀ e ∈ f, e.2.1.Holds p

end

section

variable {p : packet_record_t} {s needle : List UInt8}

/-! The search for a text. -/

private theorem byte_matches_iff {b c : UInt8} : byte_matches b c = true ↔ b = c ∧ c < 128 := by
  have hsigned : c.toInt8.toInt = if 2 * c.toNat < 2 ^ 8 then (c.toNat : Int) else c.toNat - (2 ^ 8 : Nat) :=
    BitVec.toInt_eq_toNat_cond c.toBitVec
  have hb := b.toNat_lt
  have hc := c.toNat_lt
  have hword : c < 128 ↔ c.toNat < 128 := UInt8.lt_iff_toNat_lt
  rw [byte_matches, decide_eq_true_iff, hsigned, hword, ← UInt8.toNat_inj]
  split <;> omega

private theorem starts_iff : search.starts s needle = true ↔ needle <+: s ∧ ∀ c ∈ needle, c < 128 := by
  induction needle generalizing s with
  | nil => simp [search.starts]
  | cons c needle ih =>
    cases s with
    | nil => simp [search.starts]
    | cons b s =>
      simp only [search.starts, Bool.and_eq_true, byte_matches_iff, ih, List.cons_prefix_cons, List.forall_mem_cons]
      constructor
      · rintro ⟨⟨rfl, hc⟩, hprefix, hall⟩
        exact ⟨⟨rfl, hprefix⟩, hc, hall⟩
      · rintro ⟨⟨rfl, hprefix⟩, hc, hall⟩
        exact ⟨⟨rfl, hc⟩, hprefix, hall⟩

/-- A text of ASCII characters is found where it is, and no other text is. -/
theorem payload_contains_ascii_iff :
    payload_contains_ascii s needle = true ↔ needle <:+: s ∧ ∀ c ∈ needle, c < 128 := by
  by_cases hempty : needle = []
  · simp [payload_contains_ascii, hempty]
  · rw [payload_contains_ascii, if_neg hempty]
    induction s with
    | nil => simp [search, hempty]
    | cons b s ih =>
      rw [search, Bool.or_eq_true, starts_iff, ih, List.infix_cons_iff]
      tauto

/-! The splitter. -/

private theorem trim_blanks (before behind : Nat) (hne : s ≠ []) (hfirst : s.head? ≠ some 32) (hlast : s.getLast? ≠ some 32) :
    trim (List.replicate before 32 ++ s ++ List.replicate behind 32) = s := by
  have hfront : (List.replicate before 32 ++ s ++ List.replicate behind 32).dropWhile (· = 32) =
      s ++ List.replicate behind 32 := by
    rw [List.append_assoc]
    induction before with
    | zero =>
      obtain ⟨b, rest, rfl⟩ := List.exists_cons_of_ne_nil hne
      have hb : ¬ b = 32 := fun hb => hfirst (congrArg some hb)
      simp [hb]
    | succ before ih => simpa [List.replicate_succ] using ih
  have hback : (s ++ List.replicate behind 32).rdropWhile (· = 32) = s := by
    clear hfront
    induction behind with
    | zero =>
      obtain ⟨rest, b, rfl⟩ := (List.eq_nil_or_concat s).resolve_left hne
      have hb : ¬ b = 32 := fun hb => hlast (by simp [hb])
      simp [hb]
    | succ behind ih =>
      rw [List.replicate_succ', ← List.append_assoc, List.rdropWhile_concat_pos _ _ _ (by simp)]
      exact ih
  rw [trim, hfront, hback]

/-- What a term may be written as: no separators are in it or around it. -/
structure Plain (s : List UInt8) : Prop where
  no_semicolon : 59 ∉ s
  no_blank : s.getLast? ≠ some 32

private theorem Plain.append {t : List UInt8} (hs : Plain s) (ht : Plain t) : Plain (s ++ t) := by
  refine ⟨?_, ?_⟩
  · simp [hs.no_semicolon, ht.no_semicolon]
  · rw [List.getLast?_append]
    cases hlast : t.getLast? with
    | none => simpa using hs.no_blank
    | some c => simpa [hlast] using ht.no_blank

private theorem number_t.plain (n : number_t) : Plain n.bytes := by
  have hdigit : ∀ d : Fin 10, Numeral.upper d ≠ 59 ∧ Numeral.upper d ≠ 32 := by decide
  have hall : ∀ c ∈ n.bytes, c ≠ 59 ∧ c ≠ 32 := by
    intro c hc
    obtain ⟨d, hd, rfl⟩ := List.mem_map.mp hc
    obtain ⟨d, -, rfl⟩ := List.mem_map.mp hd
    exact hdigit d
  exact ⟨fun hmem => (hall _ hmem).1 rfl, fun hlast => (hall _ (List.mem_of_getLast? hlast)).2 rfl⟩

private theorem text_t.plain (t : text_t) : Plain t.bytes := ⟨t.no_semicolon, t.no_blank⟩

private theorem term_t.plain (t : term_t) : Plain t.bytes := by
  cases t with
  | port double n =>
    have hname : Plain (ascii "port=") := ⟨by decide, by decide⟩
    have hequals : Plain (if double then [61] else []) := by cases double <;> exact ⟨by decide, by decide⟩
    exact hname.append (hequals.append n.plain)
  | host h =>
    have hname : Plain (ascii "host:") := ⟨by decide, by decide⟩
    exact hname.append h.plain
  | text t =>
    have hname : Plain (ascii "text:") := ⟨by decide, by decide⟩
    exact hname.append t.plain
  | pid n =>
    have hname : Plain (ascii "pid:") := ⟨by decide, by decide⟩
    exact hname.append n.plain
  | proto_tcp => exact ⟨by decide, by decide⟩
  | proto_udp => exact ⟨by decide, by decide⟩
  | proto n =>
    have hname : Plain (ascii "proto:") := ⟨by decide, by decide⟩
    exact hname.append n.plain

private theorem term_t.head_bytes (t : term_t) : ∃ c rest, t.bytes = c :: rest ∧ c ≠ 32 := by
  cases t <;> exact ⟨_, _, rfl, by decide⟩

/-- The pieces of a filter are its terms. -/
theorem eval_filter_bytes (f : filter_t) : eval_filter p f.bytes = f.all fun e => eval_term p e.2.1.bytes := by
  cases f with
  | nil => simp [eval_filter, filter_t.bytes, trim]
  | cons e f =>
    have hpieces : ∀ l ∈ (e :: f).map fun e => List.replicate e.1 32 ++ e.2.1.bytes ++ List.replicate e.2.2 32,
        (59 : UInt8) ∉ l := by
      rw [List.forall_mem_map]
      intro e he
      simp [e.2.1.plain.no_semicolon]
    have htrim : ∀ e : Nat × term_t × Nat,
        trim (List.replicate e.1 32 ++ e.2.1.bytes ++ List.replicate e.2.2 32) = e.2.1.bytes := by
      intro e
      obtain ⟨c, rest, hbytes, hc⟩ := e.2.1.head_bytes
      refine trim_blanks e.1 e.2.2 ?_ ?_ e.2.1.plain.no_blank
      · simp [hbytes]
      · simp [hbytes, hc]
    have hsome : ∀ t : term_t, t.bytes ≠ [] := by
      intro t
      obtain ⟨c, rest, hbytes, -⟩ := t.head_bytes
      simp [hbytes]
    rw [eval_filter, filter_t.bytes, List.splitOn_intercalate 59 hpieces (List.cons_ne_nil _ _), List.all_map]
    simp only [Function.comp_def, htrim, hsome, decide_false, Bool.false_or]

private theorem number_t.strtoul_bytes (n : number_t) : Numeral.strtoul 10 ULONG_MAX n.bytes = min n.value ULONG_MAX := by
  refine Numeral.strtoul_digits (by simpa using n.nonempty) ?_
  intro d hd
  obtain ⟨d, -, rfl⟩ := List.mem_map.mp hd
  exact d.isLt

private theorem mem_ports {n : Nat} : n ∈ p.ports ↔ p.local_port.toNat = n ∨ p.remote_port.toNat = n := by
  simp [packet_record_t.ports, eq_comm]

private theorem eval_port (s : List UInt8) :
    eval_term p (ascii "port=" ++ s) = true ↔ Numeral.strtoul 10 ULONG_MAX s % 2 ^ 16 ∈ p.ports := by
  have hterm : eval_term p (ascii "port=" ++ s) =
      (decide (p.local_port = (Numeral.strtoul 10 ULONG_MAX s).toUInt16) ||
        decide (p.remote_port = (Numeral.strtoul 10 ULONG_MAX s).toUInt16)) := rfl
  simp [hterm, mem_ports, ← UInt16.toNat_inj]

private theorem addr_prefix_match_iff {addr : List UInt8} : addr_prefix_match addr needle = true ↔ needle <:+: addr := by
  simpa [addr_prefix_match] using List.IsPrefix.isInfix

/-- A number that is too large is taken for the largest one. -/
theorem saturated_iff {n : Nat} (v : UInt32) :
    ((v.toNat = min n ULONG_MAX) ↔ n = v.toNat) ↔ ¬ (ULONG_MAX < n ∧ v.toNat = ULONG_MAX) := by
  have hv := v.toNat_lt
  rw [ULONG_MAX]
  omega

private theorem eval_proto {n : number_t} :
    eval_term p (term_t.proto n).bytes = true ↔ p.protocol.toNat = min n.value ULONG_MAX := by
  have hsmall : ∀ d : Fin 10, ¬ 58 ≤ Numeral.upper d := by decide
  have hdigits : ∀ name : String, (∃ c ∈ ascii name, 58 ≤ c) → n.bytes ≠ ascii name := by
    rintro name ⟨c, hc, hlarge⟩ hsame
    rw [← hsame] at hc
    obtain ⟨d, hd, rfl⟩ := List.mem_map.mp hc
    obtain ⟨d, -, rfl⟩ := List.mem_map.mp hd
    exact hsmall d hlarge
  have hterm : eval_term p (term_t.proto n).bytes =
      if n.bytes = ascii "tcp" then decide (p.protocol = kProtoTcp)
      else if n.bytes = ascii "udp" then decide (p.protocol = kProtoUdp)
      else decide (p.protocol.toNat = Numeral.strtoul 10 ULONG_MAX n.bytes) := rfl
  rw [hterm, if_neg (hdigits "tcp" (by decide)), if_neg (hdigits "udp" (by decide)), decide_eq_true_iff, n.strtoul_bytes]

/-- A term is read as it is written exactly if it is none of those that are misread. -/
theorem eval_term_iff (t : term_t) : (eval_term p t.bytes = true ↔ t.Holds p) ↔ ¬ t.Misread p := by
  cases t with
  | port double n =>
    cases double with
    | true =>
      have hzero : Numeral.strtoul 10 ULONG_MAX ([61] ++ n.bytes) = 0 := rfl
      have heval : eval_term p (term_t.port true n).bytes = true ↔ 0 ∈ p.ports := by
        rw [term_t.bytes, if_pos rfl, eval_port, hzero]
        rfl
      rw [heval]
      simp [term_t.Holds, term_t.Misread, iff_comm]
    | false =>
      have heval : eval_term p (term_t.port false n).bytes = true ↔ min n.value ULONG_MAX % 2 ^ 16 ∈ p.ports := by
        rw [term_t.bytes, if_neg (by decide), List.nil_append, eval_port, n.strtoul_bytes]
      have hsmall : ∀ m ∈ p.ports, m < 2 ^ 16 := by
        intro m hm
        rcases mem_ports.mp hm with rfl | rfl
        · exact p.local_port.toNat_lt
        · exact p.remote_port.toNat_lt
      rw [heval, term_t.Holds, term_t.Misread]
      by_cases hlarge : 2 ^ 16 ≤ n.value
      · have hnone : n.value ∉ p.ports := fun hmem => absurd (hsmall _ hmem) (by omega)
        tauto
      · have hsame : min n.value ULONG_MAX % 2 ^ 16 = n.value := by
          rw [ULONG_MAX]
          omega
        rw [hsame]
        tauto
  | host h =>
    have hterm : eval_term p (term_t.host h).bytes =
        (addr_prefix_match p.local_addr h.bytes || addr_prefix_match p.remote_addr h.bytes) := rfl
    rw [hterm, Bool.or_eq_true, addr_prefix_match_iff, addr_prefix_match_iff]
    simp [term_t.Holds, term_t.Misread]
  | text t =>
    have hterm : eval_term p (term_t.text t).bytes = payload_contains_ascii p.payload t.bytes := rfl
    have hascii : (∀ c ∈ t.bytes, c < 128) ↔ ¬ ∃ c ∈ t.bytes, 128 ≤ c := by simp
    rw [hterm, payload_contains_ascii_iff, hascii, term_t.Holds, term_t.Misread]
    by_cases hfound : t.bytes <:+: p.payload <;> simp [hfound]
  | pid n =>
    have hterm : eval_term p (term_t.pid n).bytes = decide (p.pid.toNat = Numeral.strtoul 10 ULONG_MAX n.bytes) := rfl
    rw [hterm, decide_eq_true_iff, n.strtoul_bytes]
    exact saturated_iff p.pid
  | proto_tcp =>
    have hterm : eval_term p term_t.proto_tcp.bytes = decide (p.protocol = kProtoTcp) := rfl
    simp [hterm, term_t.Holds, term_t.Misread]
  | proto_udp =>
    have hterm : eval_term p term_t.proto_udp.bytes = decide (p.protocol = kProtoUdp) := rfl
    simp [hterm, term_t.Holds, term_t.Misread]
  | proto n =>
    rw [eval_proto]
    exact saturated_iff p.protocol

/-- Two conjunctions whose members differ at some places agree if there are no such places, or if both fail. -/
theorem forall_iff_forall {α : Type} {l : List α} {code spec differs : α → Prop}
    (hdiffers : ∀ a, (code a ↔ spec a) ↔ ¬ differs a) :
    ((∀ a ∈ l, code a) ↔ ∀ a ∈ l, spec a) ↔
      (∀ a ∈ l, ¬ differs a) ∨ (∃ a ∈ l, ¬ differs a ∧ ¬ spec a) ∨
        ((∃ a ∈ l, differs a ∧ spec a) ∧ ∃ a ∈ l, differs a ∧ ¬ spec a) := by
  have hcases : ∀ a, (differs a ∧ (code a ↔ ¬ spec a)) ∨ (¬ differs a ∧ (code a ↔ spec a)) := by
    intro a
    have ha := hdiffers a
    tauto
  by_cases hfails : ∃ a ∈ l, ¬ differs a ∧ ¬ spec a
  · -- where both read the same, both fail
    obtain ⟨a, ha, hsame, hnot⟩ := hfails
    have hcode : ¬ code a := fun hcode => hnot (((hdiffers a).mpr hsame).mp hcode)
    exact iff_of_true (iff_of_false (fun hall => hcode (hall a ha)) (fun hall => hnot (hall a ha)))
      (Or.inr (Or.inl ⟨a, ha, hsame, hnot⟩))
  · have hcode : (∀ a ∈ l, code a) ↔ ¬ ∃ a ∈ l, differs a ∧ spec a := by
      refine ⟨?_, fun hnone a ha => ?_⟩
      · rintro hall ⟨a, ha, hdiff, hspec⟩
        exact (hdiffers a).mp (iff_of_true (hall a ha) hspec) hdiff
      · by_contra hnot
        rcases hcases a with ⟨hdiff, hiff⟩ | ⟨hsame, hiff⟩
        · exact hnone ⟨a, ha, hdiff, by tauto⟩
        · exact hfails ⟨a, ha, hsame, fun hspec => hnot (hiff.mpr hspec)⟩
    have hspec : (∀ a ∈ l, spec a) ↔ ¬ ∃ a ∈ l, differs a ∧ ¬ spec a := by
      refine ⟨?_, fun hnone a ha => ?_⟩
      · rintro hall ⟨a, ha, -, hnot⟩
        exact hnot (hall a ha)
      · by_contra hnot
        rcases hcases a with ⟨hdiff, -⟩ | ⟨hsame, -⟩
        · exact hnone ⟨a, ha, hdiff, hnot⟩
        · exact hfails ⟨a, ha, hsame, hnot⟩
    have hnone : (∀ a ∈ l, ¬ differs a) ↔ (¬ ∃ a ∈ l, differs a ∧ spec a) ∧ ¬ ∃ a ∈ l, differs a ∧ ¬ spec a := by
      refine ⟨fun h => ⟨?_, ?_⟩, fun ⟨hone, hother⟩ a ha hdiff => ?_⟩
      · rintro ⟨a, ha, hdiff, -⟩
        exact h a ha hdiff
      · rintro ⟨a, ha, hdiff, -⟩
        exact h a ha hdiff
      · by_cases hspec : spec a
        · exact hone ⟨a, ha, hdiff, hspec⟩
        · exact hother ⟨a, ha, hdiff, hspec⟩
    rw [hcode, hspec, hnone]
    by_cases hholds : ∃ a ∈ l, differs a ∧ spec a <;> by_cases hnot : ∃ a ∈ l, differs a ∧ ¬ spec a <;>
      simp only [hholds, hnot, hfails] <;> simp

/-- A filter accepts the packets of which its terms hold, unless a term is misread and that decides. -/
theorem eval_filter_iff (f : filter_t) (p : packet_record_t) :
    (eval_filter p f.bytes = true ↔ f.Holds p) ↔
      (∀ e ∈ f, ¬ e.2.1.Misread p) ∨ (∃ e ∈ f, ¬ e.2.1.Misread p ∧ ¬ e.2.1.Holds p) ∨
        ((∃ e ∈ f, e.2.1.Misread p ∧ e.2.1.Holds p) ∧ ∃ e ∈ f, e.2.1.Misread p ∧ ¬ e.2.1.Holds p) := by
  rw [eval_filter_bytes, List.all_eq_true, filter_t.Holds]
  exact forall_iff_forall fun e => eval_term_iff e.2.1

end

def web_request : packet_record_t where
  protocol := 6
  local_addr := ascii "10.0.0.1"
  local_port := 49152
  remote_addr := ascii "10.0.0.2"
  remote_port := 80
  payload := ascii "GET /"

/-- The filter `port==80` does not find a packet to port 80. -/
theorem double_equals_finds_nothing :
    ¬ ∀ (f : filter_t) (p : packet_record_t), eval_filter p f.bytes = true ↔ f.Holds p := by
  intro hlaw
  have hholds : filter_t.Holds web_request [(0, .port true ⟨[8, 0], by decide⟩, 0)] := by
    simp only [filter_t.Holds, List.forall_mem_singleton, term_t.Holds]
    decide
  have haccepts := (hlaw [(0, .port true ⟨[8, 0], by decide⟩, 0)] web_request).mpr hholds
  rw [eval_filter_bytes] at haccepts
  exact absurd haccepts (by decide)

end slop.core.network
