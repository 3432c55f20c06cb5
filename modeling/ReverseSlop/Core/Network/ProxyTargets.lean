import Mathlib.Data.List.TakeWhile
import ReverseSlop.Core.Network.HttpProxy

namespace slop.core.network

open Find (find rfind First)
open Numeral (ascii)

/-- The characters between the parts of a target, and those between the parts of a request line. -/
def delimiters : List UInt8 := ascii ":/?#[]@ \r\n"

/-- A host: a registered name or an IPv4 address, or an address in brackets. -/
structure uri_host_t where
  text : List UInt8
  ne : text ≠ []
  valid : (∀ c ∈ text, c ∉ delimiters) ∨ ∃ s, text = 91 :: (s ++ [93]) ∧ ∀ c ∈ s, c = 58 ∨ c ∉ delimiters

/-- A host and its port. -/
structure authority_t where
  host : uri_host_t
  port : Option (List UInt8)
  digits : ∀ d ∈ port, ∀ c ∈ d, 48 ≤ c ∧ c ≤ 57

def authority_t.text (a : authority_t) : List UInt8 := a.host.text ++ (a.port.elim [] fun d => 58 :: d)

/-- A port that is empty stands for the default. -/
def authority_t.denoted_port (a : authority_t) (default : Option (List UInt8)) : Option (List UInt8) :=
  match a.port with
  | none | some [] => default
  | some d => some d

/-- No part of a request line has its delimiters. -/
def Clean (s : List UInt8) : Prop := ∀ c ∈ s, c ≠ 32 ∧ c ≠ 13 ∧ c ≠ 10

/-- A request line with a target, and what follows it. -/
def request_bytes (method target version rest : List UInt8) : List UInt8 :=
  method ++ ascii " " ++ target ++ ascii " " ++ version ++ crlf ++ rest

/-- A request for a tunnel. -/
structure connect_request_t where
  method : List UInt8
  authority : authority_t
  version : List UInt8
  rest : List UInt8
  connect : to_lower method = ascii "connect"
  version_clean : Clean version

def connect_request_t.head (r : connect_request_t) : List UInt8 := request_bytes r.method r.authority.text r.version r.rest

/-- A request with an absolute target. -/
structure absolute_request_t where
  method : List UInt8
  scheme : List UInt8
  userinfo : Option (List UInt8)
  authority : authority_t
  path : List UInt8
  query : Option (List UInt8)
  version : List UInt8
  rest : List UInt8
  plain : is_connect method = false
  method_clean : Clean method
  scheme_valid : ∀ c ∈ scheme, c ∉ delimiters
  userinfo_valid : ∀ u ∈ userinfo, ∀ c ∈ u, c = 58 ∨ c ∉ delimiters
  path_rooted : path = [] ∨ path.head? = some 47
  path_clean : Clean path
  query_clean : ∀ q ∈ query, Clean q
  version_clean : Clean version

section

variable (r : absolute_request_t)

def absolute_request_t.userinfo_text : List UInt8 := r.userinfo.elim [] fun u => u ++ [64]

def absolute_request_t.query_text : List UInt8 := r.query.elim [] fun q => 63 :: q

def absolute_request_t.target : List UInt8 :=
  r.scheme ++ ascii "://" ++ r.userinfo_text ++ r.authority.text ++ r.path ++ r.query_text

/-- The target for the server. -/
def absolute_request_t.origin : List UInt8 := (if r.path = [] then ascii "/" else r.path) ++ r.query_text

def absolute_request_t.head : List UInt8 := request_bytes r.method r.target r.version r.rest

end

/-- The port that a scheme stands for. -/
def default_port (scheme : List UInt8) : Option (List UInt8) :=
  if to_lower scheme = ascii "http" then some (ascii "80")
  else if to_lower scheme = ascii "https" then some (ascii "443")
  else none

/-- The entry of a request. -/
def request_entry (head : List UInt8) : proxy_entry_t :=
  if is_connect (request_method head) then connect_entry head else plain_entry head

/-- The tunnel leads to the host and port denoted. -/
def connect_request_t.Meets (r : connect_request_t) : Prop :=
  (request_entry r.head).host = r.authority.host.text ∧
  r.authority.denoted_port (some (ascii "443")) = some (request_entry r.head).port

/-- The host and port are those denoted, and the request differs in the target alone. -/
def absolute_request_t.Meets (r : absolute_request_t) : Prop :=
  (request_entry r.head).host = r.authority.host.text ∧
  (∀ p ∈ r.authority.denoted_port (default_port r.scheme), (request_entry r.head).port = p) ∧
  (request_entry r.head).raw_request = request_bytes r.method r.origin r.version r.rest

/-- The request line is seen as far as the end of the target. -/
def Seen (method target : List UInt8) : Prop := method.length + target.length + 2 ≤ 2048

/-- A port follows, or no colon is there to be taken for one. -/
def authority_t.Cuts (a : authority_t) : Prop := (∃ d, a.port = some d ∧ d ≠ []) ∨ a.port = none ∧ 58 ∉ a.host.text

/-- When a tunnel leads to the right place. -/
def connect_request_t.Splits (r : connect_request_t) : Prop := Seen r.method r.authority.text ∧ r.authority.Cuts

/-- The value of the Host header. -/
def absolute_request_t.host_value (r : absolute_request_t) : List UInt8 := header_value r.head (ascii "host")

/-- A Host header that denotes what the target does, with its port, or without when the default is meant and no colon is there. -/
def absolute_request_t.HostAgrees (r : absolute_request_t) : Prop :=
  ∃ p, r.authority.denoted_port (some (ascii "80")) = some p ∧
    (r.host_value = r.authority.host.text ++ 58 :: p ∨ r.host_value = r.authority.host.text ∧ 58 ∉ r.authority.host.text ∧ p = ascii "80")

/-- A Host header, or none, that leaves the host to the target, and a target whose authority is cut in the right place. -/
def absolute_request_t.TargetDecides (r : absolute_request_t) : Prop :=
  (r.host_value = [] ∨ ∃ q, 58 ∉ q ∧ r.host_value = 58 :: q) ∧ r.userinfo = none ∧
    ((∃ d, r.authority.port = some d ∧ d ≠ []) ∨
      r.authority.port = none ∧ 58 ∉ r.authority.host.text ∧ (r.host_value = [] ∨ r.host_value = ascii ":80"))

/-- When a request with an absolute target is forwarded as it should be. -/
def absolute_request_t.Forwards (r : absolute_request_t) : Prop :=
  Seen r.method r.target ∧ r.scheme = ascii "http" ∧ r.version = ascii "HTTP/1.1" ∧ (r.path = [] → r.query = none) ∧
    (r.HostAgrees ∨ r.TargetDecides)

section

variable {method target version rest s t : List UInt8}

/-- What holds of all the bytes of a text that is given. -/
theorem forall_mem_of_all {p : UInt8 → Prop} [DecidablePred p] (hall : (s.all fun c => decide (p c)) = true) : ∀ c ∈ s, p c :=
  fun c hc => of_decide_eq_true (List.all_eq_true.mp hall c hc)

private theorem Clean.append (hs : Clean s) (ht : Clean t) : Clean (s ++ t) := by
  intro c hc
  rcases List.mem_append.mp hc with h | h
  · exact hs c h
  · exact ht c h

/-- A line ends where its end is. -/
theorem first_crlf (hs : 13 ∉ s) : First (s ++ crlf ++ t) crlf s.length := by
  rw [List.append_assoc, First, List.drop_left]
  refine ⟨List.prefix_append _ _, fun j hj hplace => ?_⟩
  have hcr := (Bytes.at_cons.mp hplace).1
  rw [List.getElem?_append_left hj] at hcr
  exact hs (List.mem_of_getElem? hcr)

/-- Of a request line at most the first 2048 bytes are seen. -/
theorem first_line_request (rest : List UInt8) (hmethod : Clean method) (htarget : Clean target) (hversion : Clean version) :
    ∃ tail, first_line (request_bytes method target version rest) =
      (method ++ 32 :: (target ++ 32 :: (version ++ tail))).take 2048 := by
  have hline : request_bytes method target version rest = (method ++ 32 :: (target ++ 32 :: version)) ++ crlf ++ rest := by
    simp [request_bytes, show ascii " " = [32] from rfl]
  have hclean : ∀ c ∈ method ++ 32 :: (target ++ 32 :: version), c ≠ 13 ∧ c ≠ 10 := by
    intro c hc
    simp only [List.mem_append, List.mem_cons] at hc
    rcases hc with hc | rfl | hc | rfl | hc
    · exact (hmethod c hc).2
    · decide
    · exact (htarget c hc).2
    · decide
    · exact (hversion c hc).2
  generalize hl : method ++ 32 :: (target ++ 32 :: version) = line at hline hclean
  have htail : ∀ tail, method ++ 32 :: (target ++ 32 :: (version ++ tail)) = line ++ tail := by
    intro tail
    rw [← hl]
    simp
  have hcr : 13 ∉ line := fun h => (hclean 13 h).1 rfl
  simp only [htail, hline, first_line]
  rcases Nat.lt_or_ge 2048 (line.length + 2) with hlong | hshort
  · refine ⟨[13], ?_⟩
    have htake : (line ++ crlf ++ rest).take 2048 = (line ++ [13]).take 2048 := by
      rw [show line ++ crlf ++ rest = line ++ [13] ++ ([10] ++ rest) by simp [crlf, ascii], List.take_append_of_le_length]
      rw [List.length_append, List.length_singleton]
      omega
    have hnone : find ((line ++ [13]).take 2048) crlf 0 = none := by
      rw [Find.find_eq_none crlf_ne]
      intro j _ hplace
      have hlf := (Bytes.at_cons.mp (Bytes.at_cons.mp hplace).2).1
      have hmem := List.mem_of_mem_take (List.mem_of_getElem? hlf)
      rcases List.mem_append.mp hmem with h | h
      · exact (hclean 10 h).2 rfl
      · exact absurd h (by decide)
    rw [htake, hnone]
  · refine ⟨[], ?_⟩
    have htake : (line ++ crlf ++ rest).take 2048 = line ++ crlf ++ rest.take (2048 - (line ++ crlf).length) := by
      rw [List.take_append, List.take_of_length_le]
      rw [List.length_append, length_crlf]
      omega
    rw [htake, (Find.find_zero crlf_ne).mpr (first_crlf hcr), List.append_nil]
    dsimp only
    rw [List.append_assoc, List.take_left, List.take_of_length_le (by omega)]

/-- What is seen to its end is read. -/
theorem request_words (hmethod : Clean method) (htarget : Clean target) (hversion : Clean version) (hseen : Seen method target) :
    request_method (request_bytes method target version rest) = method ∧
      request_target (request_bytes method target version rest) = target := by
  obtain ⟨tail, hline⟩ := first_line_request rest hmethod htarget hversion
  have hm : 32 ∉ method := fun h => (hmethod 32 h).1 rfl
  have ht : 32 ∉ target := fun h => (htarget 32 h).1 rfl
  rw [Seen] at hseen
  rw [List.take_append, List.take_of_length_le (by omega), show 2048 - method.length = (2047 - method.length) + 1 by omega,
    List.take_succ_cons, List.take_append, List.take_of_length_le (by omega),
    show 2047 - method.length - target.length = (2046 - method.length - target.length) + 1 by omega, List.take_succ_cons] at hline
  generalize (version ++ tail).take (2046 - method.length - target.length) = w at hline
  have hsp2 : find (method ++ 32 :: (target ++ 32 :: w)) [32] (method.length + 1) = some (target.length + (method.length + 1)) := by
    rw [Find.find_drop (List.cons_ne_nil 32 []), List.drop_append, List.drop_of_length_le (by omega), Nat.add_sub_cancel_left,
      List.nil_append, List.drop_succ_cons, List.drop_zero, Find.find_char_append ht, Option.map_some]
  constructor
  · rw [request_method, hline, show ascii " " = [32] from rfl, Find.find_char_append hm]
    exact List.take_left
  · rw [request_target, hline, show ascii " " = [32] from rfl, Find.find_char_append hm]
    dsimp only
    rw [hsp2]
    dsimp only
    rw [show target.length + (method.length + 1) - method.length - 1 = target.length by omega, ← List.drop_drop, List.drop_left,
      List.drop_succ_cons, List.drop_zero, List.take_left]

/-- A target that is not seen to its end is not read at all. -/
theorem request_target_unseen (hmethod : Clean method) (htarget : Clean target) (hversion : Clean version)
    (hseen : ¬ Seen method target) : request_target (request_bytes method target version rest) = [] := by
  obtain ⟨tail, hline⟩ := first_line_request rest hmethod htarget hversion
  rw [Seen] at hseen
  have hfront : (method ++ 32 :: (target ++ 32 :: (version ++ tail))).take 2048 = (method ++ 32 :: target).take 2048 := by
    rw [show method ++ 32 :: (target ++ 32 :: (version ++ tail)) = (method ++ 32 :: target) ++ 32 :: (version ++ tail) by simp,
      List.take_append_of_le_length]
    rw [List.length_append, List.length_cons]
    omega
  rw [hfront] at hline
  -- the only space is the one behind the method
  have hspace : ∀ i, ((method ++ 32 :: target).take 2048)[i]? = some 32 → i = method.length := by
    intro i hi
    have hlt := (List.getElem?_eq_some_iff.mp hi).1
    rw [List.length_take] at hlt
    rw [List.getElem?_take_of_lt (by omega)] at hi
    rcases Nat.lt_trichotomy i method.length with h | h | h
    · rw [List.getElem?_append_left h] at hi
      exact absurd rfl (hmethod 32 (List.mem_of_getElem? hi)).1
    · exact h
    · rw [List.getElem?_append_right h.le, show i - method.length = (i - method.length - 1) + 1 by omega,
        List.getElem?_cons_succ] at hi
      exact absurd rfl (htarget 32 (List.mem_of_getElem? hi)).1
  rw [request_target, hline, show ascii " " = [32] from rfl]
  cases hsp1 : find ((method ++ 32 :: target).take 2048) [32] 0 with
  | none => rfl
  | some sp1 =>
    cases hsp2 : find ((method ++ 32 :: target).take 2048) [32] (sp1 + 1) with
    | none => simp only [hsp2]
    | some sp2 =>
      have h1 := (Find.find_eq_some (List.cons_ne_nil 32 [])).mp hsp1
      have h2 := (Find.find_eq_some (List.cons_ne_nil 32 [])).mp hsp2
      have heq1 := hspace sp1 (Find.singleton_prefix_drop.mp h1.2.1)
      have heq2 := hspace sp2 (Find.singleton_prefix_drop.mp h2.2.1)
      have hlt := h2.1
      omega

/-- The method is read, or nothing of it. -/
theorem request_method_eq (rest : List UInt8) (hmethod : Clean method) (htarget : Clean target) (hversion : Clean version) :
    request_method (request_bytes method target version rest) = method ∧ method.length < 2048 ∨
      request_method (request_bytes method target version rest) = [] ∧ 2048 ≤ method.length := by
  obtain ⟨tail, hline⟩ := first_line_request rest hmethod htarget hversion
  have hm : 32 ∉ method := fun h => (hmethod 32 h).1 rfl
  rw [request_method, hline, show ascii " " = [32] from rfl]
  rcases Nat.lt_or_ge method.length 2048 with hlt | hge
  · rw [List.take_append, List.take_of_length_le hlt.le, show 2048 - method.length = (2047 - method.length) + 1 by omega,
      List.take_succ_cons, Find.find_char_append hm]
    exact .inl ⟨List.take_left, hlt⟩
  · rw [List.take_append_of_le_length hge, Find.find_char_none.mpr fun h => hm (List.mem_of_mem_take (List.mem_of_mem_drop h))]
    exact .inr ⟨rfl, hge⟩

/-- The cut at the last colon gives a port without colons only when the colon is the one in front of the port. -/
theorem split_port_eq {host port : List UInt8} (hport : 58 ∉ port) :
    split_port s t = (host, port) ↔ s = host ++ 58 :: port ∨ s = host ∧ 58 ∉ host ∧ t = port := by
  rw [split_port]
  cases hcolon : rfind 58 s with
  | none =>
    have hnot := Find.rfind_eq_none.mp hcolon
    simp only [Prod.mk.injEq]
    constructor
    · rintro ⟨rfl, rfl⟩
      exact .inr ⟨rfl, hnot, rfl⟩
    · rintro (hs | ⟨rfl, -, rfl⟩)
      · exact absurd (hs ▸ List.mem_append_right host List.mem_cons_self) hnot
      · exact ⟨rfl, rfl⟩
  | some i =>
    obtain ⟨a, b, rfl, hb, rfl⟩ := Find.rfind_eq_some hcolon
    have hdrop : (a ++ 58 :: b).drop (a.length + 1) = b := by rw [← List.drop_drop, List.drop_left, List.drop_succ_cons, List.drop_zero]
    simp only [List.take_left, hdrop, Prod.mk.injEq]
    constructor
    · rintro ⟨rfl, rfl⟩
      exact .inl rfl
    · rintro (heq | ⟨rfl, hnot, -⟩)
      · rw [heq, Find.rfind_append hport] at hcolon
        obtain ⟨rfl, hrest⟩ := List.append_inj heq (Option.some.inj hcolon).symm
        exact ⟨rfl, (List.cons.inj hrest).2⟩
      · exact absurd (List.mem_append_right a List.mem_cons_self) hnot

end

section

variable {c : UInt8} {s : List UInt8}

/-- The characters of an authority and the sign behind the user's name. -/
def Inner (s : List UInt8) : Prop := ∀ c ∈ s, c = 58 ∨ c = 91 ∨ c = 93 ∨ c = 64 ∨ c ∉ delimiters

private theorem Inner.not_mem (hs : Inner s) (hc : c ∈ delimiters) (hne : c ≠ 58 ∧ c ≠ 91 ∧ c ≠ 93 ∧ c ≠ 64) : c ∉ s := by
  intro hmem
  rcases hs c hmem with h | h | h | h | h
  · exact hne.1 h
  · exact hne.2.1 h
  · exact hne.2.2.1 h
  · exact hne.2.2.2 h
  · exact h hc

private theorem Inner.clean (hs : Inner s) : Clean s := by
  intro c hc
  refine ⟨?_, ?_, ?_⟩ <;> rintro rfl
  · exact hs.not_mem (by decide) (by decide) hc
  · exact hs.not_mem (by decide) (by decide) hc
  · exact hs.not_mem (by decide) (by decide) hc

private theorem Inner.append {t : List UInt8} (hs : Inner s) (ht : Inner t) : Inner (s ++ t) := by
  intro c hc
  rcases List.mem_append.mp hc with h | h
  · exact hs c h
  · exact ht c h

private theorem not_delimiter_of_digit (hc : 48 ≤ c ∧ c ≤ 57) : c ∉ delimiters := by
  have hall : ∀ c ∈ delimiters, ¬ (48 ≤ c ∧ c ≤ 57) := forall_mem_of_all (by decide)
  exact fun h => hall c h hc

private theorem uri_host_t.not_at (h : uri_host_t) : 64 ∉ h.text := by
  rcases h.valid with hname | ⟨s, hs, hinner⟩
  · exact fun hmem => hname 64 hmem (by decide)
  · rw [hs]
    simp only [List.mem_cons, List.mem_append, List.not_mem_nil, or_false, not_or]
    refine ⟨by decide, fun hmem => ?_, by decide⟩
    rcases hinner 64 hmem with h | h
    · exact absurd h (by decide)
    · exact h (by decide)

private theorem uri_host_t.inner (h : uri_host_t) : Inner h.text := by
  intro c hc
  rcases h.valid with hname | ⟨s, hs, hinner⟩
  · exact .inr (.inr (.inr (.inr (hname c hc))))
  · rw [hs] at hc
    simp only [List.mem_cons, List.mem_append, List.not_mem_nil, or_false] at hc
    rcases hc with rfl | hc | rfl
    · exact .inr (.inl rfl)
    · exact (hinner c hc).imp_right fun h => .inr (.inr (.inr h))
    · exact .inr (.inr (.inl rfl))

private theorem authority_t.inner (a : authority_t) : Inner a.text := by
  refine a.host.inner.append ?_
  intro c hc
  cases hport : a.port with
  | none =>
    rw [hport] at hc
    cases hc
  | some d =>
    rw [hport] at hc
    rcases List.mem_cons.mp hc with rfl | hc
    · exact .inl rfl
    · exact .inr (.inr (.inr (.inr (not_delimiter_of_digit (a.digits d hport c hc)))))

/-- A port has no colon. -/
theorem authority_t.port_colon (a : authority_t) {d : List UInt8} (hd : a.port = some d) : 58 ∉ d :=
  fun hmem => not_delimiter_of_digit (a.digits d hd 58 hmem) (by decide)

/-- The cut of an authority gives what it denotes exactly when a port follows, or when the default is meant and there is no colon. -/
theorem authority_t.split_port_eq (a : authority_t) {p port : List UInt8} (hp : 58 ∉ p ∧ p ≠ [])
    (hport : a.denoted_port (some p) = some port) (t : List UInt8) :
    split_port a.text t = (a.host.text, port) ↔
      (∃ d, a.port = some d ∧ d ≠ []) ∨ a.port = none ∧ 58 ∉ a.host.text ∧ t = p := by
  rw [authority_t.denoted_port] at hport
  rw [authority_t.text]
  cases hval : a.port with
  | none =>
    rw [hval] at hport
    cases hport
    rw [network.split_port_eq hp.1, Option.elim_none, List.append_nil]
    constructor
    · rintro (heq | ⟨-, hnot, rfl⟩)
      · exact absurd (List.append_right_eq_self.mp heq.symm) (List.cons_ne_nil 58 p)
      · exact .inr ⟨rfl, hnot, rfl⟩
    · rintro (⟨d, hd, -⟩ | ⟨-, hnot, rfl⟩)
      · cases hd
      · exact .inr ⟨rfl, hnot, rfl⟩
  | some d =>
    rw [hval] at hport
    cases d with
    | nil =>
      cases hport
      rw [network.split_port_eq hp.1, Option.elim_some]
      refine iff_of_false ?_ ?_
      · rintro (heq | ⟨heq, -⟩)
        · exact hp.2 (List.cons.inj (List.append_cancel_left heq)).2.symm
        · exact absurd (List.append_right_eq_self.mp heq) (List.cons_ne_nil 58 [])
      · rintro (⟨d, hd, hne⟩ | ⟨hnone, -⟩)
        · cases hd
          exact hne rfl
        · cases hnone
    | cons x d =>
      cases hport
      rw [network.split_port_eq (a.port_colon hval), Option.elim_some]
      exact iff_of_true (.inl rfl) (.inl ⟨x :: d, rfl, List.cons_ne_nil x d⟩)

private theorem authority_t.exists_port (a : authority_t) (p : List UInt8) : ∃ port, a.denoted_port (some p) = some port := by
  rw [authority_t.denoted_port]
  split
  · exact ⟨p, rfl⟩
  · exact ⟨p, rfl⟩
  · exact ⟨_, rfl⟩

/-- A tunnel leads to the right place exactly when the request line is seen and the authority is cut in the right place. -/
theorem connect_request_t.meets_iff (r : connect_request_t) : r.Meets ↔ r.Splits := by
  have hlength : r.method.length = 7 := by
    have h := congrArg List.length r.connect
    rwa [to_lower, List.length_map] at h
  have hclean : Clean r.method := by
    intro c hc
    have hmem : (if 65 ≤ c && c ≤ 90 then c + 32 else c) ∈ ascii "connect" := r.connect ▸ List.mem_map_of_mem hc
    refine ⟨?_, ?_, ?_⟩ <;> rintro rfl <;> exact absurd hmem (by decide)
  have hzero : r.method.takeWhile (· ≠ 0) = r.method := by
    rw [List.takeWhile_eq_self_iff]
    intro c hc
    have hmem : (if 65 ≤ c && c ≤ 90 then c + 32 else c) ∈ ascii "connect" := r.connect ▸ List.mem_map_of_mem hc
    rw [decide_eq_true_eq]
    rintro rfl
    exact absurd hmem (by decide)
  have hmethod : request_method r.head = r.method := by
    rcases request_method_eq r.rest hclean r.authority.inner.clean r.version_clean with h | h
    · exact h.1
    · omega
  have hentry : request_entry r.head = connect_entry r.head := by
    rw [request_entry, hmethod, if_pos]
    rw [is_connect, hzero, r.connect]
    rfl
  rw [connect_request_t.Meets, connect_request_t.Splits, hentry, connect_entry]
  dsimp only
  by_cases hseen : Seen r.method r.authority.text
  · rw [and_iff_right hseen, connect_request_t.head, (request_words hclean r.authority.inner.clean r.version_clean hseen).2]
    obtain ⟨port, hport⟩ := r.authority.exists_port (ascii "443")
    have hsplit := r.authority.split_port_eq (by decide) hport (ascii "443")
    rw [Prod.ext_iff] at hsplit
    rw [hport, Option.some.injEq, eq_comm (a := port), hsplit, authority_t.Cuts]
    simp only [and_true]
  · rw [connect_request_t.head, request_target_unseen hclean r.authority.inner.clean r.version_clean hseen]
    refine iff_of_false ?_ fun h => hseen h.1
    rintro ⟨hhost, -⟩
    exact r.authority.host.ne hhost.symm

/-- The two ways to cut. -/
theorem split_port_cases (s t : List UInt8) :
    58 ∉ s ∧ split_port s t = (s, t) ∨ ∃ a b, s = a ++ 58 :: b ∧ 58 ∉ b ∧ split_port s t = (a, b) := by
  cases hcolon : rfind 58 s with
  | none => exact .inl ⟨Find.rfind_eq_none.mp hcolon, by rw [split_port, hcolon]⟩
  | some i =>
    obtain ⟨a, b, hs, hb, -⟩ := Find.rfind_eq_some hcolon
    exact .inr ⟨a, b, hs, hb, (network.split_port_eq hb).mpr (.inl hs)⟩

end

section

variable (r : absolute_request_t)

/-- The text between the two slashes and the path. -/
def absolute_request_t.authority_text : List UInt8 := r.userinfo_text ++ r.authority.text

private theorem absolute_request_t.authority_inner : Inner r.authority_text := by
  refine Inner.append ?_ r.authority.inner
  intro c hc
  rw [absolute_request_t.userinfo_text] at hc
  cases huser : r.userinfo with
  | none =>
    rw [huser] at hc
    cases hc
  | some u =>
    rw [huser, Option.elim_some, List.mem_append, List.mem_singleton] at hc
    rcases hc with hc | rfl
    · exact (r.userinfo_valid u huser c hc).imp_right fun h => .inr (.inr (.inr h))
    · exact .inr (.inr (.inr (.inl rfl)))

private theorem absolute_request_t.query_text_clean : Clean r.query_text := by
  intro c hc
  rw [absolute_request_t.query_text] at hc
  cases hquery : r.query with
  | none =>
    rw [hquery] at hc
    cases hc
  | some q =>
    rw [hquery] at hc
    rcases List.mem_cons.mp hc with rfl | hc
    · decide
    · exact r.query_clean q hquery c hc

private theorem absolute_request_t.target_eq :
    r.target = r.scheme ++ 58 :: (ascii "//" ++ (r.authority_text ++ (r.path ++ r.query_text))) := by
  simp [absolute_request_t.target, absolute_request_t.authority_text, show ascii "://" = 58 :: ascii "//" from rfl]

private theorem absolute_request_t.target_clean : Clean r.target := by
  rw [r.target_eq]
  have hscheme : Inner r.scheme := fun c hc => .inr (.inr (.inr (.inr (r.scheme_valid c hc))))
  have hslashes : Clean (58 :: ascii "//") := forall_mem_of_all (by decide)
  exact hscheme.clean.append (hslashes.append (r.authority_inner.clean.append (r.path_clean.append r.query_text_clean)))

private theorem absolute_request_t.origin_clean : Clean r.origin := by
  refine Clean.append ?_ r.query_text_clean
  split
  · exact forall_mem_of_all (by decide)
  · exact r.path_clean

/-- The form for the server is shorter. -/
theorem absolute_request_t.origin_ne : r.target ≠ r.origin := by
  intro heq
  have hlength := congrArg List.length heq
  have hhost := List.length_pos_iff.mpr r.authority.host.ne
  have hrooted : (if r.path = [] then ascii "/" else r.path).length ≤ 1 + r.path.length := by
    split
    · exact Nat.le_add_right 1 _
    · exact Nat.le_add_left _ 1
  rw [r.target_eq, absolute_request_t.origin] at hlength
  simp only [List.length_append, List.length_cons, absolute_request_t.authority_text, authority_t.text] at hlength
  omega

/-- The prefix is there for this spelling of the scheme alone. -/
theorem absolute_request_t.http_prefix : ascii "http://" <+: r.target ↔ r.scheme = ascii "http" := by
  rw [r.target_eq, show ascii "http://" = ascii "http" ++ 58 :: ascii "//" from rfl]
  constructor
  · rintro ⟨rest, hrest⟩
    rw [List.append_assoc, List.cons_append] at hrest
    exact (Find.cut_inj (fun h => r.scheme_valid 58 h (by decide)) (by decide) hrest.symm).1
  · rintro hscheme
    rw [hscheme, ← List.cons_append, ← List.append_assoc]
    exact List.prefix_append _ _

private theorem request_bytes_inj {method t t' v v' rest : List UInt8} (ht : 32 ∉ t) (ht' : 32 ∉ t') :
    request_bytes method t v rest = request_bytes method t' v' rest ↔ t = t' ∧ v = v' := by
  constructor
  · intro heq
    have hline := List.append_cancel_right (List.append_cancel_right heq)
    simp only [List.append_assoc] at hline
    exact Find.cut_inj ht ht' (List.append_cancel_left (List.append_cancel_left hline))
  · rintro ⟨rfl, rfl⟩
    rfl

private theorem newline_none {method target rest : List UInt8} (hfind : find target (ascii "/") 7 = none) :
    newline method target ++ crlf ++ rest = request_bytes method (ascii "/") (ascii "HTTP/1.1") rest := by
  rw [newline, hfind]
  simp [request_bytes, ascii]

private theorem newline_some {method target rest : List UInt8} {i : Nat} (hfind : find target (ascii "/") 7 = some i) :
    newline method target ++ crlf ++ rest = request_bytes method (target.drop i) (ascii "HTTP/1.1") rest := by
  rw [newline, hfind]
  simp [request_bytes, ascii]

/-- What stands behind the scheme. -/
theorem absolute_request_t.target_drop (hscheme : r.scheme = ascii "http") :
    r.target.drop 7 = r.authority_text ++ (r.path ++ r.query_text) := by
  rw [r.target_eq, hscheme]
  rfl

/-- The slash that ends the authority. -/
theorem absolute_request_t.find_slash (hscheme : r.scheme = ascii "http") (hpath : r.path ≠ []) :
    find r.target (ascii "/") 7 = some (r.authority_text.length + 7) := by
  obtain ⟨p, hp⟩ := List.head?_eq_some_iff.mp (r.path_rooted.resolve_left hpath)
  have hnot : 47 ∉ r.authority_text := r.authority_inner.not_mem (by decide) (by decide)
  rw [Find.find_drop (by decide), r.target_drop hscheme, hp, List.cons_append, show ascii "/" = [47] from rfl,
    Find.find_char_append hnot, Option.map_some]

private theorem absolute_request_t.find_no_slash (hscheme : r.scheme = ascii "http") (hpath : r.path = []) (hquery : r.query = none) :
    find r.target (ascii "/") 7 = none := by
  have hnot : 47 ∉ r.authority_text := r.authority_inner.not_mem (by decide) (by decide)
  rw [show ascii "/" = [47] from rfl, Find.find_char_none, r.target_drop hscheme, hpath, absolute_request_t.query_text, hquery]
  simpa using hnot

/-- The line is the right one but for its version, unless a query follows an empty path. -/
theorem absolute_request_t.newline_eq (hscheme : r.scheme = ascii "http") (hpath : r.path = [] → r.query = none) :
    newline r.method r.target ++ crlf ++ r.rest = request_bytes r.method r.origin (ascii "HTTP/1.1") r.rest := by
  by_cases hempty : r.path = []
  · have hquery := hpath hempty
    rw [newline_none (r.find_no_slash hscheme hempty hquery), absolute_request_t.origin, if_pos hempty,
      absolute_request_t.query_text, hquery]
    rfl
  · rw [newline_some (r.find_slash hscheme hempty), Nat.add_comm, ← List.drop_drop, r.target_drop hscheme, List.drop_left,
      absolute_request_t.origin, if_neg hempty]

/-- A query behind an empty path is lost. -/
theorem absolute_request_t.newline_ne (hscheme : r.scheme = ascii "http") {q : List UInt8} (hpath : r.path = [])
    (hquery : r.query = some q) :
    newline r.method r.target ++ crlf ++ r.rest ≠ request_bytes r.method r.origin r.version r.rest := by
  have horigin : 32 ∉ r.origin := fun h => (r.origin_clean 32 h).1 rfl
  have hlength : r.origin.length = q.length + 2 := by
    rw [absolute_request_t.origin, if_pos hpath, absolute_request_t.query_text, hquery, Option.elim_some, List.length_append,
      List.length_cons, show (ascii "/").length = 1 from rfl]
    omega
  have hdrop : r.target.drop 7 = r.authority_text ++ 63 :: q := by
    rw [r.target_drop hscheme, hpath, absolute_request_t.query_text, hquery]
    rfl
  cases hfind : find r.target (ascii "/") 7 with
  | none =>
    rw [newline_none hfind, Ne, request_bytes_inj (by decide) horigin]
    rintro ⟨heq, -⟩
    rw [← heq] at hlength
    exact absurd hlength (by rw [show (ascii "/").length = 1 from rfl]; omega)
  | some i =>
    rw [newline_some hfind, Ne, request_bytes_inj (fun h => (r.target_clean 32 (List.mem_of_mem_drop h)).1 rfl) horigin]
    rintro ⟨heq, -⟩
    obtain ⟨hge, hplace, -⟩ := (Find.find_eq_some (List.cons_ne_nil 47 [])).mp hfind
    have hslash : (r.authority_text ++ 63 :: q)[i - 7]? = some 47 := by
      rw [← hdrop, List.getElem?_drop, Nat.add_sub_cancel' hge]
      exact Find.singleton_prefix_drop.mp hplace
    -- the slash is in the query
    have hbehind : r.authority_text.length < i - 7 := by
      by_contra hle
      rcases Nat.lt_or_eq_of_le (Nat.le_of_not_lt hle) with hlt | heq
      · rw [List.getElem?_append_left hlt] at hslash
        exact r.authority_inner.not_mem (by decide) (by decide) (List.mem_of_getElem? hslash)
      · rw [heq, List.getElem?_append_right (Nat.le_refl _), Nat.sub_self] at hslash
        cases hslash
    have hsize := congrArg List.length hdrop
    rw [← heq, List.length_drop] at hlength
    rw [List.length_drop, List.length_append, List.length_cons] at hsize
    omega

/-- The authority that is read, unless a query follows an empty path. -/
theorem absolute_request_t.target_host_eq (hscheme : r.scheme = ascii "http") (hpath : r.path = [] → r.query = none)
    (host port : List UInt8) :
    target_host r.target host port = if host = [] then split_port r.authority_text port else (host, port) := by
  rw [target_host]
  by_cases hempty : r.path = []
  · have hquery := hpath hempty
    rw [r.find_no_slash hscheme hempty hquery, r.target_drop hscheme, hempty, absolute_request_t.query_text, hquery,
      Option.elim_none, List.append_nil, List.append_nil]
  · rw [r.find_slash hscheme hempty, r.target_drop hscheme]
    dsimp only
    rw [Nat.add_sub_cancel, List.take_left]

private theorem absolute_request_t.host_denoted {p : List UInt8} (hp : r.authority.denoted_port (some (ascii "80")) = some p) :
    58 ∉ p ∧ 64 ∉ p := by
  rw [authority_t.denoted_port] at hp
  split at hp
  · cases hp
    decide
  · cases hp
    decide
  · rename_i d _ hd
    cases hp
    exact ⟨r.authority.port_colon hd, fun h => not_delimiter_of_digit (r.authority.digits _ hd 64 h) (by decide)⟩

/-- The host and the port are those denoted exactly when the Host header says so, or leaves it to a target cut in the right place. -/
theorem absolute_request_t.host_iff {p : List UInt8} (hp : r.authority.denoted_port (some (ascii "80")) = some p) :
    (if (split_port r.host_value (ascii "80")).1 = [] then
        split_port r.authority_text (split_port r.host_value (ascii "80")).2
      else split_port r.host_value (ascii "80")) = (r.authority.host.text, p) ↔ r.HostAgrees ∨ r.TargetDecides := by
  obtain ⟨hcolon, hat⟩ := r.host_denoted hp
  have hne := r.authority.host.ne
  by_cases hhost : (split_port r.host_value (ascii "80")).1 = []
  · -- the Host header names no host
    have hvalue : r.host_value = [] ∧ (split_port r.host_value (ascii "80")).2 = ascii "80" ∨
        ∃ q, 58 ∉ q ∧ r.host_value = 58 :: q ∧ (split_port r.host_value (ascii "80")).2 = q := by
      rcases split_port_cases r.host_value (ascii "80") with ⟨-, hcut⟩ | ⟨a, b, hs, hb, hcut⟩
      · rw [hcut] at hhost ⊢
        exact .inl ⟨hhost, rfl⟩
      · rw [hcut] at hhost ⊢
        obtain rfl : a = [] := hhost
        exact .inr ⟨b, hb, hs, rfl⟩
    have hagrees : ¬ r.HostAgrees := by
      rintro ⟨p', hp', hsame⟩
      obtain rfl := Option.some.inj (hp.symm.trans hp')
      have hcut : (split_port r.host_value (ascii "80")).1 = r.authority.host.text := by
        rw [(network.split_port_eq hcolon).mpr (hsame.imp_right fun h => ⟨h.1, h.2.1, h.2.2.symm⟩)]
      exact hne (hcut.symm.trans hhost)
    have hports : (split_port r.host_value (ascii "80")).2 = ascii "80" ↔ r.host_value = [] ∨ r.host_value = ascii ":80" := by
      rcases hvalue with ⟨hs, hport⟩ | ⟨q, -, hs, hport⟩
      · exact iff_of_true hport (.inl hs)
      · rw [hport, hs, show ascii ":80" = 58 :: ascii "80" from rfl]
        simp
    have hleft : r.host_value = [] ∨ ∃ q, 58 ∉ q ∧ r.host_value = 58 :: q := by
      rcases hvalue with ⟨hs, -⟩ | ⟨q, hq, hs, -⟩
      · exact .inl hs
      · exact .inr ⟨q, hq, hs⟩
    rw [if_pos hhost, or_iff_right hagrees, absolute_request_t.TargetDecides, and_iff_right hleft, ← hports,
      absolute_request_t.authority_text, absolute_request_t.userinfo_text]
    cases huser : r.userinfo with
    | none => rw [Option.elim_none, List.nil_append, r.authority.split_port_eq (by decide) hp, and_iff_right rfl]
    | some u =>
      rw [network.split_port_eq hcolon, Option.elim_some]
      refine iff_of_false ?_ fun h => Option.some_ne_none u h.1
      have hmem : 64 ∈ u ++ [64] ++ r.authority.text := by simp
      rintro (heq | ⟨heq, -⟩)
      · rw [heq, List.mem_append, List.mem_cons] at hmem
        rcases hmem with h | h | h
        · exact r.authority.host.not_at h
        · exact absurd h (by decide)
        · exact hat h
      · rw [heq] at hmem
        exact r.authority.host.not_at hmem
  · have htarget : ¬ r.TargetDecides := by
      rintro ⟨hs | ⟨q, hq, hs⟩, -⟩
      · exact hhost (by rw [hs]; rfl)
      · exact hhost (by rw [hs, (network.split_port_eq hq).mpr (.inl (List.nil_append _).symm)])
    rw [if_neg hhost, or_iff_left htarget, network.split_port_eq hcolon, absolute_request_t.HostAgrees]
    constructor
    · intro h
      exact ⟨p, hp, h.imp_right fun h => ⟨h.1, h.2.1, h.2.2.symm⟩⟩
    · rintro ⟨p', hp', hsame⟩
      obtain rfl := Option.some.inj (hp.symm.trans hp')
      exact hsame.imp_right fun h => ⟨h.1, h.2.1, h.2.2.symm⟩

/-- What follows the request line is kept. -/
theorem absolute_request_t.drop_eol : r.head.drop ((find r.head crlf 0).getD r.head.length) = crlf ++ r.rest := by
  have hline : 13 ∉ r.method ++ ascii " " ++ r.target ++ ascii " " ++ r.version := by
    simp only [List.mem_append, not_or]
    exact ⟨⟨⟨⟨fun h => (r.method_clean 13 h).2.1 rfl, by decide⟩, fun h => (r.target_clean 13 h).2.1 rfl⟩, by decide⟩,
      fun h => (r.version_clean 13 h).2.1 rfl⟩
  rw [absolute_request_t.head, request_bytes, (Find.find_zero crlf_ne).mpr (first_crlf hline), Option.getD_some,
    List.append_assoc _ crlf, List.drop_left]

private theorem absolute_request_t.entry_eq : request_entry r.head = plain_entry r.head := by
  have hplain : is_connect (request_method r.head) = false := by
    rcases request_method_eq r.rest r.method_clean r.target_clean r.version_clean with h | h
    · rw [absolute_request_t.head, h.1, r.plain]
    · rw [absolute_request_t.head, h.1]
      rfl
  rw [request_entry, hplain, if_neg Bool.false_ne_true]

/-- Without the prefix a request is sent on as it is. -/
theorem absolute_request_t.not_meets (hpre : ¬ ascii "http://" <+: request_target r.head) : ¬ r.Meets := by
  rintro ⟨-, -, hraw⟩
  rw [r.entry_eq] at hraw
  simp only [plain_entry, if_neg hpre] at hraw
  exact r.origin_ne ((request_bytes_inj (fun h => (r.target_clean 32 h).1 rfl) fun h => (r.origin_clean 32 h).1 rfl).mp hraw).1

private theorem absolute_request_t.meets_iff : r.Meets ↔ r.Forwards := by
  by_cases hseen : Seen r.method r.target
  · have htarget : request_target r.head = r.target := (request_words r.method_clean r.target_clean r.version_clean hseen).2
    have hmethod : request_method r.head = r.method := (request_words r.method_clean r.target_clean r.version_clean hseen).1
    by_cases hscheme : r.scheme = ascii "http"
    · have hpre := r.http_prefix.mpr hscheme
      obtain ⟨p, hp⟩ := r.authority.exists_port (ascii "80")
      have hdefault : default_port r.scheme = some (ascii "80") := by
        rw [hscheme]
        rfl
      have hraw : (plain_entry r.head).raw_request = newline r.method r.target ++ crlf ++ r.rest := by
        simp only [plain_entry, htarget, if_pos hpre, hmethod, r.drop_eol, List.append_assoc]
      rw [absolute_request_t.Meets, absolute_request_t.Forwards, and_iff_right hseen, and_iff_right hscheme, r.entry_eq, hraw,
        hdefault, hp]
      by_cases hpath : r.path = [] → r.query = none
      · have hhost : ((plain_entry r.head).host, (plain_entry r.head).port) =
            if (split_port r.host_value (ascii "80")).1 = [] then split_port r.authority_text (split_port r.host_value (ascii "80")).2
            else split_port r.host_value (ascii "80") := by
          simp only [plain_entry, htarget, if_pos hpre]
          exact r.target_host_eq hscheme hpath _ _
        have horigin : 32 ∉ r.origin := fun h => (r.origin_clean 32 h).1 rfl
        rw [r.newline_eq hscheme hpath, request_bytes_inj horigin horigin, and_iff_right rfl, and_iff_right hpath, ← r.host_iff hp,
          ← hhost, Prod.mk.injEq, eq_comm (b := r.version)]
        constructor
        · rintro ⟨htext, hport, hversion⟩
          exact ⟨hversion, htext, hport p rfl⟩
        · rintro ⟨hversion, htext, hport⟩
          exact ⟨htext, fun p' hp' => hport.trans (Option.some.inj hp'), hversion⟩
      · refine iff_of_false ?_ fun h => hpath h.2.1
        rintro ⟨-, -, hline⟩
        obtain ⟨hempty, hquery⟩ := Classical.not_imp.mp hpath
        obtain ⟨q, hq⟩ := Option.ne_none_iff_exists'.mp hquery
        exact r.newline_ne hscheme hempty hq hline
    · refine iff_of_false (r.not_meets ?_) fun h => hscheme h.2.1
      rw [htarget, r.http_prefix]
      exact hscheme
  · refine iff_of_false (r.not_meets ?_) fun h => hseen h.1
    rw [absolute_request_t.head, request_target_unseen r.method_clean r.target_clean r.version_clean hseen]
    decide

end

/-- An address in brackets and no port. -/
def bracketed : connect_request_t where
  method := ascii "CONNECT"
  authority :=
    { host := { text := ascii "[::1]", ne := by decide, valid := .inr ⟨ascii "::1", by decide, forall_mem_of_all (by decide)⟩ }
      port := none
      digits := nofun }
  version := ascii "HTTP/1.1"
  rest := crlf
  connect := by decide
  version_clean := forall_mem_of_all (by decide)

theorem bracketed_is_cut : ¬ bracketed.Meets := by
  rw [connect_request_t.meets_iff]
  rintro ⟨-, ⟨d, hd, -⟩ | ⟨-, hcolon⟩⟩
  · cases hd
  · exact hcolon (by decide)

/-- When a tunnel leads where the authority says, and a request with an absolute target is forwarded as it should be. -/
theorem proxy_targets (c : connect_request_t) (r : absolute_request_t) : (c.Meets ↔ c.Splits) ∧ (r.Meets ↔ r.Forwards) :=
  ⟨c.meets_iff, r.meets_iff⟩

end slop.core.network
