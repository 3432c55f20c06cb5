import ReverseSlop.Core.Disasm.Bplist
import ReverseSlop.Library.Find

namespace slop.core.disasm.ipa

open Numeral (ascii)

inductive tag_kind_t where
  | open | close | empty
  deriving DecidableEq

structure tag_t where
  kind : tag_kind_t := .open
  name : List UInt8 := []
  deriving DecidableEq

/-- A blank between the parts of a tag. -/
def is_space (c : UInt8) : Bool := c = 32 || c = 9 || c = 13 || c = 10

-- what is left of the text stands for the position in it

/-- What is behind the first place of `term`. -/
def skip_past (s term : List UInt8) : Option (List UInt8) :=
  (Find.find s term 0).map fun e => s.drop (e + term.length)

/-- What is behind the comment, section, instruction or declaration at the front, if there is one there. -/
def skip_markup (rest : List UInt8) : Option (Option (List UInt8)) :=
  if ascii "<!--" <+: rest then some (skip_past (rest.drop 4) (ascii "-->"))
  else if ascii "<![CDATA[" <+: rest then some (skip_past (rest.drop 9) (ascii "]]>"))
  else if ascii "<?" <+: rest then some (skip_past (rest.drop 2) (ascii "?>"))
  else if ascii "<!" <+: rest then some (skip_past (rest.drop 2) (ascii ">"))
  else none

/-- The part of a tag up to the `>` outside of quotes, and what is behind that. -/
def to_tag_end : Option UInt8 → List UInt8 → Option (List UInt8 × List UInt8)
  | _, [] => none
  | some quote, c :: s => (to_tag_end (if c = quote then none else some quote) s).map fun (inside, rest) => (c :: inside, rest)
  | none, c :: s =>
    if c = 34 ∨ c = 39 then (to_tag_end (some c) s).map fun (inside, rest) => (c :: inside, rest)
    else if c = 62 then some ([], s)
    else (to_tag_end none s).map fun (inside, rest) => (c :: inside, rest)

def read_name (closing : Bool) (p : List UInt8) : Option (tag_t × List UInt8) :=
  let name := p.takeWhile fun c => !is_space c && c ≠ 47 && c ≠ 62
  if name = [] then none
  else
    (to_tag_end none (p.drop name.length)).map fun (inside, rest) =>
      -- the character in front of the `>`; a name has no `/`
      ({ kind := if closing then .close else if inside.getLast? = some 47 then .empty else .open, name }, rest)

/-- The tag whose `<` is in front of `p`. -/
def read_tag (p : List UInt8) : Option (tag_t × List UInt8) :=
  if p.head? = some 47 then read_name true (p.drop 1) else read_name false p

theorem skip_past_length {s term rest : List UInt8} (h : skip_past s term = some rest) : rest.length ≤ s.length := by
  obtain ⟨e, _, rfl⟩ := Option.map_eq_some_iff.mp h
  simp

theorem skip_markup_length {s rest : List UInt8} (h : skip_markup s = some (some rest)) : rest.length < s.length := by
  have hdrop : ∀ (front : List UInt8) {term n}, front ≠ [] → front <+: s → n = front.length →
      skip_past (s.drop n) term = some rest → rest.length < s.length := by
    intro front term n hne hfront hn hskip
    have hlen := skip_past_length hskip
    have hle := hfront.length_le
    have hpos := List.length_pos_iff.mpr hne
    rw [List.length_drop] at hlen
    omega
  rw [skip_markup] at h
  split at h
  · rename_i hfront
    exact hdrop _ (by decide) hfront (by decide) (Option.some.inj h)
  · split at h
    · rename_i hfront
      exact hdrop _ (by decide) hfront (by decide) (Option.some.inj h)
    · split at h
      · rename_i hfront
        exact hdrop _ (by decide) hfront (by decide) (Option.some.inj h)
      · split at h
        · rename_i hfront
          exact hdrop _ (by decide) hfront (by decide) (Option.some.inj h)
        · cases h

theorem to_tag_end_length {quote : Option UInt8} {s inside rest : List UInt8} (h : to_tag_end quote s = some (inside, rest)) :
    rest.length < s.length := by
  induction quote, s using to_tag_end.induct generalizing inside with
  | case1 => simp [to_tag_end] at h
  | case2 quote c s ih =>
    rw [to_tag_end] at h
    obtain ⟨⟨inside', rest'⟩, hrest, heq⟩ := Option.map_eq_some_iff.mp h
    obtain ⟨_, rfl⟩ := Prod.mk.inj heq
    exact Nat.lt_succ_of_lt (ih hrest)
  | case3 c s hquote ih =>
    rw [to_tag_end, if_pos hquote] at h
    obtain ⟨⟨inside', rest'⟩, hrest, heq⟩ := Option.map_eq_some_iff.mp h
    obtain ⟨_, rfl⟩ := Prod.mk.inj heq
    exact Nat.lt_succ_of_lt (ih hrest)
  | case4 s hquote =>
    rw [to_tag_end, if_neg hquote, if_pos (by simp), Option.some.injEq, Prod.mk.injEq] at h
    simp [h.2]
  | case5 c s hquote hend ih =>
    rw [to_tag_end, if_neg hquote, if_neg hend] at h
    obtain ⟨⟨inside', rest'⟩, hrest, heq⟩ := Option.map_eq_some_iff.mp h
    obtain ⟨_, rfl⟩ := Prod.mk.inj heq
    exact Nat.lt_succ_of_lt (ih hrest)

theorem read_name_length {closing : Bool} {p rest : List UInt8} {t : tag_t} (h : read_name closing p = some (t, rest)) :
    rest.length < p.length := by
  simp only [read_name] at h
  split at h
  · simp at h
  · obtain ⟨⟨inside, rest'⟩, hend, heq⟩ := Option.map_eq_some_iff.mp h
    have hrest : rest' = rest := (Prod.mk.inj heq).2
    have hlt := to_tag_end_length hend
    rw [List.length_drop, hrest] at hlt
    omega

theorem read_tag_length {p rest : List UInt8} {t : tag_t} (h : read_tag p = some (t, rest)) : rest.length < p.length := by
  rw [read_tag] at h
  split at h
  · have hlt := read_name_length h
    rw [List.length_drop] at hlt
    omega
  · exact read_name_length h

/-- The next element tag; text, comments, instructions, declarations and CDATA are skipped. -/
def next_tag (s : List UInt8) : Option (tag_t × List UInt8) :=
  let rest := s.dropWhile (· ≠ 60)
  if rest = [] then none
  else
    match _h : skip_markup rest with
    | some (some behind) => next_tag behind
    | some none => none
    | none => read_tag (rest.drop 1)
termination_by s.length
decreasing_by
  have hlt := skip_markup_length ‹_›
  have hle := (List.dropWhile_suffix (fun c : UInt8 => decide (c ≠ 60)) (l := s)).length_le
  simp only [rest] at hlt
  omega

def char_ref_digit (hex : Bool) (c : UInt8) : Option UInt32 :=
  if 48 ≤ c ∧ c ≤ 57 then some (c - 48).toUInt32
  else if hex ∧ 97 ≤ c ∧ c ≤ 102 then some (c - 97 + 10).toUInt32
  else if hex ∧ 65 ≤ c ∧ c ≤ 70 then some (c - 65 + 10).toUInt32
  else none

def char_ref_value (hex : Bool) : List UInt8 → UInt32 → Option UInt32
  | [], cp => some cp
  | c :: s, cp => do
    let digit ← char_ref_digit hex c
    let cp := cp * (if hex then 16 else 10) + digit
    if cp > 0x10FFFF then none else char_ref_value hex s cp

def char_ref_hex (ent : List UInt8) : Bool := ent[1]? = some 120 || ent[1]? = some 88

/-- The character of an entity whose text begins with `#`. -/
def char_ref (ent : List UInt8) : Option UInt32 :=
  let ds := ent.drop (if char_ref_hex ent then 2 else 1)
  if ds = [] then none
  else (char_ref_value (char_ref_hex ent) ds 0).filter fun cp => !(cp = 0 || (0xD800 ≤ cp && cp ≤ 0xDFFF))

/-- What an entity stands for, if it is a known one. -/
def entity (ent : List UInt8) : Option (List UInt8) :=
  if ent = ascii "amp" then some [38]
  else if ent = ascii "lt" then some [60]
  else if ent = ascii "gt" then some [62]
  else if ent = ascii "quot" then some [34]
  else if ent = ascii "apos" then some [39]
  else if ent.length ≥ 2 ∧ ent.head? = some 35 then (char_ref ent).map (append_utf8 [])
  else none

def decode_entities (t : List UInt8) : List UInt8 :=
  match t with
  | [] => []
  | c :: rest =>
    if c ≠ 38 then c :: decode_entities rest
    else
      match Find.find rest [59] 0 with
      | none => c :: decode_entities rest
      | some n =>
        -- the `;` is at n + 1
        if n + 1 > 12 then c :: decode_entities rest
        else
          match entity (rest.take n) with
          | some s => s ++ decode_entities (rest.drop (n + 1))
          | none => c :: decode_entities rest
termination_by t.length

/-- One round of the search. -/
theorem next_tag_eq (s : List UInt8) :
    next_tag s =
      if s.dropWhile (· ≠ 60) = [] then none
      else
        match skip_markup (s.dropWhile (· ≠ 60)) with
        | some behind => behind.bind next_tag
        | none => read_tag ((s.dropWhile (· ≠ 60)).drop 1) := by
  rw [next_tag]
  split
  · simp
  · split <;> simp_all

theorem next_tag_length {s rest : List UInt8} {t : tag_t} (h : next_tag s = some (t, rest)) : rest.length < s.length := by
  induction hn : s.length using Nat.strong_induction_on generalizing s with
  | _ n ih =>
    subst hn
    have hle := (List.dropWhile_suffix (fun c : UInt8 => decide (c ≠ 60)) (l := s)).length_le
    rw [next_tag_eq] at h
    split at h
    · cases h
    · split at h
      · rename_i behind hskip
        obtain ⟨after, rfl, h⟩ := Option.bind_eq_some_iff.mp h
        have hlt := skip_markup_length hskip
        have hrest := ih after.length (by omega) h rfl
        omega
      · have hlt := read_tag_length h
        rw [List.length_drop] at hlt
        omega

/-- The characters up to the end tag of an element with a name, behind those read before, and what is behind it. -/
def read_text (name s out : List UInt8) : Option (List UInt8 × List UInt8) :=
  let rest := s.dropWhile (· ≠ 60)
  if rest = [] then none
  else
    let out := out ++ decode_entities (s.takeWhile (· ≠ 60))
    if ascii "<![CDATA[" <+: rest then
      match Find.find (rest.drop 9) (ascii "]]>") 0 with
      | none => none
      | some e => read_text name (rest.drop (9 + e + 3)) (out ++ (rest.drop 9).take e)
    else if ascii "<!--" <+: rest then
      match _h : skip_past (rest.drop 4) (ascii "-->") with
      | none => none
      | some behind => read_text name behind out
    else
      match next_tag rest with
      | none => none
      | some (t, behind) => if t.kind = .close ∧ t.name = name then some (out, behind) else none
termination_by s.length
decreasing_by
  · have hle := (List.dropWhile_suffix (fun c : UInt8 => decide (c ≠ 60)) (l := s)).length_le
    have hpos := List.length_pos_iff.mpr ‹rest ≠ []›
    rw [List.length_drop]
    simp only [rest] at hpos
    omega
  · have hle := (List.dropWhile_suffix (fun c : UInt8 => decide (c ≠ 60)) (l := s)).length_le
    have hpos := List.length_pos_iff.mpr ‹rest ≠ []›
    have hlen := skip_past_length ‹_›
    rw [List.length_drop] at hlen
    simp only [rest] at hpos hlen
    omega

/-- What is behind the end tags of some open elements. -/
def skip_elements (depth : Nat) (s : List UInt8) : Option (List UInt8) :=
  if depth = 0 then some s
  else
    match _h : next_tag s with
    | none => none
    | some (t, rest) =>
      match t.kind with
      | .open => skip_elements (depth + 1) rest
      | .close => skip_elements (depth - 1) rest
      | .empty => skip_elements depth rest
termination_by s.length
decreasing_by
  all_goals exact next_tag_length ‹_›

/-- What is behind the element whose open tag was read. -/
def skip_element (s : List UInt8) : Option (List UInt8) := skip_elements 1 s

theorem read_text_eq (name s out : List UInt8) :
    read_text name s out =
      if s.dropWhile (· ≠ 60) = [] then none
      else if ascii "<![CDATA[" <+: s.dropWhile (· ≠ 60) then
        (Find.find ((s.dropWhile (· ≠ 60)).drop 9) (ascii "]]>") 0).bind fun e =>
          read_text name ((s.dropWhile (· ≠ 60)).drop (9 + e + 3))
            (out ++ decode_entities (s.takeWhile (· ≠ 60)) ++ ((s.dropWhile (· ≠ 60)).drop 9).take e)
      else if ascii "<!--" <+: s.dropWhile (· ≠ 60) then
        (skip_past ((s.dropWhile (· ≠ 60)).drop 4) (ascii "-->")).bind fun behind =>
          read_text name behind (out ++ decode_entities (s.takeWhile (· ≠ 60)))
      else
        (next_tag (s.dropWhile (· ≠ 60))).bind fun (t, behind) =>
          if t.kind = .close ∧ t.name = name then some (out ++ decode_entities (s.takeWhile (· ≠ 60)), behind) else none := by
  rw [read_text]
  split
  · simp
  · split
    · split <;> simp_all
    · split
      · split <;> simp_all
      · split <;> simp_all

theorem read_text_length {name s out text rest : List UInt8} (h : read_text name s out = some (text, rest)) :
    rest.length < s.length := by
  induction hn : s.length using Nat.strong_induction_on generalizing s out with
  | _ n ih =>
    subst hn
    have hle := (List.dropWhile_suffix (fun c : UInt8 => decide (c ≠ 60)) (l := s)).length_le
    rw [read_text_eq] at h
    split at h
    · cases h
    · rename_i hne
      have hpos := List.length_pos_iff.mpr hne
      split at h
      · obtain ⟨e, _, h⟩ := Option.bind_eq_some_iff.mp h
        have hlt := ih _ (by rw [List.length_drop]; omega) h rfl
        rw [List.length_drop] at hlt
        omega
      · split at h
        · obtain ⟨behind, hskip, h⟩ := Option.bind_eq_some_iff.mp h
          have hlen := skip_past_length hskip
          rw [List.length_drop] at hlen
          have hlt := ih behind.length (by omega) h rfl
          omega
        · obtain ⟨⟨t, behind⟩, htag, h⟩ := Option.bind_eq_some_iff.mp h
          have hlt := next_tag_length htag
          simp only at h
          split at h
          · obtain rfl : behind = rest := (Prod.mk.inj (Option.some.inj h)).2
            omega
          · cases h

theorem skip_elements_eq (depth : Nat) (s : List UInt8) :
    skip_elements depth s =
      if depth = 0 then some s
      else
        (next_tag s).bind fun (t, rest) =>
          match t.kind with
          | .open => skip_elements (depth + 1) rest
          | .close => skip_elements (depth - 1) rest
          | .empty => skip_elements depth rest := by
  rw [skip_elements]
  split
  · simp
  · split <;> simp_all

theorem skip_elements_length {depth : Nat} {s rest : List UInt8} (h : skip_elements depth s = some rest) :
    rest.length ≤ s.length := by
  induction hn : s.length using Nat.strong_induction_on generalizing s depth with
  | _ n ih =>
    subst hn
    rw [skip_elements_eq] at h
    split at h
    · rw [Option.some.inj h]
    · obtain ⟨⟨t, behind⟩, htag, h⟩ := Option.bind_eq_some_iff.mp h
      have hlt := next_tag_length htag
      simp only at h
      split at h
      · have hle := ih behind.length hlt h rfl
        omega
      · have hle := ih behind.length hlt h rfl
        omega
      · have hle := ih behind.length hlt h rfl
        omega

/-- What is behind the tag of the top dictionary; `none` in its place for one without content. -/
def find_dict (s : List UInt8) : Option (Option (List UInt8)) :=
  match _h : next_tag s with
  | none => none
  | some (t, rest) =>
    if t.kind = .open ∧ t.name = ascii "plist" then find_dict rest
    else if t.name = ascii "dict" ∧ t.kind = .empty then some none
    else if t.name = ascii "dict" ∧ t.kind = .open then some (some rest)
    else none
termination_by s.length
decreasing_by exact next_tag_length ‹_›

/-- The value whose tag is `t`, if it is a string, and what is behind it. -/
def read_value (t : tag_t) (s : List UInt8) : Option (Option (List UInt8) × List UInt8) :=
  if t.name = ascii "string" then
    if t.kind = .open then (read_text (ascii "string") s []).map fun (value, rest) => (some value, rest)
    else some (some [], s)
  else if t.kind = .open then (skip_element s).map fun rest => (none, rest)
  else some (none, s)

theorem read_value_length {t : tag_t} {s rest : List UInt8} {value : Option (List UInt8)}
    (h : read_value t s = some (value, rest)) : rest.length ≤ s.length := by
  rw [read_value] at h
  split at h
  · split at h
    · obtain ⟨⟨text, rest'⟩, htext, heq⟩ := Option.map_eq_some_iff.mp h
      obtain rfl : rest' = rest := (Prod.mk.inj heq).2
      exact Nat.le_of_lt (read_text_length htext)
    · obtain rfl : s = rest := (Prod.mk.inj (Option.some.inj h)).2
      exact Nat.le_refl _
  · split at h
    · obtain ⟨rest', hskip, heq⟩ := Option.map_eq_some_iff.mp h
      obtain rfl : rest' = rest := (Prod.mk.inj heq).2
      exact skip_elements_length hskip
    · obtain rfl : s = rest := (Prod.mk.inj (Option.some.inj h)).2
      exact Nat.le_refl _

/-- A tag that was read already, or the next one. -/
def this_tag (pending : Option tag_t) (s : List UInt8) : Option (tag_t × List UInt8) :=
  match pending with
  | some t => some (t, s)
  | none => next_tag s

theorem this_tag_length {pending : Option tag_t} {s rest : List UInt8} {t : tag_t} (h : this_tag pending s = some (t, rest)) :
    2 * rest.length < 2 * s.length + if pending.isSome then 1 else 0 := by
  cases pending with
  | some t' =>
    obtain rfl : s = rest := (Prod.mk.inj (Option.some.inj h)).2
    simp
  | none =>
    have hlt := next_tag_length h
    simp only [Option.isSome_none]
    omega

/-- The pairs of the top dictionary. -/
def read_dict (pending : Option tag_t) (s : List UInt8) (out : plist_map_t) : Bool × plist_map_t :=
  match _h : this_tag pending s with
  | none => (false, out)
  | some (t, rest) =>
    if t.kind = .close then (t.name = ascii "dict", out)
    else if t.kind = .empty then read_dict none rest out
    else if t.name ≠ ascii "key" then
      match _h : skip_element rest with
      | none => (false, out)
      | some rest => read_dict none rest out
    else
      match _h : read_text (ascii "key") rest [] with
      | none => (false, out)
      | some (key, rest) =>
        match _h : next_tag rest with
        | none => (false, out)
        | some (t, rest) =>
          -- a key without a value
          if t.kind = .close then (t.name = ascii "dict", out)
          else if t.kind = .open ∧ t.name = ascii "key" then read_dict (some t) rest out
          else
            match _h : read_value t rest with
            | none => (false, out)
            | some (value, rest) => read_dict none rest (value.elim out fun value => SortedMap.set key value out)
termination_by 2 * s.length + if pending.isSome then 1 else 0
decreasing_by
  · simpa using this_tag_length ‹_›
  · have hlt := this_tag_length ‹_›
    have hle := skip_elements_length ‹_›
    simp only [Option.isSome_none, Bool.false_eq_true, if_false]
    omega
  · have hlt := this_tag_length ‹_›
    have hkey := read_text_length ‹_›
    have hnext := next_tag_length ‹_›
    simp only [Option.isSome_some, if_true]
    omega
  · have hlt := this_tag_length ‹_›
    have hkey := read_text_length ‹_›
    have hnext := next_tag_length ‹_›
    have hvalue := read_value_length ‹_›
    simp only [Option.isSome_none, Bool.false_eq_true, if_false]
    omega

def parse_xml_plist (s : List UInt8) (out : plist_map_t) : Bool × plist_map_t :=
  match find_dict s with
  | none => (false, out)
  | some none => (true, out)
  | some (some rest) => read_dict none rest out

end slop.core.disasm.ipa
