import Mathlib.Data.List.TakeWhile
import ReverseSlop.Core.Re.TypeCatalog

namespace slop.core.re.type_catalog

open Numeral (ascii is_digit is_space)

abbrev token_t := List UInt8

def is_alpha (c : UInt8) : Bool := (65 ≤ c && c ≤ 90) || (97 ≤ c && c ≤ 122)

def ident_start (c : UInt8) : Bool := is_alpha c || c = 95

def ident_char (c : UInt8) : Bool := is_alpha c || is_digit c || c = 95

/-- A digit in base 16, or what its prefix ends in. -/
def number_char (c : UInt8) : Bool :=
  is_digit c || (65 ≤ c && c ≤ 70) || (97 ≤ c && c ≤ 102) || c = 120 || c = 88

/-- A digit, or a sign with a digit behind it. -/
def number_start (c : UInt8) (rest : List UInt8) : Bool := is_digit c || ((c = 45 || c = 43) && rest.head?.any is_digit)

/-- The next token, which is empty at the end, and what is behind it. -/
def tokenizer_t.next (s : List UInt8) : token_t × List UInt8 :=
  match s.dropWhile is_space with
  | [] => ([], [])
  | c :: rest =>
    if ident_start c then ((c :: rest).takeWhile ident_char, (c :: rest).dropWhile ident_char)
    else if number_start c rest then (c :: rest.takeWhile number_char, rest.dropWhile number_char)
    else ([c], rest)

def tokens_upto : Nat → List UInt8 → List token_t
  | 0, _ => []
  | n + 1, s =>
    match tokenizer_t.next s with
    | ([], _) => []
    | (t, rest) => t :: tokens_upto n rest

/-- The tokens of a text. The source cuts them off one by one as it needs them. -/
def tokens (s : List UInt8) : List token_t := tokens_upto s.length s

def is_ident : token_t → Bool
  | [] => false
  | c :: rest => ident_start c && rest.all ident_char

def is_number : token_t → Bool
  | [] => false
  | c :: rest => number_start c rest && rest.all number_char

/-- A text of tokens, before each of which any blanks may stand. A word or a number ends where the text cannot
go on with it. -/
inductive Spells : List token_t → List UInt8 → Prop
  | stop {blanks : List UInt8} (hblanks : ∀ c ∈ blanks, is_space c = true) : Spells [] blanks
  | word {blanks rest : List UInt8} {t : token_t} {ts : List token_t} (hblanks : ∀ c ∈ blanks, is_space c = true)
    (ht : is_ident t = true) (hend : ∀ c ∈ rest.head?, ident_char c = false) (hrest : Spells ts rest) :
    Spells (t :: ts) (blanks ++ t ++ rest)
  | number {blanks rest : List UInt8} {t : token_t} {ts : List token_t} (hblanks : ∀ c ∈ blanks, is_space c = true)
    (ht : is_number t = true) (hend : ∀ c ∈ rest.head?, number_char c = false) (hrest : Spells ts rest) :
    Spells (t :: ts) (blanks ++ t ++ rest)
  | mark {blanks rest : List UInt8} {c : UInt8} {ts : List token_t} (hblanks : ∀ c ∈ blanks, is_space c = true)
    (hc : c ∈ ascii "\x7b\x7d;,:=[]*") (hrest : Spells ts rest) : Spells ([c] :: ts) (blanks ++ [c] ++ rest)

section

variable {blanks rest t : List UInt8} {c : UInt8}

/-- A character that begins a word is no blank. -/
theorem not_space_of_ident_start (hc : ident_start c = true) : is_space c = false := by
  simp only [ident_start, is_alpha, is_space] at *
  grind

theorem ident_char_of_start (hc : ident_start c = true) : ident_char c = true := by
  simp only [ident_start, ident_char] at *
  grind

theorem number_start_spec {rest : List UInt8} (hc : number_start c rest = true) : is_space c = false ∧ ident_start c = false := by
  have hcases : is_digit c = true ∨ c = 45 ∨ c = 43 := by
    simp only [number_start, Bool.or_eq_true, Bool.and_eq_true, decide_eq_true_eq] at hc
    exact hc.imp_right And.left
  simp only [ident_start, is_alpha, is_space, is_digit] at *
  grind

theorem mark_spec (hc : c ∈ ascii "\x7b\x7d;,:=[]*") :
    is_space c = false ∧ ident_start c = false ∧ is_digit c = false ∧ c ≠ 45 ∧ c ≠ 43 := by
  have hall : ∀ c ∈ ascii "\x7b\x7d;,:=[]*",
      is_space c = false ∧ ident_start c = false ∧ is_digit c = false ∧ c ≠ 45 ∧ c ≠ 43 := by
    decide +kernel
  exact hall c hc

/-- The characters of a kind at the front end where one of another kind follows. -/
theorem span_append {p : UInt8 → Bool} (ht : ∀ c ∈ t, p c = true) (hend : ∀ c ∈ rest.head?, p c = false) :
    (t ++ rest).takeWhile p = t ∧ (t ++ rest).dropWhile p = rest := by
  rw [List.takeWhile_append_of_pos ht, List.dropWhile_append_of_pos ht]
  cases rest with
  | nil => simp
  | cons c rest =>
    have hc : ¬ p c = true := by simp [hend c rfl]
    simp [List.takeWhile_cons_of_neg hc, List.dropWhile_cons_of_neg hc]

theorem next_of_blanks (hblanks : ∀ c ∈ blanks, is_space c = true) (hc : is_space c = false) :
    (blanks ++ c :: rest).dropWhile is_space = c :: rest := by
  rw [List.dropWhile_append_of_pos hblanks, List.dropWhile_cons_of_neg (by simp [hc])]

theorem next_stop (hblanks : ∀ c ∈ blanks, is_space c = true) : tokenizer_t.next blanks = ([], []) := by
  have hskip : blanks.dropWhile is_space = [] := List.dropWhile_eq_nil_iff.mpr hblanks
  simp only [tokenizer_t.next, hskip]

theorem next_word (hblanks : ∀ c ∈ blanks, is_space c = true) (ht : is_ident t = true)
    (hend : ∀ c ∈ rest.head?, ident_char c = false) : tokenizer_t.next (blanks ++ t ++ rest) = (t, rest) := by
  cases t with
  | nil => cases ht
  | cons c t =>
    obtain ⟨hstart, hchars⟩ := Bool.and_eq_true_iff.mp ht
    have hall : ∀ x ∈ c :: t, ident_char x = true :=
      List.forall_mem_cons.mpr ⟨ident_char_of_start hstart, List.all_eq_true.mp hchars⟩
    have hskip : (blanks ++ (c :: t) ++ rest).dropWhile is_space = c :: (t ++ rest) := by
      rw [List.append_assoc]
      exact next_of_blanks hblanks (not_space_of_ident_start hstart)
    obtain ⟨htake, hdrop⟩ := span_append hall hend
    simp only [tokenizer_t.next, hskip, hstart, if_true]
    exact Prod.ext htake hdrop

theorem next_number (hblanks : ∀ c ∈ blanks, is_space c = true) (ht : is_number t = true)
    (hend : ∀ c ∈ rest.head?, number_char c = false) : tokenizer_t.next (blanks ++ t ++ rest) = (t, rest) := by
  cases t with
  | nil => cases ht
  | cons c t =>
    obtain ⟨hstart, hchars⟩ := Bool.and_eq_true_iff.mp ht
    obtain ⟨hspace, hident⟩ := number_start_spec hstart
    have hskip : (blanks ++ (c :: t) ++ rest).dropWhile is_space = c :: (t ++ rest) := by
      rw [List.append_assoc]
      exact next_of_blanks hblanks hspace
    -- a sign that has a digit behind it has it in the token
    have hstart' : number_start c (t ++ rest) = true := by
      cases t with
      | nil =>
        have hdigit : is_digit c = true := by simpa [number_start] using hstart
        simp [number_start, hdigit]
      | cons d t => exact hstart
    obtain ⟨htake, hdrop⟩ := span_append (List.all_eq_true.mp hchars) hend
    simp only [tokenizer_t.next, hskip, hident, hstart', if_true, Bool.false_eq_true, if_false, htake, hdrop]

theorem next_mark (hblanks : ∀ c ∈ blanks, is_space c = true) (hc : c ∈ ascii "\x7b\x7d;,:=[]*") :
    tokenizer_t.next (blanks ++ [c] ++ rest) = ([c], rest) := by
  obtain ⟨hspace, hident, hdigit, hminus, hplus⟩ := mark_spec hc
  have hskip : (blanks ++ [c] ++ rest).dropWhile is_space = c :: rest := by
    rw [List.append_assoc]
    exact next_of_blanks hblanks hspace
  have hnumber : number_start c rest = false := by simp [number_start, hdigit, hminus, hplus]
  simp only [tokenizer_t.next, hskip, hident, hnumber, Bool.false_eq_true, if_false]

theorem tokens_upto_cons {n : Nat} {s : List UInt8} {c : UInt8} {t : token_t} (hnext : tokenizer_t.next s = (c :: t, rest)) :
    tokens_upto (n + 1) s = (c :: t) :: tokens_upto n rest := by
  simp only [tokens_upto, hnext]

/-- A text has the tokens that it spells. -/
theorem tokens_of_spells {ts : List token_t} {s : List UInt8} (hspells : Spells ts s) : tokens s = ts := by
  have hupto : ∀ n, s.length ≤ n → tokens_upto n s = ts := by
    induction hspells with
    | @stop blanks hblanks =>
      intro n _
      cases n with
      | zero => rfl
      | succ n => simp only [tokens_upto, next_stop hblanks]
    | @word blanks rest t ts hblanks ht hend _ ih =>
      intro n hn
      have hnext := next_word hblanks ht hend
      cases t with
      | nil => cases ht
      | cons c t =>
        simp only [List.length_append, List.length_cons] at hn
        obtain ⟨n, rfl⟩ : ∃ m, n = m + 1 := ⟨n - 1, by omega⟩
        rw [tokens_upto_cons hnext, ih n (by omega)]
    | @number blanks rest t ts hblanks ht hend _ ih =>
      intro n hn
      have hnext := next_number hblanks ht hend
      cases t with
      | nil => cases ht
      | cons c t =>
        simp only [List.length_append, List.length_cons] at hn
        obtain ⟨n, rfl⟩ : ∃ m, n = m + 1 := ⟨n - 1, by omega⟩
        rw [tokens_upto_cons hnext, ih n (by omega)]
    | @mark blanks rest c ts hblanks hc _ ih =>
      intro n hn
      have hnext : tokenizer_t.next (blanks ++ [c] ++ rest) = ([c], rest) := next_mark hblanks hc
      simp only [List.length_append, List.length_cons] at hn
      obtain ⟨n, rfl⟩ : ∃ m, n = m + 1 := ⟨n - 1, by omega⟩
      rw [tokens_upto_cons hnext, ih n (by omega)]
  exact hupto s.length (Nat.le_refl _)

end

open Numeral (ascii)

def ULONG_MAX : Nat := 2 ^ 32 - 1

def ULLONG_MAX : Nat := 2 ^ 64 - 1

inductive decl_t where
  | struct (d : struct_def_t)
  | enum (e : enum_def_t)

/-- A count of elements, which a single member does not have. -/
inductive Count : UInt32 → List token_t → Prop
  | single : Count 0 []
  | array {n : token_t} {count : Nat} (hn : Numeral.stoul ULONG_MAX n = some count) :
    Count count.toUInt32 [ascii "[", n, ascii "]"]

/-- A member up to what ends it. -/
inductive MemberTokens : field_t → List token_t → Prop
  | intro {base name : token_t} {pointers : Nat} {array_count : UInt32} {ts : List token_t}
    (hbase : base ≠ ascii "\x7d" ∧ base ≠ ascii ";") (hname : name ≠ [] ∧ name ≠ ascii "*")
    (hcount : Count array_count ts) :
    MemberTokens { name, type := base ++ List.replicate pointers 42, array_count }
      (base :: (List.replicate pointers (ascii "*") ++ name :: ts))

/-- The members of a struct and what ends them. Only a brace may end a member too. -/
inductive Body (ends : List token_t) : List field_t → List token_t → Prop
  | close : Body ends [] ends
  | semicolon {fields : List field_t} {ts : List token_t} (hbody : Body ends fields ts) : Body ends fields (ascii ";" :: ts)
  | member {f : field_t} {fields : List field_t} {ts rest : List token_t} (hmember : MemberTokens f ts)
    (hbody : Body ends fields rest) : Body ends (f :: fields) (ts ++ ascii ";" :: rest)
  | last {f : field_t} {ts : List token_t} (hends : ends = [ascii "\x7d"]) (hmember : MemberTokens f ts) :
    Body ends [f] (ts ++ ends)

/-- The values of an enum and the brace, with the value that a name without one gets. -/
inductive Values : Int64 → List (List UInt8 × Int64) → List token_t → Prop
  | close {next_val : Int64} : Values next_val [] [ascii "\x7d"]
  | comma {next_val : Int64} {values : List (List UInt8 × Int64)} {ts : List token_t} (hvalues : Values next_val values ts) :
    Values next_val values (ascii "," :: ts)
  | explicit {next_val : Int64} {values : List (List UInt8 × Int64)} {ts : List token_t} {vn n : token_t} {v : Nat}
    (hname : vn ≠ ascii "\x7d" ∧ vn ≠ ascii ",") (hn : Numeral.stoul ULLONG_MAX n = some v)
    (hvalues : Values (v.toUInt64.toInt64 + 1) values ts) :
    Values next_val ((vn, v.toUInt64.toInt64) :: values) (vn :: ascii "=" :: n :: ts)
  | implicit {next_val : Int64} {values : List (List UInt8 × Int64)} {ts : List token_t} {vn : token_t}
    (hname : vn ≠ ascii "\x7d" ∧ vn ≠ ascii ",") (hvalues : Values (next_val + 1) values ts) :
    Values next_val ((vn, next_val) :: values) (vn :: ascii "," :: ts)
  | last {next_val : Int64} {vn : token_t} (hname : vn ≠ ascii "\x7d" ∧ vn ≠ ascii ",") :
    Values next_val [(vn, next_val)] [vn, ascii "\x7d"]

/-- The word that may stand before the body of a struct and behind it. -/
def packed_tokens (packed : Bool) : List token_t := if packed then [ascii "packed"] else []

/-- What can stand where a name of a type stands. -/
def NamesType (name : token_t) : Prop := name ≠ [] ∧ name ≠ ascii "\x7b"

/-- The tokens of a definition. -/
inductive Definition : decl_t → List token_t → Prop
  | enum {name : token_t} {values : List (List UInt8 × Int64)} {ts : List token_t} (hname : NamesType name)
    (hvalues : Values 0 values ts) :
    Definition (.enum { name, values }) (ascii "enum" :: name :: ascii "\x7b" :: ts)
  | enum_of {name underlying : token_t} {values : List (List UInt8 × Int64)} {ts : List token_t} (hname : NamesType name)
    (hvalues : Values 0 values ts) :
    Definition (.enum { name, underlying, values })
      (ascii "enum" :: name :: ascii ":" :: underlying :: ascii "\x7b" :: ts)
  | struct {name : token_t} {fields : List field_t} {ts : List token_t} (before after : Bool) (hname : NamesType name)
    (hbody : Body [ascii "\x7d"] fields ts) :
    Definition (.struct { name, packed := before || after, fields })
      (ascii "struct" :: name :: (packed_tokens before ++ ascii "\x7b" :: (ts ++ packed_tokens after)))

/-- The tokens of some definitions, with any semicolons between them. -/
inductive Renders : List decl_t → List token_t → Prop
  | stop : Renders [] []
  | semicolon {ds : List decl_t} {ts : List token_t} (hrest : Renders ds ts) : Renders ds (ascii ";" :: ts)
  | cons {d : decl_t} {ds : List decl_t} {ts rest : List token_t} (hd : Definition d ts) (hrest : Renders ds rest) :
    Renders (d :: ds) (ts ++ rest)

/-- A struct of which the body ends with the text. -/
inductive Unended : struct_def_t → List token_t → Prop
  | intro {name : token_t} {fields : List field_t} {ts : List token_t} (before : Bool) (hname : NamesType name)
    (hbody : Body [] fields ts) :
    Unended { name, packed := before, fields } (ascii "struct" :: name :: (packed_tokens before ++ ascii "\x7b" :: ts))

/-- The tokens that open a body. -/
inductive Opens : List token_t → Prop
  | struct {name : token_t} (before : Bool) (hname : is_ident name = true) :
    Opens (ascii "struct" :: name :: (packed_tokens before ++ [ascii "\x7b"]))
  | enum {name : token_t} (hname : is_ident name = true) : Opens [ascii "enum", name, ascii "\x7b"]
  | enum_of {name underlying : token_t} (hname : is_ident name = true) (hunderlying : is_ident underlying = true) :
    Opens [ascii "enum", name, ascii ":", underlying, ascii "\x7b"]

/-- Some body is not closed by a brace where the next definition begins or the text ends. -/
def Unclosed (ts : List token_t) : Prop :=
  ∃ before header body rest, ts = before ++ header ++ body ++ rest ∧ Opens header ∧ ascii "\x7d" ∉ body ∧
    (rest = [] ∨ ∃ header' rest', rest = header' ++ rest' ∧ Opens header')

/-- Behind some definitions stands a struct whose body is not closed, but all its members are complete. -/
def EndsInStruct (ts : List token_t) : Prop :=
  ∃ ds before name packed fields body,
    ts = before ++ ascii "struct" :: name :: (packed_tokens packed ++ ascii "\x7b" :: body) ∧
      Renders ds before ∧ is_ident name = true ∧ Body [] fields body ∧ ascii "\x7d" ∉ body

end slop.core.re.type_catalog
