import Mathlib.Data.List.Infix
import ReverseSlop.Library.Bytes
import ReverseSlop.Library.Numeral

/-! Property lists: dictionaries with strings, as documents of either format. -/
namespace Plist

open Numeral (ascii)

/-- The bytes of a text. -/
def utf8 (text : List Char) : List UInt8 := text.flatMap String.utf8EncodeChar

/-- A key and its value, if that is a string. -/
abbrev Entry := List Char × Option (List Char)

/-- The entries that are strings. -/
def strings (entries : List Entry) : List (List UInt8 × List UInt8) :=
  entries.filterMap fun (key, value) => value.map fun value => (utf8 key, utf8 value)

namespace Xml

def is_blank (c : UInt8) : Bool := c = 32 || c = 9 || c = 13 || c = 10

/-- What may stand between tags. -/
inductive Markup where
  | text (body : List UInt8) (plain : 60 ∉ body)
  | comment (body : List UInt8) (open_end : ¬ ascii "-->" <:+: body)
  | cdata (body : List UInt8) (open_end : ¬ ascii "]]>" <:+: body)
  | instruction (body : List UInt8) (open_end : ¬ ascii "?>" <:+: body)
  | declaration (body : List UInt8) (open_end : 62 ∉ body) (other : ¬ ascii "--" <+: body ∧ ¬ ascii "[CDATA[" <+: body)

def Markup.bytes : Markup → List UInt8
  | .text body _ => body
  | .comment body _ => ascii "<!--" ++ body ++ ascii "-->"
  | .cdata body _ => ascii "<![CDATA[" ++ body ++ ascii "]]>"
  | .instruction body _ => ascii "<?" ++ body ++ ascii "?>"
  | .declaration body _ _ => ascii "<!" ++ body ++ ascii ">"

def markups (ms : List Markup) : List UInt8 := ms.flatMap Markup.bytes

structure Name where
  bytes : List UInt8
  ne : bytes ≠ []
  plain : ∀ c ∈ bytes, is_blank c = false ∧ c ≠ 47 ∧ c ≠ 62
  first : bytes.head? ≠ some 33 ∧ bytes.head? ≠ some 63

/-- Quotes are closed, and no `>` stands outside of them. -/
def unquoted : Option UInt8 → List UInt8 → Bool
  | none, [] => true
  | some _, [] => false
  | some quote, c :: s => unquoted (if c = quote then none else some quote) s
  | none, c :: s => if c = 34 ∨ c = 39 then unquoted (some c) s else c ≠ 62 && unquoted none s

/-- Attributes, or blanks, between the name of a tag and its end. -/
structure Attributes where
  bytes : List UInt8
  spaced : ∀ c ∈ bytes.head?, is_blank c = true
  closed : unquoted none bytes = true
  last : bytes.getLast? ≠ some 47

def open_tag (name : Name) (attrs : Attributes) : List UInt8 := 60 :: (name.bytes ++ attrs.bytes ++ [62])

def empty_tag (name : Name) (attrs : Attributes) : List UInt8 := 60 :: (name.bytes ++ attrs.bytes ++ [47, 62])

def end_tag (name : Name) (attrs : Attributes) : List UInt8 := 60 :: 47 :: (name.bytes ++ attrs.bytes ++ [62])

/-- What is between the tags of an element. -/
inductive Content where
  | nil
  | markup (m : Markup) (rest : Content)
  | empty (name : Name) (attrs : Attributes) (rest : Content)
  | element (name : Name) (attrs : Attributes) (inner : Content) (end_attrs : Attributes) (rest : Content)

def Content.bytes : Content → List UInt8
  | .nil => []
  | .markup m rest => m.bytes ++ rest.bytes
  | .empty name attrs rest => empty_tag name attrs ++ rest.bytes
  | .element name attrs inner end_attrs rest => open_tag name attrs ++ inner.bytes ++ end_tag name end_attrs ++ rest.bytes

/-- The entities that need no declaration. -/
inductive Entity where
  | amp | lt | gt | quot | apos
  deriving DecidableEq

def Entity.name : Entity → List UInt8
  | .amp => ascii "amp"
  | .lt => ascii "lt"
  | .gt => ascii "gt"
  | .quot => ascii "quot"
  | .apos => ascii "apos"

def Entity.char : Entity → Char
  | .amp => '&'
  | .lt => '<'
  | .gt => '>'
  | .quot => '\x22'
  | .apos => '\x27'

/-- A reference to a character by its number. -/
structure Reference where
  hex : Bool
  digits : List UInt8
  char : Char
  ne : digits ≠ []
  digit : ∀ c ∈ digits, (Numeral.digit c).any (· < if hex then 16 else 10) = true
  number : Numeral.value (if hex then 16 else 10) (digits.filterMap Numeral.digit) = char.toNat
  not_nul : char ≠ '\x00'

def Reference.bytes (r : Reference) : List UInt8 := ascii "&#" ++ (if r.hex then ascii "x" else []) ++ r.digits ++ ascii ";"

/-- A part of the characters of a string. A carriage return has to be a reference. -/
inductive Piece where
  | raw (c : Char) (plain : c ≠ '<' ∧ c ≠ '&' ∧ c ≠ '\r')
  | named (e : Entity)
  | reference (r : Reference)
  | cdata (text : List Char) (open_end : ¬ ascii "]]>" <:+: utf8 text) (plain : '\r' ∉ text)
  | comment (body : List UInt8) (open_end : ¬ ascii "-->" <:+: body)
  | instruction (body : List UInt8) (open_end : ¬ ascii "?>" <:+: body)

def Piece.bytes : Piece → List UInt8
  | .raw c _ => String.utf8EncodeChar c
  | .named e => ascii "&" ++ e.name ++ ascii ";"
  | .reference r => r.bytes
  | .cdata text _ _ => ascii "<![CDATA[" ++ utf8 text ++ ascii "]]>"
  | .comment body _ => ascii "<!--" ++ body ++ ascii "-->"
  | .instruction body _ => ascii "<?" ++ body ++ ascii "?>"

def Piece.text : Piece → List Char
  | .raw c _ => [c]
  | .named e => [e.char]
  | .reference r => [r.char]
  | .cdata text _ _ => text
  | .comment _ _ => []
  | .instruction _ _ => []

/-- An element with characters. -/
inductive Text where
  | empty (attrs : Attributes)
  | full (attrs : Attributes) (pieces : List Piece) (end_attrs : Attributes)

def Text.bytes (name : Name) : Text → List UInt8
  | .empty attrs => empty_tag name attrs
  | .full attrs pieces end_attrs => open_tag name attrs ++ pieces.flatMap Piece.bytes ++ end_tag name end_attrs

def Text.text : Text → List Char
  | .empty _ => []
  | .full _ pieces _ => pieces.flatMap Piece.text

def key_name : Name := ⟨ascii "key", by simp [ascii], by simp [ascii, is_blank], by simp [ascii]⟩

def string_name : Name := ⟨ascii "string", by simp [ascii], by simp [ascii, is_blank], by simp [ascii]⟩

def dict_name : Name := ⟨ascii "dict", by simp [ascii], by simp [ascii, is_blank], by simp [ascii]⟩

def plist_name : Name := ⟨ascii "plist", by simp [ascii], by simp [ascii, is_blank], by simp [ascii]⟩

/-- A string, or an element of another kind. -/
inductive Value where
  | string (text : Text)
  | empty (name : Name) (attrs : Attributes) (other : name.bytes ≠ ascii "key" ∧ name.bytes ≠ ascii "string")
  | element (name : Name) (attrs : Attributes) (inner : Content) (end_attrs : Attributes)
      (other : name.bytes ≠ ascii "key" ∧ name.bytes ≠ ascii "string")

def Value.bytes : Value → List UInt8
  | .string text => text.bytes string_name
  | .empty name attrs _ => empty_tag name attrs
  | .element name attrs inner end_attrs _ => open_tag name attrs ++ inner.bytes ++ end_tag name end_attrs

def Value.text : Value → Option (List Char)
  | .string text => some text.text
  | _ => none

structure Pair where
  before : List Markup
  key : Text
  between : List Markup
  value : Value

def Pair.bytes (p : Pair) : List UInt8 := markups p.before ++ p.key.bytes key_name ++ markups p.between ++ p.value.bytes

inductive Dict where
  | empty (attrs : Attributes)
  | full (attrs : Attributes) (pairs : List Pair) (after : List Markup) (end_attrs : Attributes)

def Dict.bytes : Dict → List UInt8
  | .empty attrs => empty_tag dict_name attrs
  | .full attrs pairs after end_attrs =>
    open_tag dict_name attrs ++ pairs.flatMap Pair.bytes ++ markups after ++ end_tag dict_name end_attrs

def Dict.pairs : Dict → List Pair
  | .empty _ => []
  | .full _ pairs _ _ => pairs

/-- A document whose top element is a dictionary; the `plist` element around it may be missing. -/
structure Document where
  prolog : List Markup
  plist : Option (Attributes × List Markup)
  dict : Dict
  rest : List UInt8

def Document.bytes (doc : Document) : List UInt8 :=
  markups doc.prolog ++ doc.plist.elim [] (fun (attrs, before) => open_tag plist_name attrs ++ markups before) ++
    doc.dict.bytes ++ doc.rest

def Document.entries (doc : Document) : List Entry := doc.dict.pairs.map fun p => (p.key.text, p.value.text)

end Xml

namespace Binary

/-- A number with the high byte first. -/
def be (width n : Nat) : List UInt8 := (Bytes.le width n).reverse

/-- The units of a character in UTF-16. -/
def units (c : Char) : List Nat :=
  if c.toNat < 0x10000 then [c.toNat] else [0xD800 + (c.toNat - 0x10000) / 0x400, 0xDC00 + (c.toNat - 0x10000) % 0x400]

/-- A count in the low half of the marker, or in an integer behind it. -/
inductive Count where
  | short (number : Nat) (small : number < 15)
  | long (k number : Nat) (size : k ≤ 3) (small : number < 256 ^ 2 ^ k)

def Count.number : Count → Nat
  | .short number _ => number
  | .long _ number _ _ => number

def Count.bytes (type : Nat) : Count → List UInt8
  | .short number _ => [(16 * type + number).toUInt8]
  | .long k number _ _ => (16 * type + 15).toUInt8 :: (16 + k).toUInt8 :: be (2 ^ k) number

inductive Object where
  | ascii (text : List Char) (low : ∀ c ∈ text, c.toNat < 128) (count : Count) (counts : count.number = text.length)
  | utf16 (text : List Char) (count : Count) (counts : count.number = (text.flatMap units).length)
  | dict (pairs : List (Nat × Nat)) (count : Count) (counts : count.number = pairs.length)
  | other (marker : UInt8) (body : List UInt8) (kind : marker.toNat / 16 ≠ 5 ∧ marker.toNat / 16 ≠ 6)

/-- An object with the width of references. -/
def Object.bytes (width : Nat) : Object → List UInt8
  | .ascii text _ count _ => count.bytes 5 ++ text.map (fun c => c.toNat.toUInt8)
  | .utf16 text count _ => count.bytes 6 ++ (text.flatMap units).flatMap (be 2)
  | .dict pairs count _ => count.bytes 13 ++ pairs.flatMap (fun p => be width p.1) ++ pairs.flatMap (fun p => be width p.2)
  | .other marker body _ => marker :: body

def Object.text : Object → Option (List Char)
  | .ascii text _ _ _ => some text
  | .utf16 text _ _ => some text
  | _ => none

/-- How a file holds a dictionary. The objects lie anywhere between the header and the trailer. -/
structure Layout (bytes : List UInt8) where
  ref_width : Nat
  offset_width : Nat
  table : Nat
  top : Nat
  objects : List (Nat × Object)
  pairs : List (Nat × Nat)
  count : Count
  counts : count.number = pairs.length
  long : 40 ≤ bytes.length
  header : Bytes.At bytes 0 (ascii "bplist00")
  trailer : Bytes.At bytes (bytes.length - 26)
    (be 1 offset_width ++ be 1 ref_width ++ be 8 objects.length ++ be 8 top ++ be 8 table)
  widths : (1 ≤ ref_width ∧ ref_width ≤ 8) ∧ 1 ≤ offset_width ∧ offset_width ≤ 8
  offsets : Bytes.At bytes table (objects.flatMap fun o => be offset_width o.1)
  table_range : 8 ≤ table ∧ table + objects.length * offset_width ≤ bytes.length - 32
  placed : ∀ o ∈ objects, Bytes.At bytes o.1 (o.2.bytes ref_width)
  object_range : ∀ o ∈ objects, 8 ≤ o.1 ∧ o.1 + (o.2.bytes ref_width).length ≤ bytes.length - 32 ∧ o.1 < 256 ^ offset_width
  root : ∃ off, objects[top]? = some (off, .dict pairs count counts)
  refs : ∀ p ∈ pairs, (p.1 < objects.length ∧ p.1 < 256 ^ ref_width) ∧ p.2 < objects.length ∧ p.2 < 256 ^ ref_width
  keys : ∀ p ∈ pairs, (objects[p.1]?.bind fun o => o.2.text).isSome

def Layout.text {bytes : List UInt8} (l : Layout bytes) (i : Nat) : Option (List Char) := l.objects[i]?.bind fun o => o.2.text

def Layout.entries {bytes : List UInt8} (l : Layout bytes) : List Entry := l.pairs.map fun p => ((l.text p.1).getD [], l.text p.2)

end Binary

end Plist
