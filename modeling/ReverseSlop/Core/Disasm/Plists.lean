import Mathlib.Algebra.Order.BigOperators.Group.List
import ReverseSlop.Core.Disasm.XmlReads

namespace slop.core.disasm.ipa

open Numeral (ascii)
open Plist (utf8)
open Plist.Binary
open Plist.Xml
open util.zip (file_t)

section

variable {f : file_t} {d : List UInt8} {p n v : Nat}

theorem length_be (n v : Nat) : (be n v).length = n := by
  rw [be, List.length_reverse, Bytes.length_le]

theorem toNat_toUInt64 (hv : v < 2 ^ 64) : v.toUInt64.toNat = v := by
  rw [Nat.toUInt64_eq, UInt64.toNat_ofNat', Nat.mod_eq_of_lt hv]

/-- The trailer has the numbers of the layout. -/
structure Describes (t : trailer_t f) (l : Layout f.bytes) : Prop where
  oint : t.oint.toNat = l.offset_width
  ref : t.ref.toNat = l.ref_width
  num : t.num.toNat = l.objects.length
  top : t.top.toNat = l.top
  table : t.table.toNat = l.table

variable {t : trailer_t f} {l : Layout f.bytes} {i off : Nat} {o : Object} {type : Nat} {count : Count}

theorem Describes.objs_end (_ : Describes t l) : (ipa.objs_end f).toNat = f.bytes.length - 32 := by
  have hend := t.objs_end_toNat
  omega

theorem Describes.idx (hd : Describes t l) (hi : i < l.objects.length) : i.toUInt64.toNat = i ∧ i.toUInt64 < t.num := by
  have hnum := t.num.toNat_lt
  rw [hd.num] at hnum
  have hlt : i.toUInt64.toNat = i := toNat_toUInt64 (by omega)
  refine ⟨hlt, ?_⟩
  rw [UInt64.lt_iff_toNat_lt, hlt, hd.num]
  exact hi

end

section

variable {d s : List UInt8} {p k v : Nat} {u lo : UInt32}

theorem toNat_toUInt32 (hv : v < 2 ^ 32) : v.toUInt32.toNat = v := by
  rw [Nat.toUInt32_eq, UInt32.toNat_ofNat', Nat.mod_eq_of_lt hv]

end

section

variable {f : file_t} {t : trailer_t f} {l : Layout f.bytes} {i off : Nat} {o : Object}

end

section

variable {ps : List Piece} {text text' : List Char}

end

section

variable {f : file_t} {doc : Document}

/-- Both formats of a dictionary give the same map, which is the dictionary. -/
def Agree (doc : Document) (f : file_t) : Prop :=
  ∃ m, parse_xml_plist doc.bytes [] = (true, m) ∧ parse_bplist f [] = some (true, m) ∧ ∀ e, e ∈ m ↔ e ∈ Plist.strings doc.entries

end

end slop.core.disasm.ipa
