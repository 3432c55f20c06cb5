import ReverseSlop.Core.Disasm.XmlPlist
import ReverseSlop.Library.Plist

namespace slop.core.disasm.ipa

open Numeral (ascii)
open Plist (utf8)
open Plist.Xml

section

variable {body term s : List UInt8} {name : Name} {attrs end_attrs : Attributes}

end

section

variable {ent t bs s out : List UInt8} {c : Char} {r : Reference}

variable {name : List UInt8}

end

section

variable {s : List UInt8} {out : plist_map_t}

end

end slop.core.disasm.ipa
