import Mathlib.Data.List.Basic
import ReverseSlop.Library.Sorted

namespace Json

/-- A document. Texts are bytes, and the members of an object are sorted by their keys. -/
inductive Value where
  | null
  | boolean (b : Bool)
  | number_integer (n : Int64)
  | number_unsigned (n : UInt64)
  | number_float (bits : UInt64)
  | string (s : List UInt8)
  | array (items : List Value)
  | object (members : List (List UInt8 × Value))

/-- Writing a document, which fails on some, and reading one. -/
structure Format where
  dump : Value → Option (List UInt8)
  parse : List UInt8 → Option Value

/-- What is written of a document is read as that document. -/
def Format.RoundTrips (format : Format) (v : Value) : Prop := ∀ text ∈ format.dump v, format.parse text = some v

def valid_utf8 (s : List UInt8) : Bool := s.toByteArray.validateUTF8

/-- The member of an object, if there is one. -/
def Value.member (key : List UInt8) : Value → Option Value
  | .object members => SortedMap.find key members
  | _ => none

mutual

/-- Every text and every key is valid UTF-8. -/
def Value.valid : Value → Bool
  | .string s => valid_utf8 s
  | .array items => valid_items items
  | .object members => valid_members members
  | _ => true

def valid_items : List Value → Bool
  | [] => true
  | v :: items => v.valid && valid_items items

def valid_members : List (List UInt8 × Value) → Bool
  | [] => true
  | (key, v) :: members => valid_utf8 key && v.valid && valid_members members

end

/-- A format that writes the documents whose texts are valid UTF-8. -/
def Format.Strict (format : Format) : Prop := ∀ v, (format.dump v).isSome = v.valid

section

variable {items : List Value} {members : List (List UInt8 × Value)}

theorem utf8EncodeChar_ascii : ∀ c : Fin 128, String.utf8EncodeChar (Char.ofNat c) = [UInt8.ofNat c] := by
  decide

theorem valid_utf8_ascii {s : List UInt8} (hs : ∀ c ∈ s, c < 128) : valid_utf8 s = true := by
  rw [valid_utf8, ByteArray.validateUTF8_eq_true_iff]
  refine ⟨s.map fun c => Char.ofNat c.toNat, ?_⟩
  induction s with
  | nil => rfl
  | cons c s ih =>
    obtain ⟨hc, hs⟩ := List.forall_mem_cons.mp hs
    have hencode : String.utf8EncodeChar (Char.ofNat c.toNat) = [c] := by
      simpa using utf8EncodeChar_ascii ⟨c.toNat, UInt8.lt_iff_toNat_lt.mp hc⟩
    rw [List.map_cons, List.utf8Encode_cons, ← ih hs, List.utf8Encode_singleton, hencode, ← List.toByteArray_append]
    rfl

theorem valid_items_iff : valid_items items = true ↔ ∀ v ∈ items, v.valid = true := by
  induction items with
  | nil => simp [valid_items]
  | cons v items ih => simp [valid_items, ih]

theorem valid_members_iff :
    valid_members members = true ↔ ∀ e ∈ members, valid_utf8 e.1 = true ∧ e.2.valid = true := by
  induction members with
  | nil => simp [valid_members]
  | cons e members ih => simp [valid_members, ih]

end

open SortedMap (find Sorted)

/-- From a document to one that it holds. -/
inductive Step where
  | key (key : List UInt8)
  | index (i : Nat)

def Value.child : Step → Value → Option Value
  | .key key, .object members => find key members
  | .index i, .array items => items[i]?
  | _, _ => none

def Value.follow : List Step → Value → Option Value
  | [], v => some v
  | step :: path, v => (v.child step).bind (Value.follow path)

/-- An object or an array. -/
def Value.is_container : Value → Bool
  | .object _ | .array _ => true
  | _ => false

/-- An integer, signed or not. -/
def Value.is_integer : Value → Bool
  | .number_integer _ | .number_unsigned _ => true
  | _ => false

/-- The value of an integer that is not negative. -/
def Value.unsigned : Value → Option UInt64
  | .number_unsigned n => some n
  | .number_integer n => if 0 ≤ n then some n.toUInt64 else none
  | _ => none

/-- Something holds of a document and of all that is in it. -/
def Value.Everywhere (P : Value → Prop) (v : Value) : Prop := ∀ path x, v.follow path = some x → P x

/-- The members of an object stand in the order of their keys. -/
def Value.Ordered : Value → Prop
  | .object members => Sorted members
  | _ => True

/-- What a document that is added to keeps: its kind, the length of an array, and any other value. -/
def Value.Kept : Value → Value → Prop
  | .object _, v => ∃ members, v = .object members
  | .array items, v => ∃ items', v = .array items' ∧ items'.length = items.length
  | v, v' => v' = v

theorem Value.Everywhere.self {P : Value → Prop} {v : Value} (h : v.Everywhere P) : P v := h [] v rfl

theorem Value.Everywhere.child {P : Value → Prop} {v x : Value} {step : Step} (h : v.Everywhere P)
    (hchild : v.child step = some x) : x.Everywhere P := by
  intro path y hy
  refine h (step :: path) y ?_
  rw [Value.follow, hchild]
  exact hy

theorem follow_append {v x : Value} {path : List Step} (hv : v.follow path = some x) (rest : List Step) :
    v.follow (path ++ rest) = x.follow rest := by
  induction path generalizing v with
  | nil =>
    obtain rfl := Option.some.inj hv
    rfl
  | cons step path ih =>
    rw [Value.follow] at hv
    obtain ⟨y, hchild, hy⟩ := Option.bind_eq_some_iff.mp hv
    rw [List.cons_append, Value.follow, hchild]
    exact ih hy

def Value.is_object : Value → Bool
  | .object _ => true
  | _ => false

/-- What stands under some keys, one in the other. -/
def Value.lookup : Value → List (List UInt8) → Option Value
  | v, [] => some v
  | v, key :: path => (v.member key).bind fun x => x.lookup path

/-- Put a value under some keys; objects are made where nothing is there, and nothing else is replaced by one. -/
def Value.put : Value → List (List UInt8) → Value → Option Value
  | _, [], value => some value
  | .object members, key :: path, value =>
    (((find key members).getD (.object [])).put path value).map fun v => .object (SortedMap.set key v members)
  | _, _ :: _, _ => none

/-- Take the member with a key out of the object under some keys. -/
def Value.remove : Value → List (List UInt8) → List UInt8 → Option Value
  | .object members, [], key =>
    if (find key members).isSome then some (.object (SortedMap.erase key members)) else none
  | .object members, k :: path, key =>
    (find k members).bind fun v => (v.remove path key).map fun v => .object (SortedMap.set k v members)
  | _, _, _ => none

/-- Nothing but objects stands under some keys, as far as something is there. -/
def Value.Fits : Value → List (List UInt8) → Prop
  | v, [] => v.is_object = true
  | v, key :: path => v.is_object = true ∧ ∀ x, v.member key = some x → x.Fits path

section

variable {path : List (List UInt8)} {key k : List UInt8} {v w x value : Value} {members : List (List UInt8 × Value)}

theorem Value.is_object_iff : v.is_object = true ↔ ∃ members, v = .object members := by
  cases v <;> simp [Value.is_object]

theorem Value.Fits.is_object (h : v.Fits path) : v.is_object = true := by
  cases path with
  | nil => exact h
  | cons key path => exact h.1

@[simp]
theorem lookup_nil (v : Value) : v.lookup [] = some v := by simp [Value.lookup]

@[simp]
theorem lookup_object (key : List UInt8) (path : List (List UInt8)) (members : List (List UInt8 × Value)) :
    (Value.object members).lookup (key :: path) = (find key members).bind fun x => x.lookup path := by
  simp [Value.lookup, Value.member]

theorem empty_fits (path : List (List UInt8)) : (Value.object []).Fits path := by
  cases path with
  | nil => simp [Value.Fits, Value.is_object]
  | cons key path => simp [Value.Fits, Value.is_object, Value.member, find]

/-- A value can be put below the places that fit. -/
theorem put_isSome_iff (key : List UInt8) :
    (v.put (path ++ [key]) value).isSome = true ↔ v.Fits path := by
  induction path generalizing v with
  | nil => cases v <;> simp [Value.put, Value.Fits, Value.is_object]
  | cons k path ih =>
    cases v with
    | object members =>
      rw [List.cons_append, Value.put, Option.isSome_map, ih]
      cases hfind : find k members with
      | none => simp [Value.Fits, Value.is_object, Value.member, hfind, empty_fits]
      | some x => simp [Value.Fits, Value.is_object, Value.member, hfind]
    | null => simp [Value.put, Value.Fits, Value.is_object]
    | boolean b => simp [Value.put, Value.Fits, Value.is_object]
    | number_integer n => simp [Value.put, Value.Fits, Value.is_object]
    | number_unsigned n => simp [Value.put, Value.Fits, Value.is_object]
    | number_float bits => simp [Value.put, Value.Fits, Value.is_object]
    | string s => simp [Value.put, Value.Fits, Value.is_object]
    | array items => simp [Value.put, Value.Fits, Value.is_object]

theorem put_cons (hput : v.put (key :: path) value = some w) :
    ∃ members inner, v = .object members ∧ ((find key members).getD (.object [])).put path value = some inner ∧
      w = .object (SortedMap.set key inner members) := by
  cases v with
  | object members =>
    obtain ⟨inner, hinner, rfl⟩ := Option.map_eq_some_iff.mp hput
    exact ⟨members, inner, by simp, hinner, by simp⟩
  | null => simp [Value.put] at hput
  | boolean b => simp [Value.put] at hput
  | number_integer n => simp [Value.put] at hput
  | number_unsigned n => simp [Value.put] at hput
  | number_float bits => simp [Value.put] at hput
  | string s => simp [Value.put] at hput
  | array items => simp [Value.put] at hput

theorem empty_ordered : (Value.object []).Everywhere Value.Ordered := by
  intro steps y hy
  cases steps with
  | nil =>
    obtain rfl := Option.some.inj hy
    exact SortedMap.Sorted.nil
  | cons step steps => cases step <;> simp [Value.follow, Value.child, find] at hy

theorem Value.Everywhere.member {P : Value → Prop} {x : Value} {key : List UInt8} (h : (Value.object members).Everywhere P)
    (hfind : find key members = some x) : x.Everywhere P := by
  have hchild : (Value.object members).child (.key key) = some x := by simpa [Value.child] using hfind
  exact h.child hchild

/-- The place of a member, or an empty object, is in order if the object around it is. -/
theorem ordered_member (hordered : (Value.object members).Everywhere Value.Ordered) (key : List UInt8) :
    ((find key members).getD (.object [])).Everywhere Value.Ordered := by
  cases hfind : find key members with
  | none => exact empty_ordered
  | some x => exact hordered.member hfind

/-- What was put is found. -/
theorem lookup_put (hordered : v.Everywhere Value.Ordered) (hput : v.put path value = some w) :
    w.lookup path = some value := by
  induction path generalizing v w with
  | nil => simpa [Value.put] using hput.symm
  | cons k path ih =>
    obtain ⟨members, inner, rfl, hinner, rfl⟩ := put_cons hput
    have hsorted : Sorted members := hordered.self
    rw [lookup_object, SortedMap.find_set hsorted, Option.bind_some]
    exact ih (ordered_member hordered k) hinner

/-- The places of what was put fit. -/
theorem fits_put (hordered : v.Everywhere Value.Ordered) (hput : v.put (path ++ [key]) value = some w) :
    w.Fits path := by
  induction path generalizing v w with
  | nil =>
    obtain ⟨members, inner, rfl, _, rfl⟩ := put_cons hput
    simp [Value.Fits, Value.is_object]
  | cons k path ih =>
    obtain ⟨members, inner, rfl, hinner, rfl⟩ := put_cons hput
    have hsorted : Sorted members := hordered.self
    refine ⟨by simp [Value.is_object], ?_⟩
    intro x hx
    rw [Value.member, SortedMap.find_set hsorted, Option.some.injEq] at hx
    rw [← hx]
    exact ih (ordered_member hordered k) hinner

/-- A member can be taken out where there is one. -/
theorem remove_isSome_iff : (v.remove path key).isSome = true ↔ (v.lookup (path ++ [key])).isSome = true := by
  induction path generalizing v with
  | nil =>
    cases v with
    | object members => cases hfind : find key members <;> simp [Value.remove, hfind]
    | _ => simp [Value.remove, Value.lookup, Value.member]
  | cons k path ih =>
    cases v with
    | object members => cases hfind : find k members <;> simp [Value.remove, hfind, ih]
    | _ => simp [Value.remove, Value.lookup, Value.member]

theorem lookup_append (v : Value) (path : List (List UInt8)) (key : List UInt8) :
    v.lookup (path ++ [key]) = (v.lookup path).bind fun x => x.member key := by
  induction path generalizing v with
  | nil => simp [Value.lookup]
  | cons k path ih =>
    rw [List.cons_append, Value.lookup, Value.lookup, Option.bind_assoc]
    exact Option.bind_congr fun x _ => ih x

theorem remove_cons (hremove : v.remove (k :: path) key = some w) :
    ∃ members x inner, v = .object members ∧ find k members = some x ∧ x.remove path key = some inner ∧
      w = .object (SortedMap.set k inner members) := by
  cases v with
  | object members =>
    obtain ⟨x, hfind, hmap⟩ := Option.bind_eq_some_iff.mp hremove
    obtain ⟨inner, hinner, rfl⟩ := Option.map_eq_some_iff.mp hmap
    exact ⟨members, x, inner, by simp, hfind, hinner, by simp⟩
  | _ => simp [Value.remove] at hremove

theorem remove_here (hremove : v.remove [] key = some w) :
    ∃ members, v = .object members ∧ (find key members).isSome = true ∧ w = .object (SortedMap.erase key members) := by
  cases v with
  | object members =>
    rw [Value.remove] at hremove
    split at hremove
    · rename_i hfind
      exact ⟨members, by simp, hfind, (Option.some.inj hremove).symm⟩
    · cases hremove
  | _ => simp [Value.remove] at hremove

/-- Taking something out makes a difference. -/
theorem remove_ne (hordered : v.Everywhere Value.Ordered) (hremove : v.remove path key = some w) : w ≠ v := by
  induction path generalizing v w with
  | nil =>
    obtain ⟨members, rfl, hfind, rfl⟩ := remove_here hremove
    intro hsame
    obtain ⟨x, hx⟩ := Option.isSome_iff_exists.mp hfind
    have hmem := SortedMap.find_eq_some hordered.self |>.mp hx
    rw [Value.object.injEq] at hsame
    rw [← hsame] at hmem
    exact (SortedMap.mem_erase.mp hmem).2 (by simp)
  | cons k path ih =>
    obtain ⟨members, x, inner, rfl, hfind, hinner, rfl⟩ := remove_cons hremove
    intro hsame
    rw [Value.object.injEq] at hsame
    have hset := SortedMap.find_set (k := k) (v := inner) (l := members) hordered.self
    rw [hsame, hfind, Option.some.injEq] at hset
    exact ih (hordered.member hfind) hinner hset.symm

/-- Taking out what was put where nothing was gives the document before, or with an empty object where the member
was if there was none. -/
theorem remove_put (hordered : v.Everywhere Value.Ordered) (hnone : v.lookup (path ++ [key]) = none)
    (hput : v.put (path ++ [key]) value = some w) :
    ∃ x, w.remove path key = some x ∧ ((v.lookup path).isSome = true ∧ x = v ∨
      v.lookup path = none ∧ v.put path (.object []) = some x) := by
  induction path generalizing v w with
  | nil =>
    obtain ⟨members, inner, rfl, hinner, rfl⟩ := put_cons hput
    have hsorted : Sorted members := hordered.self
    have hfind : find key members = none := by simpa using hnone
    exact ⟨.object members, by simp [Value.remove, SortedMap.find_set hsorted, SortedMap.erase_set hfind], by simp⟩
  | cons k path ih =>
    obtain ⟨members, inner, rfl, hinner, rfl⟩ := put_cons hput
    have hsorted : Sorted members := hordered.self
    have hplace : ((find k members).getD (.object [])).lookup (path ++ [key]) = none := by
      cases hfind : find k members with
      | none => cases path <;> simp [find]
      | some x => simpa [hfind] using hnone
    obtain ⟨y, hremove, hy⟩ := ih (ordered_member hordered k) hplace hinner
    refine ⟨.object (SortedMap.set k y members), ?_, ?_⟩
    · simp [Value.remove, SortedMap.find_set hsorted, hremove, SortedMap.set_set]
    · cases hfind : find k members with
      | none =>
        right
        rw [hfind, Option.getD_none] at hy
        refine ⟨by simp [hfind], ?_⟩
        rw [Value.put, hfind, Option.getD_none]
        obtain ⟨hsome, rfl⟩ | ⟨_, hempty⟩ := hy
        · cases path with
          | nil => simp [Value.put]
          | cons k' path => simp [find] at hsome
        · simp [hempty]
      | some x =>
        rw [hfind, Option.getD_some] at hy
        obtain ⟨hsome, rfl⟩ | ⟨hnone', hempty⟩ := hy
        · left
          rw [SortedMap.set_of_find hsorted hfind]
          exact ⟨by simpa [hfind] using hsome, by simp⟩
        · right
          exact ⟨by simpa [hfind] using hnone', by simp [Value.put, hfind, hempty]⟩

end

end Json
