import ReverseSlop.Core.Mcp.Enrich

namespace slop.core.mcp.enrich

open Json
open Numeral (ascii)
open SortedMap (find set add Sorted find_set find_set_ne find_add find_add_ne find_eq_some)

/-- The addresses of an object have their texts beside them. -/
structure Mirrors (o o' : members_t) : Prop where
  number : ∀ k (x : Value) n, is_addr_key k = true → find k o = some x → x.unsigned = some n → find (hex_key k) o = none →
    find (hex_key k) o' = some (.string (addr_hex_str n))
  array : ∀ k (items : List Value), is_addr_array_key k = true → find k o = some (.array items) → items ≠ [] →
    (∀ x ∈ items, x.is_integer = true) → find (hex_key k) o = none →
      ∃ hx : List Value, find (hex_key k) o' = some (.array hx) ∧ hx.length = items.length ∧
        ∀ (i : Nat) (x : Value) n, items[i]? = some x → x.unsigned = some n → hx[i]? = some (.string (addr_hex_str n))

/-- Everything in a document stays as it is, and the addresses in it have their texts. -/
structure Faithful (v v' : Value) : Prop where
  kept : ∀ path x, v.follow path = some x → ∃ x', v'.follow path = some x' ∧ x.Kept x'
  mirrored : ∀ path o, v.follow path = some (.object o) → ∃ o', v'.follow path = some (.object o') ∧ Mirrors o o'

/-- The addresses of an object that have no texts beside them are in the lower half. -/
structure LowAddresses (o : members_t) : Prop where
  number : ∀ k (x : Value) n, is_addr_key k = true → find k o = some x → x.unsigned = some n → find (hex_key k) o = none →
    n.toNat < 2 ^ 63
  array : ∀ k (items : List Value), is_addr_array_key k = true → find k o = some (.array items) →
    (∀ x ∈ items, x.is_integer = true) → find (hex_key k) o = none → ∀ x ∈ items, ∀ n, x.unsigned = some n →
      n.toNat < 2 ^ 63

theorem toInt64_nonneg (n : UInt64) : 0 ≤ n.toInt64 ↔ n.toNat < 2 ^ 63 := by
  have hlt := n.toNat_lt
  have hint : n.toInt64.toInt = (n.toNat : Int).bmod (2 ^ 64) := by
    rw [← Int64.toInt_toBitVec, UInt64.toBitVec_toInt64, BitVec.toInt_eq_toNat_bmod]
    rfl
  rw [Int64.le_iff_toInt_le, hint, Int64.toInt_zero, Int.bmod_def]
  split <;> omega

/-- The cast of an address back and forth, and when it is not taken for a negative number. -/
theorem get_int64_unsigned {x : Value} {n : UInt64} (hn : x.unsigned = some n) :
    ∃ sv, get_int64 x = some sv ∧ sv.toUInt64 = n ∧ (0 ≤ sv ↔ n.toNat < 2 ^ 63) := by
  cases x with
  | number_unsigned m =>
    obtain rfl := Option.some.inj hn
    exact ⟨m.toInt64, rfl, UInt64.toUInt64_toInt64 m, toInt64_nonneg m⟩
  | number_integer m =>
    obtain ⟨hm, hsome⟩ := Option.ite_none_right_eq_some.mp hn
    obtain rfl := Option.some.inj hsome
    refine ⟨m, rfl, rfl, ?_⟩
    rw [← toInt64_nonneg, Int64.toInt64_toUInt64]
  | _ => cases hn

theorem addr_hex_str_injective {m n : UInt64} (hsame : addr_hex_str m = addr_hex_str n) : m = n := by
  have hprint : Numeral.print 16 m.toNat = Numeral.print 16 n.toNat := List.append_cancel_left hsame
  have hread : ∀ k : UInt64, Numeral.strtoul 16 (2 ^ 64) (Numeral.print 16 k.toNat) = k.toNat :=
    fun k => Numeral.strtoul_print (by decide) (by decide) k.toNat_lt.le
  refine UInt64.toNat_inj.mp ?_
  rw [← hread m, hprint, hread n]

theorem hex_key_last (k : List UInt8) : (hex_key k).getLast? = some 120 := by
  have hlast : (ascii "_hex").getLast? = some 120 := by decide
  rw [hex_key, List.getLast?_append, hlast]
  rfl

theorem hex_key_injective {k k' : List UInt8} (hsame : hex_key k = hex_key k') : k = k' :=
  List.append_cancel_right hsame

/-- Members were added, none of them under a key that could hold the text of an address. -/
structure Extended (o o' : members_t) : Prop where
  sorted : Sorted o'
  kept : ∀ k v, find k o = some v → find k o' = some v
  others : ∀ k, k.getLast? = some 120 → find k o' = find k o

section

variable {o o' o'' : members_t} {key : List UInt8} {v : Value}

theorem Extended.refl (ho : Sorted o) : Extended o o := ⟨ho, fun _ _ h => h, fun _ _ => rfl⟩

theorem Extended.trans (h : Extended o o') (h' : Extended o' o'') : Extended o o'' :=
  ⟨h'.sorted, fun k v hv => h'.kept k v (h.kept k v hv), fun k hk => (h'.others k hk).trans (h.others k hk)⟩

theorem find_add_of_some (ho : Sorted o) {k : List UInt8} {x : Value} (hfind : find k o = some x) :
    find k (add key v o) = some x := by
  by_cases hsame : k = key
  · rw [hsame] at hfind ⊢
    rw [find_add ho, hfind, Option.getD_some]
  · rw [find_add_ne ho hsame, hfind]

theorem Extended.add (ho : Sorted o) (hkey : key.getLast? ≠ some 120) (v : Value) : Extended o (add key v o) := by
  refine ⟨ho.add key v, fun k x hx => find_add_of_some ho hx, fun k hk => find_add_ne ho ?_⟩
  rintro rfl
  exact hkey hk

/-- A change of an object that only ever adds members of that kind. -/
def Extends (f : members_t → members_t) : Prop := ∀ o, Sorted o → Extended o (f o)

theorem Extends.comp {f g : members_t → members_t} (hg : Extends g) (hf : Extends f) : Extends (g ∘ f) :=
  fun o ho => (hf o ho).trans (hg (f o) (hf o ho).sorted)

/-- A change that is made under a condition. -/
theorem Extends.ite {f : members_t → members_t} (hf : Extends f) (c : members_t → Bool) :
    Extends fun o => if c o then f o else o := by
  intro o ho
  simp only
  split
  · exact hf o ho
  · exact Extended.refl ho

theorem extends_add {key : List UInt8} (hkey : key.getLast? ≠ some 120) (v : Value) : Extends (add key v) :=
  fun _ ho => Extended.add ho hkey v

theorem extends_put {key : String} (hkey : (ascii key).getLast? ≠ some 120) (s : String) : Extends (put key s) :=
  extends_add hkey (text s)

theorem extends_put_number {key : String} (hkey : (ascii key).getLast? ≠ some 120) (number : String)
    (str : Int64 → String) : Extends (put_number key number str) := by
  intro o ho
  unfold put_number
  split
  · exact extends_put hkey _ o ho
  · exact Extended.refl ho

theorem decode_region_extends : Extends decode_region :=
  Extends.ite ((extends_add (by decide) region_units).comp ((extends_put_number (by decide) "type" _).comp
    ((extends_put_number (by decide) "state" _).comp (extends_put_number (by decide) "protect" _)))) _

theorem decode_packet_extends : Extends decode_packet :=
  Extends.ite ((extends_put_number (by decide) "direction" _).comp (extends_put_number (by decide) "protocol" _)) _

theorem decode_direction_extends : Extends decode_direction :=
  Extends.ite (extends_put_number (by decide) "direction" _) _

theorem decode_breakpoint_extends : Extends decode_breakpoint :=
  Extends.ite ((extends_put (by decide) _).comp (extends_put_number (by decide) "type" _)) _

theorem decode_registers_extends : Extends decode_registers :=
  Extends.ite (extends_put_number (by decide) "flags" _) _

theorem decode_complexity_extends : Extends decode_complexity := Extends.ite (extends_put (by decide) _) _

theorem decode_entropy_extends : Extends decode_entropy := Extends.ite (extends_put (by decide) _) _

theorem decode_obfuscation_extends : Extends decode_obfuscation := Extends.ite (extends_put (by decide) _) _

theorem decode_anti_analysis_extends : Extends decode_anti_analysis := Extends.ite (extends_put (by decide) _) _

/-- What is said of the constants of an object never replaces a member. -/
theorem decode_enrich_object_extends : Extends decode_enrich_object := by
  intro o ho
  rw [decode_enrich_object]
  have hregion := decode_region_extends o ho
  have hpacket := hregion.trans (decode_packet_extends _ hregion.sorted)
  have hdirection := hpacket.trans (decode_direction_extends _ hpacket.sorted)
  have hbreakpoint := hdirection.trans (decode_breakpoint_extends _ hdirection.sorted)
  have hregisters := hbreakpoint.trans (decode_registers_extends _ hbreakpoint.sorted)
  have hcomplexity := hregisters.trans (decode_complexity_extends _ hregisters.sorted)
  have hentropy := hcomplexity.trans (decode_entropy_extends _ hcomplexity.sorted)
  have hobfuscation := hentropy.trans (decode_obfuscation_extends _ hentropy.sorted)
  exact hobfuscation.trans (decode_anti_analysis_extends _ hobfuscation.sorted)

/-- The texts of an array, if they are written. -/
def array_hex (k : List UInt8) : Value → Option Value
  | .array items =>
    if is_addr_array_key k ∧ items ≠ [] ∧ items.length ≤ 20000 ∧ items.all Value.is_integer then
      some (.array (items.map element_hex))
    else none
  | _ => none

/-- What is written under the hex key of a key, if anything. -/
def mirror (k : List UInt8) (cur : Value) : Option Value :=
  match addr_sv k cur with
  | some sv => some (.string (addr_hex_str sv.toUInt64))
  | none => array_hex k cur

/-- What the additions for one key do. -/
structure Added (k : List UInt8) (cur : Value) (o o' : members_t) : Prop where
  sorted : Sorted o'
  kept : ∀ k v, find k o = some v → find k o' = some v
  others : ∀ key, key.getLast? = some 120 → key ≠ hex_key k → find key o' = find key o
  hex : find (hex_key k) o = none → find (hex_key k) o' = mirror k cur

variable {k : List UInt8} {cur : Value}

theorem Added.of_add (ho : Sorted o) (hmirror : mirror k cur = some v) : Added k cur o (add (hex_key k) v o) := by
  refine ⟨ho.add _ v, fun _ _ hx => find_add_of_some ho hx, fun key _ hne => find_add_ne ho hne, fun hnone => ?_⟩
  rw [find_add ho, hnone, hmirror]
  rfl

theorem Added.of_none (ho : Sorted o) (hmirror : mirror k cur = none) : Added k cur o o :=
  ⟨ho, fun _ _ hx => hx, fun _ _ _ => rfl, fun hnone => hnone.trans hmirror.symm⟩

theorem Added.extend (h : Added k cur o o') (h' : Extended o' o'') : Added k cur o o'' :=
  ⟨h'.sorted, fun key x hx => h'.kept key x (h.kept key x hx),
    fun key hkey hne => (h'.others key hkey).trans (h.others key hkey hne),
    fun hnone => (h'.others _ (hex_key_last k)).trans (h.hex hnone)⟩

theorem name_key_last (k : List UInt8) : (k ++ ascii "_name").getLast? ≠ some 120 := by
  have hlast : (ascii "_name").getLast? = some 101 := by decide
  rw [List.getLast?_append, hlast, Option.some_or]
  decide

theorem modoff_key_last (k : List UInt8) : (k ++ ascii "_modoff").getLast? ≠ some 120 := by
  have hlast : (ascii "_modoff").getLast? = some 102 := by decide
  rw [List.getLast?_append, hlast, Option.some_or]
  decide

theorem enrich_number_added (ctx : enrich_ctx_t) {sv : Int64} (ho : Sorted o) (hsv : addr_sv k cur = some sv) :
    Added k cur o (enrich_number ctx k sv.toUInt64 o) := by
  have hmirror : mirror k cur = some (.string (addr_hex_str sv.toUInt64)) := by rw [mirror, hsv]
  have hhex : Added k cur o _ := Added.of_add ho hmirror
  unfold enrich_number
  simp only
  split
  · have hname : ∀ o', Sorted o' → Extended o' (if resolve_enrich_name sv.toUInt64 ctx ≠ [] ∧ ¬ contains o' "symbol" ∧
        ¬ contains o' "name" then add (k ++ ascii "_name") (.string (resolve_enrich_name sv.toUInt64 ctx)) o' else o') := by
      intro o' ho'
      split
      · exact Extended.add ho' (name_key_last k) _
      · exact Extended.refl ho'
    have hnamed := hhex.extend (hname _ hhex.sorted)
    split
    · exact hnamed.extend (Extended.add hnamed.sorted (modoff_key_last k) _)
    · exact hnamed
  · exact hhex

theorem enrich_array_added (ho : Sorted o) (hsv : addr_sv k cur = none) : Added k cur o (enrich_array k cur o) := by
  have hmirror : mirror k cur = array_hex k cur := by rw [mirror, hsv]
  cases cur with
  | array items =>
    rw [enrich_array]
    split
    case isTrue hints => exact Added.of_add ho (hmirror.trans (if_pos hints))
    case isFalse hnot => exact Added.of_none ho (hmirror.trans (if_neg hnot))
  | _ => exact Added.of_none ho hmirror

/-- Some of the keys of an object have been gone through: their values are enriched and their texts
written, and nothing else has changed. -/
structure Gone (enrich : Value → Value) (m : members_t) (done : List (List UInt8)) (o : members_t) : Prop where
  sorted : Sorted o
  enriched : ∀ k ∈ done, ∀ v, find k m = some v → find k o = some (enrich v)
  unchanged : ∀ k ∉ done, ∀ v, find k m = some v → find k o = some v
  mirrored : ∀ k ∈ done, ∀ v, find k m = some v → find (hex_key k) m = none → find (hex_key k) o = mirror k v
  absent : ∀ k ∉ done, find (hex_key k) m = none → find (hex_key k) o = none

variable {m : members_t} {done : List (List UInt8)} {ctx : enrich_ctx_t} {enrich : Value → Value}

theorem Gone.init (hm : Sorted m) : Gone enrich m [] m :=
  ⟨hm, nofun, fun _ _ _ hv => hv, nofun, fun _ _ hnone => hnone⟩

theorem enrich_key_eq (ho : Sorted o) (hfind : find k o = some cur) (ctx : enrich_ctx_t) (enrich : Value → Value) :
    ∃ o', Added k cur o o' ∧ enrich_key ctx enrich o k = set k (enrich cur) o' := by
  rw [enrich_key, hfind]
  cases hsv : addr_sv k cur with
  | some sv =>
    have hadded : Added k cur o _ := enrich_number_added ctx ho hsv
    refine ⟨_, hadded, ?_⟩
    simp only [hsv, hadded.kept k cur hfind, Option.getD_some]
  | none =>
    have hadded : Added k cur o _ := enrich_array_added ho hsv
    refine ⟨_, hadded, ?_⟩
    simp only [hsv, hadded.kept k cur hfind, Option.getD_some]

/-- Going through one more key. -/
theorem Gone.step (h : Gone enrich m done o) (hk : k ∉ done) (hfind : find k m = some cur) :
    Gone enrich m (k :: done) (enrich_key ctx enrich o k) := by
  obtain ⟨o', hadded, heq⟩ := enrich_key_eq h.sorted (h.unchanged k hk cur hfind) ctx enrich
  rw [heq]
  have hhex : ∀ k', find (hex_key k') m = none → find (hex_key k') (set k (enrich cur) o') = find (hex_key k') o' := by
    intro k' hnone
    refine find_set_ne hadded.sorted ?_
    rintro rfl
    rw [hfind] at hnone
    cases hnone
  refine ⟨hadded.sorted.set k _, ?_, ?_, ?_, ?_⟩
  · intro k' hk' v hv
    by_cases hsame : k' = k
    · subst hsame
      obtain rfl := Option.some.inj (hfind.symm.trans hv)
      exact find_set hadded.sorted
    · have hdone : k' ∈ done := (List.mem_cons.mp hk').resolve_left hsame
      rw [find_set_ne hadded.sorted hsame]
      exact hadded.kept k' _ (h.enriched k' hdone v hv)
  · intro k' hk' v hv
    have hne : k' ≠ k := List.ne_of_not_mem_cons hk'
    have hrest : k' ∉ done := List.not_mem_of_not_mem_cons hk'
    rw [find_set_ne hadded.sorted hne]
    exact hadded.kept k' _ (h.unchanged k' hrest v hv)
  · intro k' hk' v hv hnone
    rw [hhex k' hnone]
    by_cases hsame : k' = k
    · subst hsame
      obtain rfl := Option.some.inj (hfind.symm.trans hv)
      exact hadded.hex (h.absent k' hk hnone)
    · have hdone : k' ∈ done := (List.mem_cons.mp hk').resolve_left hsame
      rw [hadded.others _ (hex_key_last k') (fun hsame' => hsame (hex_key_injective hsame'))]
      exact h.mirrored k' hdone v hv hnone
  · intro k' hk' hnone
    have hne : k' ≠ k := List.ne_of_not_mem_cons hk'
    have hrest : k' ∉ done := List.not_mem_of_not_mem_cons hk'
    rw [hhex k' hnone, hadded.others _ (hex_key_last k') fun hsame => hne (hex_key_injective hsame)]
    exact h.absent k' hrest hnone

theorem Gone.keys {keys : List (List UInt8)} (h : Gone enrich m done o) (hnodup : keys.Nodup)
    (hnew : ∀ k ∈ keys, k ∉ done) (hkeys : ∀ k ∈ keys, ∃ v, find k m = some v) :
    Gone enrich m (keys.reverse ++ done) (keys.foldl (enrich_key ctx enrich) o) := by
  induction keys generalizing done o with
  | nil => exact h
  | cons k keys ih =>
    obtain ⟨hk, hnodup⟩ := List.nodup_cons.mp hnodup
    obtain ⟨hnewk, hnew⟩ := List.forall_mem_cons.mp hnew
    obtain ⟨⟨v, hv⟩, hkeys⟩ := List.forall_mem_cons.mp hkeys
    rw [List.reverse_cons, List.append_assoc, List.singleton_append, List.foldl_cons]
    refine ih (h.step hnewk hv) hnodup (fun k' hk' hmem => ?_) hkeys
    rcases List.mem_cons.mp hmem with rfl | hdone
    · exact hk hk'
    · exact hnew k' hk' hdone

/-- An object that is enriched has its members enriched, and the texts that are written for them. -/
theorem object_enriched (hm : Sorted m) (ctx : enrich_ctx_t) (levels : Nat) :
    ∃ m', enrich_json_value ctx (levels + 1) (.object m) = .object m' ∧
      (∀ k v, find k m = some v → find k m' = some (enrich_json_value ctx levels v)) ∧
      ∀ k v, find k m = some v → find (hex_key k) m = none → find (hex_key k) m' = mirror k v := by
  have hnodup : (m.map Prod.fst).Nodup := List.pairwise_map.mpr hm.ne
  have hkeys : ∀ k ∈ m.map Prod.fst, ∃ v, find k m = some v := by
    intro k hk
    obtain ⟨e, he, rfl⟩ := List.mem_map.mp hk
    exact ⟨e.2, (find_eq_some hm).mpr he⟩
  have hgone : Gone (enrich_json_value ctx levels) m _
      ((m.map Prod.fst).foldl (enrich_key ctx (enrich_json_value ctx levels)) m) :=
    (Gone.init hm).keys hnodup (fun _ _ => nofun) hkeys
  have hextended := decode_enrich_object_extends _ hgone.sorted
  have hmem : ∀ k v, find k m = some v → k ∈ (m.map Prod.fst).reverse ++ [] := by
    intro k v hv
    rw [List.append_nil, List.mem_reverse]
    exact List.mem_map.mpr ⟨(k, v), (find_eq_some hm).mp hv, rfl⟩
  refine ⟨_, rfl, fun k v hv => ?_, fun k v hv hnone => ?_⟩
  · exact hextended.kept k _ (hgone.enriched k (hmem k v hv) v hv)
  · rw [hextended.others _ (hex_key_last k)]
    exact hgone.mirrored k (hmem k v hv) v hv hnone

theorem array_enriched {items : List Value} (hlen : items.length ≤ 20000) (ctx : enrich_ctx_t) (levels : Nat) :
    enrich_json_value ctx (levels + 1) (.array items) = .array (items.map (enrich_json_value ctx levels)) := by
  rw [enrich_json_value, if_neg (Nat.not_lt.mpr hlen)]

/-- Enriching leaves the kind of a document and the number of its elements alone. -/
theorem kept_enriched (ctx : enrich_ctx_t) (levels : Nat) (v : Value) : v.Kept (enrich_json_value ctx levels v) := by
  cases levels with
  | zero => cases v <;> simp [enrich_json_value, Value.Kept]
  | succ levels =>
    cases v with
    | object members => exact ⟨_, rfl⟩
    | array items =>
      rw [enrich_json_value]
      split
      · exact ⟨items, rfl, rfl⟩
      · exact ⟨_, rfl, List.length_map _⟩
    | _ => rfl

/-- A document that is in one that is enriched is enriched itself. -/
theorem child_enriched {v x : Value} {step : Step} (hordered : v.Ordered)
    (hshort : ∀ items, v = .array items → items.length ≤ 20000) (hchild : v.child step = some x)
    (ctx : enrich_ctx_t) (levels : Nat) :
    (enrich_json_value ctx (levels + 1) v).child step = some (enrich_json_value ctx levels x) := by
  cases v with
  | object members =>
    cases step with
    | key k =>
      obtain ⟨m', heq, hmembers, -⟩ := object_enriched hordered ctx levels
      rw [heq]
      exact hmembers k x hchild
    | index i => cases hchild
  | array items =>
    cases step with
    | key k => cases hchild
    | index i =>
      have hget : items[i]? = some x := hchild
      rw [array_enriched (hshort items rfl), Value.child, List.getElem?_map, hget]
      rfl
  | _ => cases step <;> cases hchild

/-- The documents that enriching goes through to the end: their objects and arrays are not nested too
deep and their arrays are not too long. -/
structure Shallow (v : Value) (levels : Nat) : Prop where
  ordered : v.Everywhere Value.Ordered
  deep : ∀ path x, v.follow path = some x → x.is_container = true → path.length < levels
  short : ∀ path items, v.follow path = some (.array items) → items.length ≤ 20000

theorem Shallow.child {v x : Value} {step : Step} {levels : Nat} (h : Shallow v (levels + 1))
    (hchild : v.child step = some x) : Shallow x levels := by
  have hfollow : ∀ path, v.follow (step :: path) = x.follow path := by
    intro path
    rw [Value.follow, hchild]
    rfl
  refine ⟨h.ordered.child hchild, fun path y hy hcontainer => ?_, fun path items hitems => ?_⟩
  · exact Nat.lt_of_succ_lt_succ (h.deep (step :: path) y ((hfollow path).trans hy) hcontainer)
  · exact h.short (step :: path) items ((hfollow path).trans hitems)

theorem follow_enriched {v x : Value} {path : List Step} {levels : Nat} (h : Shallow v levels)
    (hx : v.follow path = some x) (ctx : enrich_ctx_t) :
    (enrich_json_value ctx levels v).follow path = some (enrich_json_value ctx (levels - path.length) x) := by
  induction path generalizing v levels with
  | nil =>
    obtain rfl := Option.some.inj hx
    rfl
  | cons step path ih =>
    obtain ⟨y, hchild, hy⟩ := Option.bind_eq_some_iff.mp hx
    have hcontainer : v.is_container = true := by
      cases v with
      | object members => rfl
      | array items => rfl
      | _ => cases step <;> cases hchild
    obtain ⟨levels, rfl⟩ := Nat.exists_eq_add_one_of_ne_zero (h.deep [] v rfl hcontainer).ne'
    have henriched := child_enriched h.ordered.self (fun items hitems => h.short [] items (congrArg some hitems)) hchild
      ctx levels
    rw [Value.follow, henriched, Option.bind_some, ih (h.child hchild) hy, List.length_cons, Nat.add_sub_add_right]

/-- An address in the upper half is taken for a negative number and gets no text. -/
theorem mirror_number {x : Value} {n : UInt64} (hk : is_addr_key k = true) (hn : x.unsigned = some n) :
    mirror k x = if n.toNat < 2 ^ 63 then some (.string (addr_hex_str n)) else none := by
  obtain ⟨sv, hget, hcast, hsign⟩ := get_int64_unsigned hn
  rw [mirror, addr_sv, if_pos hk, hget]
  by_cases hlow : n.toNat < 2 ^ 63
  · rw [if_pos hlow, Option.filter_some, if_pos (decide_eq_true (hsign.mpr hlow))]
    simp only [hcast]
  · rw [if_neg hlow, Option.filter_some, if_neg (by rw [decide_eq_true_eq, hsign]; exact hlow)]
    cases x with
    | array items => cases hn
    | _ => rfl

theorem mirror_array {items : List Value} (hk : is_addr_array_key k = true) (hne : items ≠ [])
    (hlen : items.length ≤ 20000) (hints : ∀ x ∈ items, x.is_integer = true) :
    mirror k (.array items) = some (.array (items.map element_hex)) := by
  have hsv : addr_sv k (.array items) = none := by
    rw [addr_sv]
    split <;> rfl
  rw [mirror, hsv]
  exact if_pos ⟨hk, hne, hlen, List.all_eq_true.mpr hints⟩

/-- In an array an address in the upper half is given as zero. -/
theorem element_hex_eq {x : Value} {n : UInt64} (hn : x.unsigned = some n) :
    element_hex x = .string (addr_hex_str (if n.toNat < 2 ^ 63 then n else 0)) := by
  obtain ⟨sv, hget, hcast, hsign⟩ := get_int64_unsigned hn
  rw [element_hex]
  simp only [hget, Option.getD_some]
  by_cases hlow : n.toNat < 2 ^ 63
  · rw [if_pos hlow, if_neg (Int64.not_lt.mpr (hsign.mpr hlow)), hcast]
  · rw [if_neg hlow, if_pos (Int64.not_le.mp (mt hsign.mp hlow))]

/-- The texts of an object are written exactly when its addresses are in the lower half. -/
theorem mirrors_iff {o' : members_t} (hshort : ∀ k items, find k o = some (.array items) → items.length ≤ 20000)
    (hmirror : ∀ k v, find k o = some v → find (hex_key k) o = none → find (hex_key k) o' = mirror k v) :
    Mirrors o o' ↔ LowAddresses o := by
  constructor
  · intro h
    refine ⟨fun k x n hk hx hn hnone => ?_, fun k items hk hitems hints hnone x hx n hn => ?_⟩
    · by_contra hhigh
      have htext := h.number k x n hk hx hn hnone
      rw [hmirror k x hx hnone, mirror_number hk hn, if_neg hhigh] at htext
      cases htext
    · by_contra hhigh
      have hne : items ≠ [] := List.ne_nil_of_mem hx
      obtain ⟨texts, hfind, -, htexts⟩ := h.array k items hk hitems hne hints hnone
      rw [hmirror k _ hitems hnone, mirror_array hk hne (hshort k items hitems) hints] at hfind
      cases hfind
      obtain ⟨i, hi⟩ := List.getElem?_of_mem hx
      have htext := htexts i x n hi hn
      rw [List.getElem?_map, hi, Option.map_some, element_hex_eq hn, if_neg hhigh] at htext
      have hzero : (0 : UInt64) = n := addr_hex_str_injective (by simpa using htext)
      exact hhigh (by rw [← hzero]; decide)
  · intro h
    refine ⟨fun k x n hk hx hn hnone => ?_, fun k items hk hitems hne hints hnone => ?_⟩
    · rw [hmirror k x hx hnone, mirror_number hk hn, if_pos (h.number k x n hk hx hn hnone)]
    · refine ⟨items.map element_hex, ?_, List.length_map _, fun i x n hi hn => ?_⟩
      · rw [hmirror k _ hitems hnone, mirror_array hk hne (hshort k items hitems) hints]
      · have hlow := h.array k items hk hitems hints hnone x (List.mem_of_getElem? hi) n hn
        rw [List.getElem?_map, hi, Option.map_some, element_hex_eq hn, if_pos hlow]

end

/-- A result is enriched faithfully exactly when the addresses in it that have no text beside them are
in the lower half. -/
theorem enrich_faithful_iff (ctx : enrich_ctx_t) {v : Value} (hordered : v.Everywhere Value.Ordered)
    (hdeep : ∀ path x, v.follow path = some x → x.is_container = true → path.length ≤ 14)
    (hshort : ∀ path items, v.follow path = some (.array items) → items.length ≤ 20000) :
    Faithful v (enrich_json_value ctx 15 v) ↔ ∀ path o, v.follow path = some (.object o) → LowAddresses o := by
  have hshallow : Shallow v 15 :=
    ⟨hordered, fun path x hx hcontainer => Nat.lt_succ_of_le (hdeep path x hx hcontainer), hshort⟩
  have hobject : ∀ path o, v.follow path = some (.object o) →
      ∃ o', (enrich_json_value ctx 15 v).follow path = some (.object o') ∧ (Mirrors o o' ↔ LowAddresses o) := by
    intro path o ho
    obtain ⟨levels, hlevels⟩ := Nat.exists_eq_add_of_lt (hshallow.deep path _ ho rfl)
    obtain ⟨o', heq, -, hmirror⟩ := object_enriched (hordered path _ ho) ctx levels
    refine ⟨o', ?_, mirrors_iff (fun k items hitems => hshort (path ++ [.key k]) items ?_) hmirror⟩
    · rw [follow_enriched hshallow ho ctx, show 15 - path.length = levels + 1 by omega, heq]
    · rw [follow_append ho, Value.follow, Value.child, hitems]
      rfl
  constructor
  · intro h path o ho
    obtain ⟨o', hfollow, hmirrors⟩ := h.mirrored path o ho
    obtain ⟨o'', hfollow', hiff⟩ := hobject path o ho
    rw [hfollow] at hfollow'
    cases hfollow'
    exact hiff.mp hmirrors
  · intro h
    refine ⟨fun path x hx => ⟨_, follow_enriched hshallow hx ctx, kept_enriched ctx _ x⟩, fun path o ho => ?_⟩
    obtain ⟨o', hfollow, hiff⟩ := hobject path o ho
    exact ⟨o', hfollow, hiff.mpr (h path o ho)⟩

def one_member (n : UInt64) : members_t := [(ascii "va", .number_unsigned n)]

/-- A result that is one address. -/
def one_address (n : UInt64) : Value := .object (one_member n)

theorem one_member_sorted (n : UInt64) : Sorted (one_member n) := List.pairwise_singleton _ _

theorem find_one_member {n : UInt64} {k : List UInt8} {x : Value} (hfind : find k (one_member n) = some x) :
    k = ascii "va" ∧ x = .number_unsigned n := by
  have hmem := List.mem_singleton.mp ((find_eq_some (one_member_sorted n)).mp hfind)
  exact ⟨congrArg Prod.fst hmem, congrArg Prod.snd hmem⟩

theorem follow_one_address {n : UInt64} {path : List Step} {x : Value} (hx : (one_address n).follow path = some x) :
    path = [] ∧ x = one_address n ∨ x = .number_unsigned n := by
  cases path with
  | nil => exact Or.inl ⟨rfl, (Option.some.inj hx).symm⟩
  | cons step path =>
    obtain ⟨y, hchild, hy⟩ := Option.bind_eq_some_iff.mp hx
    cases step with
    | index i => cases hchild
    | key k =>
      obtain ⟨-, rfl⟩ := find_one_member hchild
      cases path with
      | nil => exact Or.inr (Option.some.inj hy).symm
      | cons step path =>
        obtain ⟨z, hchild, -⟩ := Option.bind_eq_some_iff.mp hy
        cases step <;> cases hchild

theorem one_address_ordered (n : UInt64) : (one_address n).Everywhere Value.Ordered := by
  intro path x hx
  rcases follow_one_address hx with ⟨-, rfl⟩ | rfl
  · exact one_member_sorted n
  · trivial

theorem one_address_deep (n : UInt64) (path : List Step) (x : Value) (hx : (one_address n).follow path = some x)
    (hcontainer : x.is_container = true) : path.length ≤ 14 := by
  rcases follow_one_address hx with ⟨rfl, -⟩ | rfl
  · exact Nat.zero_le 14
  · cases hcontainer

theorem one_address_short (n : UInt64) (path : List Step) (items : List Value)
    (hitems : (one_address n).follow path = some (.array items)) : items.length ≤ 20000 := by
  rcases follow_one_address hitems with ⟨-, h⟩ | h <;> cases h

theorem one_member_hex (n : UInt64) : find (hex_key (ascii "va")) (one_member n) = none := rfl

/-- An address of the lower half. -/
theorem user_address_faithful : Faithful (one_address 0x401000) (enrich_json_value {} 15 (one_address 0x401000)) := by
  refine (enrich_faithful_iff {} (one_address_ordered _) (one_address_deep _) (one_address_short _)).mpr ?_
  intro path o ho
  rcases follow_one_address ho with ⟨-, h⟩ | h
  · cases h
    refine ⟨fun k x n _ hx hn _ => ?_, fun k items _ hitems => ?_⟩
    · obtain ⟨-, rfl⟩ := find_one_member hx
      obtain rfl := Option.some.inj hn
      decide
    · cases (find_one_member hitems).2
  · cases h

/-- An address of the kernel gets no text. -/
theorem kernel_address_not_mirrored :
    ¬ ∀ (ctx : enrich_ctx_t) (v : Value), v.Everywhere Value.Ordered →
      (∀ path x, v.follow path = some x → x.is_container = true → path.length ≤ 14) →
      (∀ path items, v.follow path = some (.array items) → items.length ≤ 20000) →
        Faithful v (enrich_json_value ctx 15 v) := by
  intro hlaw
  have hfaithful := hlaw {} _ (one_address_ordered 0xFFFF800000000000) (one_address_deep _) (one_address_short _)
  obtain ⟨o', hfollow, hmirrors⟩ := hfaithful.mirrored [] _ rfl
  obtain ⟨m', heq, -, hmirror⟩ := object_enriched (one_member_sorted 0xFFFF800000000000) {} 14
  have hsame : m' = o' := by
    rw [Value.follow, one_address, heq] at hfollow
    exact Value.object.inj (Option.some.inj hfollow)
  subst hsame
  have htext := hmirrors.number (ascii "va") _ 0xFFFF800000000000 (by decide) rfl rfl (one_member_hex _)
  rw [hmirror (ascii "va") _ rfl (one_member_hex _), mirror_number (by decide) rfl, if_neg (by decide)] at htext
  cases htext

end slop.core.mcp.enrich
