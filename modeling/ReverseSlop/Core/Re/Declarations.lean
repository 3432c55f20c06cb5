import ReverseSlop.Core.Re.Grammar

namespace slop.core.re.type_catalog

open Numeral (ascii)

/-- The definitions in the order of the text. The source keeps two vectors, one for each kind. -/
structure decl_parse_result_t where
  decls : List decl_t := []
  error : List UInt8 := []

def decl_parse_result_t.structs (r : decl_parse_result_t) : List struct_def_t :=
  r.decls.filterMap fun
    | .struct d => some d
    | .enum _ => none

def decl_parse_result_t.enums (r : decl_parse_result_t) : List enum_def_t :=
  r.decls.filterMap fun
    | .struct _ => none
    | .enum e => some e

/-- The next of the tokens that are left, which is empty at the end. -/
def next : List token_t → token_t × List token_t
  | [] => ([], [])
  | t :: ts => (t, ts)

def peek (ts : List token_t) : token_t := (next ts).1

/-- The values of an enum up to the brace, with the value that comes next. -/
def enum_values (next_val : Int64) : List token_t → Except (List UInt8) (List (List UInt8 × Int64) × List token_t)
  | [] => .error (ascii "enum: unexpected end")
  | vn :: ts =>
    if vn = ascii "\x7d" then .ok ([], ts)
    else if vn = ascii "," then enum_values next_val ts
    else
      match ts with
      | [] => .error (ascii "enum: expected '=' after '" ++ vn ++ ascii "'")
      | eq :: ts =>
        if eq = ascii "=" then
          match ts with
          | [] => .error (ascii "enum: bad value")
          | n :: ts =>
            match Numeral.stoul ULLONG_MAX n with
            | none => .error (ascii "enum: bad value")
            | some v =>
              (enum_values (v.toUInt64.toInt64 + 1) ts).map fun r => ((vn, v.toUInt64.toInt64) :: r.1, r.2)
        else if eq = ascii "," then (enum_values (next_val + 1) ts).map fun r => ((vn, next_val) :: r.1, r.2)
        else if eq = ascii "\x7d" then .ok ([(vn, next_val)], ts)
        else .error (ascii "enum: expected '=' after '" ++ vn ++ ascii "'")

/-- A type with the stars behind it. -/
def stars (ftype : token_t) : List token_t → token_t × List token_t
  | [] => (ftype, [])
  | t :: ts => if t = ascii "*" then stars (ftype ++ ascii "*") ts else (ftype, t :: ts)

/-- The count of an array, the token that ends the member, and what is behind it. -/
def array_count (ts : List token_t) : Except (List UInt8) (UInt32 × token_t × List token_t) :=
  let (post, ts) := next ts
  if post = ascii "[" then
    let (n, ts) := next ts
    match Numeral.stoul ULONG_MAX n with
    | none => .error (ascii "struct: bad array count")
    | some n =>
      let (close, ts) := next ts
      if close = ascii "]" then .ok (n.toUInt32, next ts) else .error (ascii "struct: expected ']'")
  else .ok (0, post, ts)

/-- A member behind the first token of its type. -/
def member (ftype : token_t) (ts : List token_t) : Except (List UInt8) (field_t × token_t × List token_t) :=
  let (type, ts) := stars ftype ts
  let (name, ts) := next ts
  if name = [] then .error (ascii "struct: missing member name")
  else
    match array_count ts with
    | .error e => .error e
    | .ok (array_count, post, ts) =>
      if post = ascii ";" ∨ post = ascii "\x7d" then .ok ({ name, type, array_count }, post, ts)
      else .error (ascii "struct: expected ';' after member")

section

variable {ts rest : List token_t} {t post : token_t}

theorem next_eq (hne : (next ts).1 ≠ []) : ts = (next ts).1 :: (next ts).2 := by
  cases ts with
  | nil => exact absurd rfl hne
  | cons t ts => rfl

theorem next_eq_of (hnext : (next ts).1 = t) (hne : t ≠ []) : ts = t :: (next ts).2 := by
  subst hnext
  exact next_eq hne

/-- A type takes all stars behind it. -/
theorem stars_spec (ftype : token_t) (ts : List token_t) :
    ∃ pointers, (stars ftype ts).1 = ftype ++ List.replicate pointers 42 ∧
      ts = List.replicate pointers (ascii "*") ++ (stars ftype ts).2 ∧ peek (stars ftype ts).2 ≠ ascii "*" := by
  fun_induction stars ftype ts with
  | case1 ftype =>
    have hend : peek [] ≠ ascii "*" := by decide
    exact ⟨0, by simp, rfl, hend⟩
  | case2 ftype ts ih =>
    obtain ⟨pointers, htype, hts, hnext⟩ := ih
    refine ⟨pointers + 1, ?_, congrArg (ascii "*" :: ·) hts, hnext⟩
    rw [htype, List.append_assoc]
    rfl
  | case3 ftype t ts hstar => exact ⟨0, by simp, rfl, hstar⟩

theorem array_count_spec {n : UInt32} (hpost : post ≠ []) (h : array_count ts = .ok (n, post, rest)) :
    ∃ count, Count n count ∧ ts = count ++ post :: rest := by
  simp only [array_count] at h
  split at h
  · rename_i hopen
    have hts := next_eq_of hopen (by decide)
    split at h
    · cases h
    · rename_i count hcount
      have hn : (next (next ts).2).1 ≠ [] := by
        intro hnil
        rw [hnil] at hcount
        cases hcount
      split at h
      · rename_i hclose
        have hclosed := next_eq_of hclose (by decide)
        obtain ⟨hcounted, hlast⟩ := Prod.mk.inj (Except.ok.inj h)
        have hended := next_eq_of (congrArg Prod.fst hlast) hpost
        refine ⟨_, hcounted ▸ Count.array hcount, ?_⟩
        rw [hlast] at hended
        calc ts = ascii "[" :: (next ts).2 := hts
          _ = ascii "[" :: (next (next ts).2).1 :: (next (next ts).2).2 := congrArg _ (next_eq hn)
          _ = ascii "[" :: (next (next ts).2).1 :: ascii "]" :: post :: rest := by rw [hclosed, hended]
      · cases h
  · cases h
    exact ⟨[], Count.single, next_eq hpost⟩

theorem member_spec {ftype : token_t} {f : field_t} (hbase : ftype ≠ ascii "\x7d" ∧ ftype ≠ ascii ";")
    (h : member ftype ts = .ok (f, post, rest)) :
    (post = ascii ";" ∨ post = ascii "\x7d") ∧ ∃ ms, MemberTokens f (ftype :: ms) ∧ ts = ms ++ post :: rest := by
  obtain ⟨pointers, htype, hstars, hstar⟩ := stars_spec ftype ts
  simp only [member] at h
  split at h
  · cases h
  · rename_i hname
    split at h
    · cases h
    · rename_i hcount
      split at h
      · rename_i hpost
        cases h
        have hne : post ≠ [] := by
          rcases hpost with rfl | rfl <;> decide
        obtain ⟨count, hcounted, hrest⟩ := array_count_spec hne hcount
        refine ⟨hpost, _, htype ▸ MemberTokens.intro hbase ⟨hname, hstar⟩ hcounted, ?_⟩
        rw [List.append_assoc, List.cons_append, ← hrest]
        exact hstars.trans (congrArg _ (next_eq hname))
      · cases h

end

/-- The members of a struct up to the brace. The end of the text closes a body as a brace does. -/
def struct_body (ts : List token_t) : Except (List UInt8) (List field_t × List token_t) :=
  match ts with
  | [] => .ok ([], [])
  | ftype :: ts =>
    if ftype = ascii "\x7d" then .ok ([], ts)
    else if ftype = ascii ";" then struct_body ts
    else
      match _h : member ftype ts with
      | .error e => .error e
      | .ok (f, post, rest) =>
        if post = ascii "\x7d" then .ok ([f], rest)
        else (struct_body rest).map fun r => (f :: r.1, r.2)
termination_by ts.length
decreasing_by
  · exact Nat.lt_succ_self _
  · rename_i hbrace hsemicolon _
    obtain ⟨-, ms, -, hts⟩ := member_spec ⟨hbrace, hsemicolon⟩ _h
    rw [hts, List.length_cons, List.length_append, List.length_cons]
    omega

def enum_decl (name : token_t) (ts : List token_t) : Except (List UInt8) (enum_def_t × List token_t) :=
  let (underlying, ts) := if peek ts = ascii ":" then next (next ts).2 else (ascii "u32", ts)
  let (brace, ts) := next ts
  if brace = ascii "\x7b" then (enum_values 0 ts).map fun r => ({ name, underlying, values := r.1 }, r.2)
  else .error (ascii "enum: expected '\x7b'")

/-- Whether the word `packed` stands here, and what is behind it. -/
def packed_word (ts : List token_t) : Bool × List token_t :=
  if peek ts = ascii "packed" then (true, (next ts).2) else (false, ts)

def struct_decl (name : token_t) (ts : List token_t) : Except (List UInt8) (struct_def_t × List token_t) :=
  let (before, ts) := packed_word ts
  let (brace, ts) := next ts
  if brace = ascii "\x7b" then
    (struct_body ts).map fun r =>
      let (after, ts) := packed_word r.2
      ({ name, packed := before || after, fields := r.1 }, if after ∧ peek ts = ascii ";" then (next ts).2 else ts)
  else .error (ascii "struct: expected '\x7b'")

/-- The size of an element when only the structs of the text are known. -/
def batch_size (batch_sizes : List UInt8 → UInt64) (f : field_t) : UInt64 :=
  if base_type_size f.type ≠ 0 then base_type_size f.type
  else
    let ptr : Bool := f.type.getLast? = some 42
    let sz := batch_sizes (if ptr then f.type.dropLast else f.type)
    if sz = 0 ∧ ptr then 8 else sz

def layout_batch (batch_sizes : List UInt8 → UInt64) (d : struct_def_t) : struct_def_t :=
  d.laid_out (d.fields.map (batch_size batch_sizes))

/-- A definition behind its keyword. -/
def decl (kw : token_t) (ts : List token_t) : Except (List UInt8) (decl_t × List token_t) :=
  if kw = ascii "struct" ∨ kw = ascii "enum" then
    let (name, ts) := next ts
    if name = [] ∨ name = ascii "\x7b" then .error (ascii "missing type name")
    else if kw = ascii "enum" then (enum_decl name ts).map fun r => (.enum r.1, r.2)
    else (struct_decl name ts).map fun r => (.struct r.1, r.2)
  else .error (ascii "expected 'struct' or 'enum', got '" ++ kw ++ ascii "'")

/-- A definition with its layout. -/
def decl_t.laid (batch_sizes : List UInt8 → UInt64) : decl_t → decl_t
  | .struct d => .struct (layout_batch batch_sizes d)
  | .enum e => .enum e

/-- The sizes that are known behind a definition. -/
def decl_t.known (batch_sizes : List UInt8 → UInt64) : decl_t → List UInt8 → UInt64
  | .struct d => Function.update batch_sizes d.name d.size
  | .enum _ => batch_sizes

section

variable {ts rest : List token_t}

theorem ok_of_map {ε α β : Type} {x : Except ε α} {f : α → β} {b : β} (h : x.map f = .ok b) : ∃ a, x = .ok a ∧ f a = b := by
  cases x with
  | error e => cases h
  | ok a => exact ⟨a, rfl, Except.ok.inj h⟩

/-- A body that is read ends with a brace or with the text. -/
theorem struct_body_spec {r : List field_t × List token_t} (h : struct_body ts = .ok r) :
    (∃ b, Body [ascii "\x7d"] r.1 b ∧ ts = b ++ r.2) ∨ (Body [] r.1 ts ∧ r.2 = []) := by
  fun_induction struct_body ts generalizing r with
  | case1 =>
    cases h
    exact Or.inr ⟨Body.close, rfl⟩
  | case2 ts =>
    cases h
    exact Or.inl ⟨_, Body.close, rfl⟩
  | case3 ts _ ih =>
    rcases ih h with ⟨b, hbody, hts⟩ | ⟨hbody, hrest⟩
    · exact Or.inl ⟨_, hbody.semicolon, congrArg _ hts⟩
    · exact Or.inr ⟨hbody.semicolon, hrest⟩
  | case4 => cases h
  | case5 ftype ts hbrace hsemicolon f rest hmember =>
    cases h
    obtain ⟨-, ms, hms, hts⟩ := member_spec ⟨hbrace, hsemicolon⟩ hmember
    refine Or.inl ⟨_, Body.last rfl hms, ?_⟩
    rw [hts]
    simp
  | case6 ftype ts hbrace hsemicolon f post rest hmember hpost ih =>
    obtain ⟨hends, ms, hms, hts⟩ := member_spec ⟨hbrace, hsemicolon⟩ hmember
    obtain rfl := hends.resolve_right hpost
    obtain ⟨r, hr, rfl⟩ := ok_of_map h
    rcases ih hr with ⟨b, hbody, hrest⟩ | ⟨hbody, hrest⟩
    · refine Or.inl ⟨_, Body.member hms hbody, ?_⟩
      rw [hts, hrest]
      simp
    · refine Or.inr ⟨?_, hrest⟩
      rw [hts]
      exact Body.member hms hbody

theorem enum_values_spec {next_val : Int64} {r : List (List UInt8 × Int64) × List token_t}
    (h : enum_values next_val ts = .ok r) : ∃ b, Values next_val r.1 b ∧ ts = b ++ r.2 := by
  fun_induction enum_values next_val ts generalizing r with
  | case1 => cases h
  | case2 next_val ts =>
    cases h
    exact ⟨_, Values.close, rfl⟩
  | case3 next_val ts _ ih =>
    obtain ⟨b, hvalues, hts⟩ := ih h
    exact ⟨_, hvalues.comma, congrArg _ hts⟩
  | case4 => cases h
  | case5 => cases h
  | case6 => cases h
  | case7 next_val vn hbrace hcomma n ts v hn ih =>
    obtain ⟨r, hr, rfl⟩ := ok_of_map h
    obtain ⟨b, hvalues, hts⟩ := ih hr
    exact ⟨_, Values.explicit ⟨hbrace, hcomma⟩ hn hvalues, congrArg (vn :: ascii "=" :: n :: ·) hts⟩
  | case8 next_val vn hbrace hcomma ts _ ih =>
    obtain ⟨r, hr, rfl⟩ := ok_of_map h
    obtain ⟨b, hvalues, hts⟩ := ih hr
    exact ⟨_, Values.implicit ⟨hbrace, hcomma⟩ hvalues, congrArg (vn :: ascii "," :: ·) hts⟩
  | case9 next_val vn hbrace hcomma ts =>
    cases h
    exact ⟨_, Values.last ⟨hbrace, hcomma⟩, rfl⟩
  | case10 => cases h

theorem enum_decl_spec {name : token_t} {r : enum_def_t × List token_t} (hname : NamesType name)
    (h : enum_decl name ts = .ok r) : ∃ b, Definition (.enum r.1) (ascii "enum" :: name :: b) ∧ ts = b ++ r.2 := by
  simp only [enum_decl] at h
  split at h
  · rename_i hcolon
    have hts := next_eq_of hcolon (by decide)
    split at h
    · rename_i hbrace
      obtain ⟨values, hread, rfl⟩ := ok_of_map h
      obtain ⟨b, hvalues, hb⟩ := enum_values_spec hread
      have hopen := next_eq_of hbrace (by decide)
      cases hrest : (next ts).2 with
      | nil =>
        rw [hrest] at hbrace
        exact absurd hbrace (by decide)
      | cons underlying rest =>
        rw [hrest] at hopen hb hts
        refine ⟨_, Definition.enum_of hname hvalues, ?_⟩
        calc ts = ascii ":" :: underlying :: rest := hts
          _ = ascii ":" :: underlying :: ascii "\x7b" :: (b ++ values.2) :=
            congrArg (ascii ":" :: underlying :: ·) (hopen.trans (congrArg _ hb))
    · cases h
  · split at h
    · rename_i hbrace
      obtain ⟨values, hread, rfl⟩ := ok_of_map h
      obtain ⟨b, hvalues, hb⟩ := enum_values_spec hread
      exact ⟨_, Definition.enum hname hvalues, (next_eq_of hbrace (by decide)).trans (congrArg _ hb)⟩
    · cases h

theorem packed_word_spec (ts : List token_t) : ts = packed_tokens (packed_word ts).1 ++ (packed_word ts).2 := by
  unfold packed_word
  split
  · rename_i hpacked
    exact next_eq_of hpacked (by decide)
  · rfl

/-- A struct is read up to its end, behind which a semicolon may have been skipped, or it ends with the text. -/
theorem struct_decl_spec {name : token_t} {r : struct_def_t × List token_t} (hname : NamesType name)
    (h : struct_decl name ts = .ok r) :
    (∃ b, Definition (.struct r.1) (ascii "struct" :: name :: b) ∧ (ts = b ++ r.2 ∨ ts = b ++ ascii ";" :: r.2)) ∨
      (Unended r.1 (ascii "struct" :: name :: ts) ∧ r.2 = []) := by
  have hbefore := packed_word_spec ts
  simp only [struct_decl] at h
  split at h
  · rename_i hbrace
    obtain ⟨body, hread, rfl⟩ := ok_of_map h
    have hopen := next_eq_of hbrace (by decide)
    rcases struct_body_spec hread with ⟨b, hbody, hb⟩ | ⟨hbody, hend⟩
    · left
      have hafter := packed_word_spec body.2
      refine ⟨_, Definition.struct (packed_word ts).1 (packed_word body.2).1 hname hbody, ?_⟩
      have hts : ts = packed_tokens (packed_word ts).1 ++
          ascii "\x7b" :: (b ++ packed_tokens (packed_word body.2).1) ++ (packed_word body.2).2 := by
        calc ts = packed_tokens (packed_word ts).1 ++ (packed_word ts).2 := hbefore
          _ = packed_tokens (packed_word ts).1 ++ ascii "\x7b" :: (b ++ body.2) := by rw [hopen, hb]
          _ = _ := by
            nth_rewrite 1 [hafter]
            simp
      split
      · rename_i hsemicolon
        right
        refine hts.trans ?_
        rw [← next_eq_of hsemicolon.2 (by decide)]
      · exact Or.inl hts
    · right
      have hlast : packed_word body.2 = (false, []) := by
        rw [hend]
        rfl
      rw [hlast]
      refine ⟨?_, rfl⟩
      have hunended := Unended.intro (packed_word ts).1 hname hbody
      rw [← hopen, ← hbefore] at hunended
      simpa using hunended
  · cases h

/-- A definition is read up to its end, behind which a semicolon may have been skipped, or it is a struct that ends
with the text. -/
theorem decl_spec {kw : token_t} {d : decl_t} (h : decl kw ts = .ok (d, rest)) :
    (∃ b, Definition d (kw :: b) ∧ (ts = b ++ rest ∨ ts = b ++ ascii ";" :: rest)) ∨
      ∃ s, d = .struct s ∧ Unended s (kw :: ts) ∧ rest = [] := by
  simp only [decl] at h
  split at h
  · rename_i hkw
    split at h
    · cases h
    · rename_i hname
      have hname := not_or.mp hname
      have hts := next_eq hname.1
      split at h
      · rename_i henum
        obtain ⟨r, hread, hr⟩ := ok_of_map h
        cases hr
        obtain ⟨b, hdefinition, hb⟩ := enum_decl_spec hname hread
        subst henum
        exact Or.inl ⟨_, hdefinition, Or.inl (hts.trans (congrArg _ hb))⟩
      · rename_i hstruct
        obtain rfl := hkw.resolve_right hstruct
        obtain ⟨r, hread, hr⟩ := ok_of_map h
        cases hr
        rcases struct_decl_spec hname hread with ⟨b, hdefinition, hb⟩ | ⟨hunended, hend⟩
        · left
          refine ⟨_, hdefinition, ?_⟩
          exact hb.imp (fun hb => hts.trans (congrArg _ hb)) fun hb => hts.trans (congrArg _ hb)
        · right
          rw [← hts] at hunended
          exact ⟨r.1, rfl, hunended, hend⟩
  · cases h

end

/-- The definitions of a text, when some structs are known. What is read before an error is kept. -/
def decls (batch_sizes : List UInt8 → UInt64) (ts : List token_t) : decl_parse_result_t :=
  match ts with
  | [] => {}
  | kw :: ts =>
    if kw = ascii ";" then decls batch_sizes ts
    else
      match _h : decl kw ts with
      | .error error => { error }
      | .ok (d, rest) =>
        let d := d.laid batch_sizes
        let r := decls (d.known batch_sizes) rest
        { r with decls := d :: r.decls }
termination_by ts.length
decreasing_by
  · exact Nat.lt_succ_self _
  · rcases decl_spec _h with ⟨b, -, hts | hts⟩ | ⟨_, -, -, rfl⟩
    · rw [hts, List.length_cons, List.length_append]
      omega
    · rw [hts, List.length_cons, List.length_append, List.length_cons]
      omega
    · exact Nat.succ_pos _

/-- The definitions with their layouts, one after the other. -/
def lay_all : (List UInt8 → UInt64) → List decl_t → List decl_t
  | _, [] => []
  | batch_sizes, d :: ds => d.laid batch_sizes :: lay_all ((d.laid batch_sizes).known batch_sizes) ds

def parse_decls (text : List UInt8) : decl_parse_result_t := decls (fun _ => 0) (tokens text)

end slop.core.re.type_catalog
