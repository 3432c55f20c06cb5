import ReverseSlop.Core.Re.Declarations

namespace slop.core.re.type_catalog

open Numeral (ascii)

section

variable {ts rest b : List token_t} {kw post : token_t}

theorem stars_replicate (base : token_t) (pointers : Nat) (hrest : peek rest ≠ ascii "*") :
    stars base (List.replicate pointers (ascii "*") ++ rest) = (base ++ List.replicate pointers 42, rest) := by
  induction pointers generalizing base with
  | zero =>
    cases rest with
    | nil => simp [stars]
    | cons t rest =>
      have ht : t ≠ ascii "*" := hrest
      simp [stars, ht]
  | succ pointers ih =>
    rw [List.replicate_succ, List.cons_append, stars, if_pos rfl, ih, List.append_assoc]
    rfl

theorem array_count_of {n : UInt32} (hcount : Count n ts) (hpost : post ≠ ascii "[") :
    array_count (ts ++ post :: rest) = .ok (n, post, rest) := by
  cases hcount with
  | single => simp [array_count, next, hpost]
  | array hn => simp [array_count, next, hn]

/-- A member is read back. -/
theorem member_of {f : field_t} (hmember : MemberTokens f (kw :: b)) (hpost : post = ascii ";" ∨ post = ascii "\x7d") :
    member kw (b ++ post :: rest) = .ok (f, post, rest) := by
  cases hmember with
  | @intro _ name pointers _ ts hbase hname hcount =>
    have hbracket : post ≠ ascii "[" := by
      rcases hpost with rfl | rfl <;> decide
    have hstars : stars kw (List.replicate pointers (ascii "*") ++ name :: ts ++ post :: rest) =
        (kw ++ List.replicate pointers 42, name :: (ts ++ post :: rest)) := by
      rw [List.append_assoc, List.cons_append]
      exact stars_replicate kw pointers hname.2
    simp only [member, hstars, next, if_neg hname.1, array_count_of hcount hbracket, if_pos hpost]

theorem MemberTokens.cons_eq {f : field_t} (hmember : MemberTokens f ts) :
    ∃ base ms, ts = base :: ms ∧ base ≠ ascii "\x7d" ∧ base ≠ ascii ";" := by
  cases hmember with
  | intro hbase => exact ⟨_, _, rfl, hbase⟩

theorem struct_body_cons {f : field_t} (hkw : kw ≠ ascii "\x7d" ∧ kw ≠ ascii ";") (hmember : member kw ts = .ok (f, post, rest)) :
    struct_body (kw :: ts) =
      if post = ascii "\x7d" then .ok ([f], rest) else (struct_body rest).map fun r => (f :: r.1, r.2) := by
  rw [struct_body, if_neg hkw.1, if_neg hkw.2]
  split
  · rename_i hread
    cases hmember.symm.trans hread
  · rename_i hread
    cases hmember.symm.trans hread
    rfl

/-- A body is read back, if what ends it does. -/
theorem struct_body_of {ends : List token_t} {fields : List field_t} (hbody : Body ends fields b)
    (hends : struct_body (ends ++ rest) = .ok ([], rest)) : struct_body (b ++ rest) = .ok (fields, rest) := by
  induction hbody with
  | close => exact hends
  | semicolon _ ih =>
    rw [List.cons_append, struct_body, if_neg (by decide), if_pos rfl]
    exact ih
  | @member f fields ts more hmember _ ih =>
    obtain ⟨base, ms, rfl, hbase⟩ := hmember.cons_eq
    have hread : member base (ms ++ ascii ";" :: (more ++ rest)) = .ok (f, ascii ";", more ++ rest) :=
      member_of hmember (Or.inl rfl)
    rw [List.append_assoc, List.cons_append, List.cons_append, struct_body_cons hbase hread, if_neg (by decide), ih]
    rfl
  | @last f ts hends hmember =>
    subst hends
    obtain ⟨base, ms, rfl, hbase⟩ := hmember.cons_eq
    have hread : member base (ms ++ ascii "\x7d" :: rest) = .ok (f, ascii "\x7d", rest) := member_of hmember (Or.inr rfl)
    rw [List.append_assoc, List.cons_append, List.cons_append, List.nil_append, struct_body_cons hbase hread, if_pos rfl]

theorem enum_values_name {next_val : Int64} {vn : token_t} (hname : vn ≠ ascii "\x7d" ∧ vn ≠ ascii ",") (eq : token_t) :
    enum_values next_val (vn :: eq :: ts) =
      if eq = ascii "=" then
        match ts with
        | [] => .error (ascii "enum: bad value")
        | n :: ts =>
          match Numeral.stoul ULLONG_MAX n with
          | none => .error (ascii "enum: bad value")
          | some v => (enum_values (v.toUInt64.toInt64 + 1) ts).map fun r => ((vn, v.toUInt64.toInt64) :: r.1, r.2)
      else if eq = ascii "," then (enum_values (next_val + 1) ts).map fun r => ((vn, next_val) :: r.1, r.2)
      else if eq = ascii "\x7d" then .ok ([(vn, next_val)], ts)
      else .error (ascii "enum: expected '=' after '" ++ vn ++ ascii "'") := by
  rw [enum_values.eq_def]
  exact (if_neg hname.1).trans (if_neg hname.2)

theorem enum_values_of {next_val : Int64} {values : List (List UInt8 × Int64)} (hvalues : Values next_val values b) :
    enum_values next_val (b ++ rest) = .ok (values, rest) := by
  induction hvalues with
  | close =>
    rw [enum_values.eq_def]
    exact if_pos rfl
  | comma _ ih =>
    rw [enum_values.eq_def]
    exact ((if_neg (by decide)).trans (if_pos rfl)).trans ih
  | explicit hname hn _ ih =>
    rw [List.cons_append, List.cons_append, List.cons_append, enum_values_name hname, if_pos rfl]
    simp only [hn, ih]
    rfl
  | implicit hname _ ih =>
    rw [List.cons_append, List.cons_append, enum_values_name hname, if_neg (by decide), if_pos rfl, ih]
    rfl
  | last hname =>
    rw [List.cons_append, List.cons_append, enum_values_name hname, if_neg (by decide), if_neg (by decide), if_pos rfl]
    rfl

theorem packed_word_of (packed : Bool) (hrest : peek rest ≠ ascii "packed") :
    packed_word (packed_tokens packed ++ rest) = (packed, rest) := by
  cases packed with
  | true => rfl
  | false => exact if_neg hrest

theorem enum_decl_of {name : token_t} {e : enum_def_t} (hd : Definition (.enum e) (kw :: name :: b)) :
    enum_decl name (b ++ rest) = .ok (e, rest) := by
  cases hd with
  | enum _ hvalues =>
    have hcolon : ascii "\x7b" ≠ ascii ":" := by decide
    simp only [enum_decl, peek, next, List.cons_append, hcolon, if_false, if_true, enum_values_of hvalues]
    rfl
  | enum_of _ hvalues =>
    simp only [enum_decl, peek, next, List.cons_append, if_true, enum_values_of hvalues]
    rfl

theorem struct_decl_of {name : token_t} {d : struct_def_t} (hd : Definition (.struct d) (kw :: name :: b))
    (hrest : peek rest ≠ ascii "packed") :
    ∃ left, struct_decl name (b ++ rest) = .ok (d, left) ∧ (left = rest ∨ rest = ascii ";" :: left) := by
  cases hd with
  | @struct _ fields ts before after _ hbody =>
    have hbrace : ascii "\x7b" ≠ ascii "packed" := by decide
    have hread : struct_body (ts ++ (packed_tokens after ++ rest)) = .ok (fields, packed_tokens after ++ rest) := by
      refine struct_body_of hbody ?_
      rw [List.cons_append, struct_body, if_pos rfl, List.nil_append]
    have hbefore : packed_word (packed_tokens before ++ ascii "\x7b" :: (ts ++ packed_tokens after) ++ rest) =
        (before, ascii "\x7b" :: (ts ++ (packed_tokens after ++ rest))) := by
      rw [List.append_assoc, List.cons_append, List.append_assoc]
      exact packed_word_of before hbrace
    simp only [struct_decl, hbefore, next, if_true, hread, Except.map, packed_word_of after hrest]
    split
    · rename_i hsemicolon
      exact ⟨_, rfl, Or.inr (next_eq_of hsemicolon.2 (by decide))⟩
    · exact ⟨_, rfl, Or.inl rfl⟩

theorem Definition.cons_eq {d : decl_t} (hd : Definition d ts) :
    ∃ kw name b, ts = kw :: name :: b ∧ (kw = ascii "struct" ∨ kw = ascii "enum") ∧ NamesType name := by
  cases hd with
  | enum hname => exact ⟨_, _, _, rfl, Or.inr rfl, hname⟩
  | enum_of hname => exact ⟨_, _, _, rfl, Or.inr rfl, hname⟩
  | struct _ _ hname => exact ⟨_, _, _, rfl, Or.inl rfl, hname⟩

theorem decl_named {name : token_t} (hkw : kw = ascii "struct" ∨ kw = ascii "enum") (hname : NamesType name) (ts : List token_t) :
    decl kw (name :: ts) =
      if kw = ascii "enum" then (enum_decl name ts).map fun r => (.enum r.1, r.2)
      else (struct_decl name ts).map fun r => (.struct r.1, r.2) := by
  have hnamed : ¬ (name = [] ∨ name = ascii "\x7b") := not_or.mpr hname
  rw [decl, if_pos hkw]
  exact if_neg hnamed

/-- A definition is read back, up to a semicolon that may be skipped. -/
theorem decl_of {d : decl_t} (hd : Definition d (kw :: b)) (hrest : peek rest ≠ ascii "packed") :
    ∃ left, decl kw (b ++ rest) = .ok (d, left) ∧ (left = rest ∨ rest = ascii ";" :: left) := by
  obtain ⟨_, name, b, hcons, hkw, hname⟩ := hd.cons_eq
  obtain ⟨rfl, rfl⟩ := List.cons.inj hcons
  rw [List.cons_append, decl_named hkw hname]
  cases d with
  | enum e =>
    have hkw : kw = ascii "enum" := by
      cases hd <;> rfl
    rw [if_pos hkw, enum_decl_of hd]
    exact ⟨rest, rfl, Or.inl rfl⟩
  | struct d =>
    have hkw : kw ≠ ascii "enum" := by
      cases hd
      decide
    obtain ⟨left, hread, hleft⟩ := struct_decl_of hd hrest
    rw [if_neg hkw, hread]
    exact ⟨left, rfl, hleft⟩

theorem decl_of_unended {d : struct_def_t} (hd : Unended d (kw :: b)) : decl kw b = .ok (.struct d, []) := by
  cases hd with
  | @intro name fields ts before hname hbody =>
    have hbrace : ascii "\x7b" ≠ ascii "packed" := by decide
    have hread : struct_body ts = .ok (fields, []) := by
      have hnil : struct_body ([] ++ []) = .ok ([], []) := by
        rw [List.nil_append, struct_body]
      simpa using struct_body_of hbody hnil
    have hbefore : packed_word (packed_tokens before ++ ascii "\x7b" :: ts) = (before, ascii "\x7b" :: ts) :=
      packed_word_of before hbrace
    have hlast : packed_word [] = (false, []) := rfl
    rw [decl_named (Or.inl rfl) hname, if_neg (by decide)]
    simp only [struct_decl, hbefore, next, if_true, hread, Except.map, hlast, Bool.or_false, Bool.false_eq_true,
      false_and, if_false]

/-- Definitions are followed by no word that would belong to the one before. -/
theorem Renders.peek_ne {ds : List decl_t} (hds : Renders ds ts) (hrest : peek rest ≠ ascii "packed") :
    peek (ts ++ rest) ≠ ascii "packed" := by
  cases hds with
  | stop => exact hrest
  | semicolon =>
    have hsemicolon : ascii ";" ≠ ascii "packed" := by decide
    exact hsemicolon
  | cons hd =>
    obtain ⟨kw, name, b, rfl, hkw, -⟩ := hd.cons_eq
    have hkw : kw ≠ ascii "packed" := by
      rcases hkw with rfl | rfl <;> decide
    exact hkw

theorem decls_semicolon (batch_sizes : List UInt8 → UInt64) (ts : List token_t) :
    decls batch_sizes (ascii ";" :: ts) = decls batch_sizes ts := by
  rw [decls, if_pos rfl]

theorem decls_cons (batch_sizes : List UInt8 → UInt64) {d : decl_t} (hkw : kw ≠ ascii ";") (hread : decl kw ts = .ok (d, rest)) :
    decls batch_sizes (kw :: ts) =
      let r := decls ((d.laid batch_sizes).known batch_sizes) rest
      { r with decls := d.laid batch_sizes :: r.decls } := by
  rw [decls, if_neg hkw]
  split
  · rename_i hfailed
    cases hread.symm.trans hfailed
  · rename_i hagain
    cases hread.symm.trans hagain
    rfl

/-- Definitions are read back, before whatever may follow them. -/
theorem decls_of {ds : List decl_t} (hds : Renders ds ts) (hrest : peek rest ≠ ascii "packed")
    (batch_sizes : List UInt8 → UInt64) :
    ∃ known, decls batch_sizes (ts ++ rest) =
      { decls known rest with decls := lay_all batch_sizes ds ++ (decls known rest).decls } := by
  induction hds generalizing batch_sizes with
  | stop => exact ⟨batch_sizes, rfl⟩
  | semicolon _ ih =>
    rw [List.cons_append, decls_semicolon]
    exact ih batch_sizes
  | @cons d ds ts more hd hmore ih =>
    obtain ⟨kw, name, b, rfl, hkw, -⟩ := hd.cons_eq
    have hkw : kw ≠ ascii ";" := by
      rcases hkw with rfl | rfl <;> decide
    obtain ⟨left, hread, hleft⟩ := decl_of hd (hmore.peek_ne hrest)
    obtain ⟨known, hknown⟩ := ih ((d.laid batch_sizes).known batch_sizes)
    refine ⟨known, ?_⟩
    have hsame : decls ((d.laid batch_sizes).known batch_sizes) left =
        decls ((d.laid batch_sizes).known batch_sizes) (more ++ rest) := by
      rcases hleft with rfl | hleft
      · rfl
      · rw [hleft, decls_semicolon]
    rw [List.append_assoc, List.cons_append, decls_cons _ hkw hread, hsame, hknown]
    rfl

/-- The parser reads back what renders some definitions. -/
theorem decls_of_renders {ds : List decl_t} (hds : Renders ds ts) (batch_sizes : List UInt8 → UInt64) :
    decls batch_sizes ts = { decls := lay_all batch_sizes ds } := by
  have hnil : peek [] ≠ ascii "packed" := by decide
  obtain ⟨known, hread⟩ := decls_of hds hnil batch_sizes
  have hend : decls known [] = {} := by rw [decls]
  rw [List.append_nil, hend] at hread
  simpa using hread

/-- A struct that ends with the text is taken as if it were closed. -/
theorem error_of_unended {ds : List decl_t} {d : struct_def_t} (hds : Renders ds ts) (hd : Unended d rest)
    (batch_sizes : List UInt8 → UInt64) : (decls batch_sizes (ts ++ rest)).error = [] := by
  obtain ⟨kw, b, rfl, hstruct⟩ : ∃ kw b, rest = kw :: b ∧ kw = ascii "struct" := by
    cases hd
    exact ⟨_, _, rfl, rfl⟩
  obtain ⟨hpacked, hsemicolon⟩ : kw ≠ ascii "packed" ∧ kw ≠ ascii ";" := by
    rw [hstruct]
    decide
  have hnext : peek (kw :: b) ≠ ascii "packed" := hpacked
  obtain ⟨known, hread⟩ := decls_of hds hnext batch_sizes
  have hlast : ∀ known, (decls known []).error = [] := by
    intro known
    rw [decls]
  rw [hread, decls_cons known hsemicolon (decl_of_unended hd)]
  exact hlast _

end

end slop.core.re.type_catalog
