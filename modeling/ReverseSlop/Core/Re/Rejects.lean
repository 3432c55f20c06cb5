import ReverseSlop.Core.Re.BatchLayout

namespace slop.core.re.type_catalog

open Numeral (ascii)

/-- Something that may open a body begins here. -/
def HeaderAt (ts : List token_t) : Prop :=
  ∃ kw name mark rest, ts = kw :: name :: mark :: rest ∧ (kw = ascii "struct" ∨ kw = ascii "enum") ∧
    is_ident name = true ∧ (mark = ascii "\x7b" ∨ mark = ascii "packed" ∨ mark = ascii ":")

/-- No header begins among some tokens, whatever of it may stand behind them. -/
def Clear : List token_t → List token_t → Prop
  | [], _ => True
  | t :: ts, rest => ¬ HeaderAt (t :: (ts ++ rest)) ∧ Clear ts rest

/-- No brace comes before the next header or the end. -/
def Stuck (ts : List token_t) : Prop :=
  ∃ body rest, ts = body ++ rest ∧ ascii "\x7d" ∉ body ∧ (rest = [] ∨ HeaderAt rest)

section

variable {ts rest b tail header before : List token_t} {t u v name : token_t}

theorem Opens.headerAt (hopens : Opens header) (rest : List token_t) : HeaderAt (header ++ rest) := by
  cases hopens with
  | struct packed hname =>
    cases packed with
    | true => exact ⟨_, _, _, _, rfl, Or.inl rfl, hname, Or.inr (Or.inl rfl)⟩
    | false => exact ⟨_, _, _, _, rfl, Or.inl rfl, hname, Or.inl rfl⟩
  | enum hname => exact ⟨_, _, _, _, rfl, Or.inr rfl, hname, Or.inl rfl⟩
  | enum_of hname => exact ⟨_, _, _, _, rfl, Or.inr rfl, hname, Or.inr (Or.inr rfl)⟩

theorem not_header_of_keyword (ht : t ≠ ascii "struct" ∧ t ≠ ascii "enum") : ¬ HeaderAt (t :: ts) := by
  rintro ⟨kw, name, mark, rest, hts, hkw, -⟩
  cases hts
  exact hkw.elim ht.1 ht.2

theorem not_header_of_name (hu : is_ident u = false) : ¬ HeaderAt (t :: u :: ts) := by
  rintro ⟨kw, name, mark, rest, hts, -, hname, -⟩
  cases hts
  rw [hu] at hname
  cases hname

theorem not_header_of_mark (hv : v ≠ ascii "\x7b" ∧ v ≠ ascii "packed" ∧ v ≠ ascii ":") : ¬ HeaderAt (t :: u :: v :: ts) := by
  rintro ⟨kw, name, mark, rest, hts, -, -, hmark⟩
  cases hts
  exact hmark.elim hv.1 fun hmark => hmark.elim hv.2.1 hv.2.2

theorem Clear.append (hclear : Clear ts (b ++ rest)) (hb : Clear b rest) : Clear (ts ++ b) rest := by
  induction ts with
  | nil => exact hb
  | cons t ts ih =>
    have hhead := hclear.1
    rw [← List.append_assoc] at hhead
    exact ⟨hhead, ih hclear.2⟩

/-- A number is no keyword. -/
theorem keyword_of_stoul {max n : Nat} (hn : Numeral.stoul max t = some n) : t ≠ ascii "struct" ∧ t ≠ ascii "enum" := by
  have hnone : ∀ s ∈ ["struct", "enum"].map ascii, Numeral.stoul max s = none := by
    have hdigits : ∀ s ∈ ["struct", "enum"].map ascii,
        Numeral.digits (Numeral.auto_base (Numeral.sign (s.dropWhile Numeral.is_space)).2).1
          (Numeral.auto_base (Numeral.sign (s.dropWhile Numeral.is_space)).2).2 = [] := by
      decide
    intro s hs
    rw [Numeral.stoul]
    exact if_pos (Or.inl (hdigits s hs))
  constructor
  · rintro rfl
    cases hn.symm.trans (hnone _ (by simp))
  · rintro rfl
    cases hn.symm.trans (hnone _ (by simp))

theorem Count.clear {n : UInt32} (hcount : Count n ts) : Clear ts rest := by
  cases hcount with
  | single => trivial
  | array hn =>
    exact ⟨not_header_of_keyword (by decide), not_header_of_keyword (keyword_of_stoul hn),
      not_header_of_keyword (by decide), trivial⟩

theorem MemberTokens.clear {f : field_t} (hmember : MemberTokens f ts) (ht : t = ascii ";" ∨ t = ascii "\x7d") : Clear ts (t :: rest) := by
  cases hmember with
  | @intro base name pointers _ count hbase hname hcount =>
    -- behind the name comes a bracket or what ends the member
    obtain ⟨next, more, hnext, hkind⟩ : ∃ next more, count ++ t :: rest = next :: more ∧
        (next = ascii "[" ∨ next = ascii ";" ∨ next = ascii "\x7d") := by
      cases hcount with
      | single => exact ⟨t, rest, rfl, Or.inr ht⟩
      | array => exact ⟨_, _, rfl, Or.inl rfl⟩
    have hmark : next ≠ ascii "\x7b" ∧ next ≠ ascii "packed" ∧ next ≠ ascii ":" := by
      rcases hkind with rfl | rfl | rfl <;> decide
    have hident : is_ident next = false := by
      rcases hkind with rfl | rfl | rfl <;> decide
    have hnamed : Clear (name :: count) (t :: rest) := by
      refine ⟨?_, hcount.clear⟩
      rw [hnext]
      exact not_header_of_name hident
    have hstars : ∀ pointers, Clear (List.replicate pointers (ascii "*") ++ name :: count) (t :: rest) := by
      intro pointers
      induction pointers with
      | zero => exact hnamed
      | succ pointers ih => exact ⟨not_header_of_keyword (by decide), ih⟩
    refine ⟨?_, hstars pointers⟩
    cases pointers with
    | zero =>
      rw [List.replicate_zero, List.nil_append, List.cons_append, hnext]
      exact not_header_of_mark hmark
    | succ pointers => exact not_header_of_name (by decide)

theorem Body.clear {ends : List token_t} {fields : List field_t} (hbody : Body ends fields b) (hends : Clear ends rest) :
    Clear b rest := by
  induction hbody with
  | close => exact hends
  | semicolon _ ih => exact ⟨not_header_of_keyword (by decide), ih⟩
  | member hmember _ ih =>
    exact Clear.append (hmember.clear (Or.inl rfl)) ⟨not_header_of_keyword (by decide), ih⟩
  | last hbrace hmember =>
    subst hbrace
    exact Clear.append (hmember.clear (Or.inr rfl)) hends

theorem Values.clear {next_val : Int64} {values : List (List UInt8 × Int64)} (hvalues : Values next_val values b) :
    Clear b rest := by
  induction hvalues with
  | close => exact ⟨not_header_of_keyword (by decide), trivial⟩
  | comma _ ih => exact ⟨not_header_of_keyword (by decide), ih⟩
  | explicit _ hn _ ih =>
    exact ⟨not_header_of_name (by decide), not_header_of_keyword (by decide),
      not_header_of_keyword (keyword_of_stoul hn), ih⟩
  | implicit _ _ ih => exact ⟨not_header_of_name (by decide), not_header_of_keyword (by decide), ih⟩
  | last => exact ⟨not_header_of_name (by decide), not_header_of_keyword (by decide), trivial⟩

/-- A header stands behind tokens among which none begins. -/
theorem Clear.skip (hclear : Clear ts rest) (hopens : Opens header) (h : ts ++ rest = before ++ header ++ tail) :
    ∃ before', before = ts ++ before' ∧ rest = before' ++ header ++ tail := by
  induction ts generalizing before with
  | nil => exact ⟨before, rfl, h⟩
  | cons t ts ih =>
    cases before with
    | nil =>
      have hheader := hopens.headerAt tail
      rw [List.nil_append] at h
      rw [← h] at hheader
      exact absurd hheader hclear.1
    | cons t' before =>
      obtain ⟨rfl, hts⟩ := List.cons.inj h
      obtain ⟨before', rfl, hrest⟩ := ih hclear.2 hts
      exact ⟨before', rfl, hrest⟩

/-- Where no header begins before a brace, the brace is there in time. -/
theorem Clear.not_stuck (hclear : Clear b rest) (hbrace : ascii "\x7d" ∈ b) : ¬ Stuck (b ++ rest) := by
  induction b with
  | nil => cases hbrace
  | cons t b ih =>
    rintro ⟨body, more, h, hnone, hmore⟩
    cases body with
    | nil =>
      rw [List.nil_append] at h
      rcases hmore with rfl | hheader
      · cases h
      · rw [← h] at hheader
        exact hclear.1 hheader
    | cons t' body =>
      obtain ⟨rfl, hts⟩ := List.cons.inj h
      have hne : t ≠ ascii "\x7d" := fun ht => hnone (ht ▸ List.mem_cons_self)
      have hin : ascii "\x7d" ∈ b := (List.mem_cons.mp hbrace).resolve_left fun ht => hne ht.symm
      exact ih hclear.2 hin ⟨body, more, hts, fun hbody => hnone (List.mem_cons_of_mem _ hbody), hmore⟩

theorem Body.brace_mem {fields : List field_t} (hbody : Body [ascii "\x7d"] fields b) : ascii "\x7d" ∈ b := by
  induction hbody with
  | close => exact List.mem_singleton_self _
  | semicolon _ ih => exact List.mem_cons_of_mem _ ih
  | member _ _ ih => exact List.mem_append_right _ (List.mem_cons_of_mem _ ih)
  | last => exact List.mem_append_right _ (List.mem_singleton_self _)

theorem Values.brace_mem {next_val : Int64} {values : List (List UInt8 × Int64)} (hvalues : Values next_val values b) :
    ascii "\x7d" ∈ b := by
  induction hvalues with
  | close => exact List.mem_singleton_self _
  | comma _ ih => exact List.mem_cons_of_mem _ ih
  | explicit _ _ _ ih => exact List.mem_cons_of_mem _ (List.mem_cons_of_mem _ (List.mem_cons_of_mem _ ih))
  | implicit _ _ ih => exact List.mem_cons_of_mem _ (List.mem_cons_of_mem _ ih)
  | last => exact List.mem_cons_of_mem _ (List.mem_singleton_self _)

theorem packed_tokens_inj {packed packed' : Bool} {ts' : List token_t}
    (h : packed_tokens packed ++ ascii "\x7b" :: ts = packed_tokens packed' ++ ascii "\x7b" :: ts') : ts = ts' := by
  have hne : ascii "packed" ≠ ascii "\x7b" := by decide
  cases packed <;> cases packed'
  · exact (List.cons.inj h).2
  · exact absurd (List.cons.inj h).1.symm hne
  · exact absurd (List.cons.inj h).1 hne
  · exact (List.cons.inj (List.cons.inj h).2).2

theorem Opens.struct_inv {more : List token_t} (hopens : Opens header) (h : header ++ tail = ascii "struct" :: name :: more) :
    is_ident name = true ∧ ∃ packed, more = packed_tokens packed ++ ascii "\x7b" :: tail := by
  have hne : ascii "enum" ≠ ascii "struct" := by decide
  cases hopens with
  | struct packed hname =>
    obtain ⟨rfl, hmore⟩ := List.cons.inj (List.cons.inj h).2
    exact ⟨hname, packed, by simpa using hmore.symm⟩
  | enum => exact absurd (List.cons.inj h).1 hne
  | enum_of => exact absurd (List.cons.inj h).1 hne

theorem Opens.name_inv {more : List token_t} (hopens : Opens header) (h : header ++ tail = t :: name :: more) :
    (t = ascii "struct" ∨ t = ascii "enum") ∧ is_ident name = true := by
  obtain ⟨kw, n, mark, rest, hheader, hkw, hn, -⟩ := hopens.headerAt tail
  rw [h] at hheader
  obtain ⟨rfl, hrest⟩ := List.cons.inj hheader
  obtain ⟨rfl, -⟩ := List.cons.inj hrest
  exact ⟨hkw, hn⟩

theorem Opens.brace_inv {more : List token_t} (hopens : Opens header)
    (h : header ++ tail = t :: name :: ascii "\x7b" :: more) : more = tail := by
  cases hopens with
  | @struct _ packed =>
    obtain ⟨-, hmore⟩ := List.cons.inj (List.cons.inj h).2
    change packed_tokens packed ++ [ascii "\x7b"] ++ tail = ascii "\x7b" :: more at hmore
    rw [List.append_assoc] at hmore
    have hbraces : packed_tokens false ++ ascii "\x7b" :: more = packed_tokens packed ++ ascii "\x7b" :: tail := hmore.symm
    exact packed_tokens_inj hbraces
  | enum => exact (List.cons.inj (List.cons.inj (List.cons.inj h).2).2).2.symm
  | enum_of =>
    have hne : ascii ":" ≠ ascii "\x7b" := by decide
    exact absurd (List.cons.inj (List.cons.inj (List.cons.inj h).2).2).1 hne

theorem Opens.colon_inv {more : List token_t} (hopens : Opens header)
    (h : header ++ tail = t :: name :: ascii ":" :: u :: v :: more) : more = tail := by
  cases hopens with
  | struct packed =>
    have hne : ascii "\x7b" ≠ ascii ":" ∧ ascii "packed" ≠ ascii ":" := by decide
    obtain ⟨-, hmore⟩ := List.cons.inj (List.cons.inj h).2
    cases packed with
    | true => exact absurd (List.cons.inj hmore).1 hne.2
    | false => exact absurd (List.cons.inj hmore).1 hne.1
  | enum =>
    have hne : ascii "\x7b" ≠ ascii ":" := by decide
    exact absurd (List.cons.inj (List.cons.inj (List.cons.inj h).2).2).1 hne
  | enum_of =>
    obtain ⟨-, hmore⟩ := List.cons.inj (List.cons.inj (List.cons.inj h).2).2
    exact (List.cons.inj (List.cons.inj hmore).2).2.symm

/-- The header of a struct opens its body, or a header stands behind its name. -/
theorem struct_header {packed : Bool} (hopens : Opens header)
    (h : ascii "struct" :: name :: (packed_tokens packed ++ ascii "\x7b" :: b) = before ++ header ++ tail) :
    (is_ident name = true ∧ b = tail) ∨
      ∃ before', before = ascii "struct" :: name :: before' ∧
        packed_tokens packed ++ ascii "\x7b" :: b = before' ++ header ++ tail := by
  match before with
  | [] =>
    obtain ⟨hname, packed', hmore⟩ := hopens.struct_inv h.symm
    exact Or.inl ⟨hname, packed_tokens_inj hmore⟩
  | [kw] =>
    -- the name looks like a keyword, and what follows it like a name
    have hmore := (List.cons.inj h).2
    cases packed with
    | false =>
      obtain ⟨-, hbrace⟩ := hopens.name_inv hmore.symm
      exact absurd hbrace (by decide)
    | true =>
      obtain ⟨hkw, -⟩ := hopens.name_inv hmore.symm
      have hname : is_ident name = true := by
        rcases hkw with rfl | rfl <;> decide
      exact Or.inl ⟨hname, hopens.brace_inv hmore.symm⟩
  | kw :: name' :: before' =>
    obtain ⟨rfl, hmore⟩ := List.cons.inj h
    obtain ⟨rfl, hrest⟩ := List.cons.inj hmore
    exact Or.inr ⟨before', rfl, hrest⟩

theorem Body.not_stuck {fields : List field_t} (hbody : Body [ascii "\x7d"] fields b) : ¬ Stuck (b ++ rest) :=
  (hbody.clear ⟨not_header_of_keyword (by decide), trivial⟩).not_stuck hbody.brace_mem

theorem packed_tokens_clear (packed : Bool) : Clear (packed_tokens packed) rest := by
  cases packed with
  | true => exact ⟨not_header_of_keyword (by decide), trivial⟩
  | false => trivial

/-- A body that is not closed is opened behind a definition. -/
theorem Definition.skip {d : decl_t} (hd : Definition d ts) (hopens : Opens header) (hstuck : Stuck tail)
    (h : ts ++ rest = before ++ header ++ tail) : ∃ before', before = ts ++ before' ∧ rest = before' ++ header ++ tail := by
  cases hd with
  | @struct name fields body packed after hname hbody =>
    have hts : ascii "struct" :: name :: (packed_tokens packed ++ ascii "\x7b" :: (body ++ (packed_tokens after ++ rest))) =
        before ++ header ++ tail := by
      simpa using h
    rcases struct_header hopens hts with ⟨-, rfl⟩ | ⟨before', rfl, hmore⟩
    · exact absurd hstuck hbody.not_stuck
    · have hclosed : Clear [ascii "\x7d"] (packed_tokens after ++ rest) := ⟨not_header_of_keyword (by decide), trivial⟩
      have hclear : Clear (packed_tokens packed ++ ascii "\x7b" :: (body ++ packed_tokens after)) rest :=
        (packed_tokens_clear packed).append
          ⟨not_header_of_keyword (by decide), (hbody.clear hclosed).append (packed_tokens_clear after)⟩
      obtain ⟨before, rfl, hrest⟩ := hclear.skip hopens (by simpa using hmore)
      exact ⟨before, rfl, hrest⟩
  | @enum name values body hname hvalues =>
    match before with
    | [] => exact absurd hstuck (hopens.brace_inv h.symm ▸ hvalues.clear.not_stuck hvalues.brace_mem)
    | [kw] =>
      obtain ⟨-, hbrace⟩ := hopens.name_inv (List.cons.inj h).2.symm
      exact absurd hbrace (by decide)
    | kw :: name' :: before' =>
      obtain ⟨rfl, hmore⟩ := List.cons.inj h
      obtain ⟨rfl, hrest⟩ := List.cons.inj hmore
      have hclear : Clear (ascii "\x7b" :: body) rest := ⟨not_header_of_keyword (by decide), hvalues.clear⟩
      obtain ⟨before, rfl, hlast⟩ := hclear.skip hopens hrest
      exact ⟨before, rfl, hlast⟩
  | @enum_of name underlying values body hname hvalues =>
    match before with
    | [] => exact absurd hstuck (hopens.colon_inv h.symm ▸ hvalues.clear.not_stuck hvalues.brace_mem)
    | [kw] =>
      obtain ⟨-, hcolon⟩ := hopens.name_inv (List.cons.inj h).2.symm
      exact absurd hcolon (by decide)
    | kw :: name' :: before' =>
      obtain ⟨rfl, hmore⟩ := List.cons.inj h
      obtain ⟨rfl, hrest⟩ := List.cons.inj hmore
      have hclear : Clear (ascii ":" :: underlying :: ascii "\x7b" :: body) rest :=
        ⟨not_header_of_keyword (by decide), not_header_of_name (by decide), not_header_of_keyword (by decide), hvalues.clear⟩
      obtain ⟨before, rfl, hlast⟩ := hclear.skip hopens hrest
      exact ⟨before, rfl, hlast⟩

theorem Renders.skip {ds : List decl_t} (hds : Renders ds ts) (hopens : Opens header) (hstuck : Stuck tail)
    (h : ts ++ rest = before ++ header ++ tail) : ∃ before', before = ts ++ before' ∧ rest = before' ++ header ++ tail := by
  induction hds generalizing before with
  | stop => exact ⟨before, rfl, h⟩
  | @semicolon ds ts hds ih =>
    have hclear : Clear [ascii ";"] (ts ++ rest) := ⟨not_header_of_keyword (by decide), trivial⟩
    obtain ⟨before', rfl, hmore⟩ := hclear.skip hopens h
    obtain ⟨before, rfl, hrest⟩ := ih hmore
    exact ⟨before, rfl, hrest⟩
  | @cons d ds ts more hd _ ih =>
    rw [List.append_assoc] at h
    obtain ⟨before', rfl, hmore⟩ := hd.skip hopens hstuck h
    obtain ⟨before, rfl, hrest⟩ := ih hmore
    exact ⟨before, (List.append_assoc _ _ _).symm, hrest⟩

/-- A body that is not closed is the one of a struct that ends with the text. -/
theorem Unended.unclosed {d : struct_def_t} (hd : Unended d ts) (hopens : Opens header) (hstuck : Stuck tail)
    (h : ts = before ++ header ++ tail) :
    ∃ name packed fields, ts = ascii "struct" :: name :: (packed_tokens packed ++ ascii "\x7b" :: tail) ∧
      is_ident name = true ∧ Body [] fields tail ∧ ascii "\x7d" ∉ tail := by
  cases hd with
  | @intro name fields body packed hname hbody =>
    have hclear : Clear body [] := hbody.clear trivial
    rcases struct_header hopens h with ⟨hident, rfl⟩ | ⟨before', rfl, hmore⟩
    · refine ⟨name, packed, fields, rfl, hident, hbody, fun hbrace => hclear.not_stuck hbrace ?_⟩
      rwa [List.append_nil]
    · have hall : Clear (packed_tokens packed ++ ascii "\x7b" :: body) [] :=
        (packed_tokens_clear packed).append ⟨not_header_of_keyword (by decide), hclear⟩
      obtain ⟨before, -, hnil⟩ := hall.skip hopens (by rwa [List.append_nil])
      obtain ⟨kw, name, mark, rest, hheader, -⟩ := hopens.headerAt tail
      rw [List.append_assoc, hheader] at hnil
      simp at hnil

end

/-- What fails has a text. -/
def Told {α : Type} (x : Except (List UInt8) α) : Prop := ∀ e, x = .error e → e ≠ []

section

variable {α β : Type} {ts : List token_t} {s : List UInt8}

theorem told_ok (a : α) : Told (.ok a) := fun _ h => nomatch h

theorem told_error (hs : s ≠ []) : Told (.error s : Except (List UInt8) α) := fun _ h => Except.error.inj h ▸ hs

theorem Told.map {x : Except (List UInt8) α} (hx : Told x) (f : α → β) : Told (x.map f) := by
  cases x with
  | error e => exact told_error (hx e rfl)
  | ok a => exact told_ok _

theorem told_enum_values (next_val : Int64) (ts : List token_t) : Told (enum_values next_val ts) := by
  fun_induction enum_values next_val ts with
  | case1 => exact told_error (by decide)
  | case2 => exact told_ok _
  | case3 _ _ _ ih => exact ih
  | case4 => exact told_error (List.append_ne_nil_of_right_ne_nil _ (by decide))
  | case5 => exact told_error (by decide)
  | case6 => exact told_error (by decide)
  | case7 _ _ _ _ _ _ _ _ ih => exact ih.map _
  | case8 _ _ _ _ _ _ ih => exact ih.map _
  | case9 => exact told_ok _
  | case10 => exact told_error (List.append_ne_nil_of_right_ne_nil _ (by decide))

theorem told_array_count (ts : List token_t) : Told (array_count ts) := by
  simp only [array_count]
  split
  · split
    · exact told_error (by decide)
    · split
      · exact told_ok _
      · exact told_error (by decide)
  · exact told_ok _

theorem told_member (ftype : token_t) (ts : List token_t) : Told (member ftype ts) := by
  simp only [member]
  split
  · exact told_error (by decide)
  · split
    · rename_i hcount
      exact told_error (told_array_count _ _ hcount)
    · split
      · exact told_ok _
      · exact told_error (by decide)

theorem told_struct_body (ts : List token_t) : Told (struct_body ts) := by
  fun_induction struct_body ts with
  | case1 => exact told_ok _
  | case2 => exact told_ok _
  | case3 _ _ ih => exact ih
  | case4 _ _ _ _ e hmember => exact told_error (told_member _ _ _ hmember)
  | case5 => exact told_ok _
  | case6 _ _ _ _ _ _ _ _ _ ih => exact ih.map _

theorem told_enum_decl (name : token_t) (ts : List token_t) : Told (enum_decl name ts) := by
  simp only [enum_decl]
  split
  all_goals
    split
    · exact (told_enum_values _ _).map _
    · exact told_error (by decide)

theorem told_struct_decl (name : token_t) (ts : List token_t) : Told (struct_decl name ts) := by
  simp only [struct_decl]
  split
  · exact (told_struct_body _).map _
  · exact told_error (by decide)

theorem told_decl (kw : token_t) (ts : List token_t) : Told (decl kw ts) := by
  simp only [decl]
  split
  · split
    · exact told_error (by decide)
    · split
      · exact (told_enum_decl _ _).map _
      · exact (told_struct_decl _ _).map _
  · exact told_error (List.append_ne_nil_of_right_ne_nil _ (by decide))

/-- What is accepted renders definitions, behind which a struct may end with the text. -/
theorem decls_spec {batch_sizes : List UInt8 → UInt64} (h : (decls batch_sizes ts).error = []) :
    ∃ ds, Renders ds ts ∨ ∃ before d tail, ts = before ++ tail ∧ Renders ds before ∧ Unended d tail := by
  fun_induction decls batch_sizes ts with
  | case1 => exact ⟨[], Or.inl Renders.stop⟩
  | case2 _ ts ih =>
    obtain ⟨ds, hds | ⟨before, d, tail, rfl, hds, hd⟩⟩ := ih h
    · exact ⟨ds, Or.inl hds.semicolon⟩
    · exact ⟨ds, Or.inr ⟨_, d, tail, rfl, hds.semicolon, hd⟩⟩
  | case3 _ kw ts _ e hread => exact absurd h (told_decl _ _ _ hread)
  | case4 batch_sizes kw ts _ d rest hread laid r ih =>
    rcases decl_spec hread with ⟨b, hd, hts⟩ | ⟨s, rfl, hunended, -⟩
    · obtain ⟨ds, hds | ⟨before, s, tail, rfl, hds, hs⟩⟩ := ih h
      · refine ⟨d :: ds, Or.inl ?_⟩
        rcases hts with rfl | rfl
        · exact Renders.cons hd hds
        · exact Renders.cons hd hds.semicolon
      · rcases hts with rfl | rfl
        · refine ⟨d :: ds, Or.inr ⟨_, s, tail, ?_, Renders.cons hd hds, hs⟩⟩
          simp
        · refine ⟨d :: ds, Or.inr ⟨_, s, tail, ?_, Renders.cons hd hds.semicolon, hs⟩⟩
          simp
    · exact ⟨[], Or.inr ⟨[], s, _, rfl, Renders.stop, hunended⟩⟩

/-- The layout does not change what was written. -/
theorem bare_lay_all (batch_sizes : List UInt8 → UInt64) (ds : List decl_t) :
    (lay_all batch_sizes ds).map decl_t.bare = ds.map decl_t.bare := by
  induction ds generalizing batch_sizes with
  | nil => rfl
  | cons d ds ih =>
    have hd : (d.laid batch_sizes).bare = d.bare := by
      cases d with
      | enum e => rfl
      | struct d => exact congrArg decl_t.struct (bare_laid_out d _)
    rw [lay_all, List.map_cons, List.map_cons, hd, ih]

theorem Renders.bare {ds : List decl_t} (hds : Renders ds ts) : ds.map decl_t.bare = ds := by
  induction hds with
  | stop => rfl
  | semicolon _ ih => exact ih
  | cons hd _ ih => rw [List.map_cons, hd.bare, ih]

theorem stuck_of_unclosed {body rest : List token_t} (hbody : ascii "\x7d" ∉ body)
    (hrest : rest = [] ∨ ∃ header rest', rest = header ++ rest' ∧ Opens header) : Stuck (body ++ rest) := by
  refine ⟨body, rest, rfl, hbody, hrest.imp_right ?_⟩
  rintro ⟨header, rest', rfl, hopens⟩
  exact hopens.headerAt rest'

/-- A text with a body that is not closed is accepted only if that is the body of a struct at its end. -/
theorem endsInStruct_of_unclosed {batch_sizes : List UInt8 → UInt64} (hunclosed : Unclosed ts)
    (h : (decls batch_sizes ts).error = []) : EndsInStruct ts := by
  obtain ⟨before, header, body, rest, rfl, hopens, hbody, hrest⟩ := hunclosed
  have hstuck : Stuck (body ++ rest) := stuck_of_unclosed hbody hrest
  obtain ⟨ds, hds | ⟨front, s, tail, hts, hds, hs⟩⟩ := decls_spec h
  · have hall : before ++ header ++ body ++ rest ++ [] = before ++ header ++ (body ++ rest) := by simp
    obtain ⟨before', -, hnil⟩ := hds.skip hopens hstuck hall
    obtain ⟨kw, name, mark, more, hheader, -⟩ := hopens.headerAt (body ++ rest)
    rw [List.append_assoc, hheader] at hnil
    simp at hnil
  · have hall : front ++ tail = before ++ header ++ (body ++ rest) := by
      rw [← hts, List.append_assoc]
    obtain ⟨before', rfl, htail⟩ := hds.skip hopens hstuck hall
    obtain ⟨name, packed, fields, htail', hname, hfields, hbrace⟩ := hs.unclosed hopens hstuck htail
    exact ⟨ds, front, name, packed, fields, body ++ rest, by rw [hts, htail'], hds, hname, hfields, hbrace⟩

theorem unclosed_of_endsInStruct (h : EndsInStruct ts) : Unclosed ts ∧ ∀ batch_sizes, (decls batch_sizes ts).error = [] := by
  obtain ⟨ds, before, name, packed, fields, body, rfl, hds, hname, hbody, hbrace⟩ := h
  constructor
  · exact ⟨before, _, body, [], by simp, Opens.struct packed hname, hbrace, Or.inl rfl⟩
  · have hnames : NamesType name := by
      constructor
      · rintro rfl
        cases hname
      · rintro rfl
        exact absurd hname (by decide)
    exact fun batch_sizes => error_of_unended hds (Unended.intro packed hnames hbody) batch_sizes

end

/-- The parser returns what a text renders, and rejects a text with a body that is not closed, exactly if the text
does not end in a struct whose members are complete but whose body is not closed. -/
theorem parse_decls_accepts_grammar_iff (text : List UInt8) :
    ((∀ ds ts, Renders ds ts → Spells ts text →
          (parse_decls text).error = [] ∧ (parse_decls text).decls.map decl_t.bare = ds) ∧
        (Unclosed (tokens text) → (parse_decls text).error ≠ [])) ↔
      ¬ EndsInStruct (tokens text) := by
  constructor
  · rintro ⟨-, hrejects⟩ hends
    obtain ⟨hunclosed, haccepted⟩ := unclosed_of_endsInStruct hends
    exact hrejects hunclosed (haccepted _)
  · intro hends
    refine ⟨?_, fun hunclosed haccepted => hends (endsInStruct_of_unclosed hunclosed haccepted)⟩
    intro ds ts hds hspells
    have hread : parse_decls text = { decls := lay_all (fun _ => 0) ds } := by
      rw [parse_decls, tokens_of_spells hspells, decls_of_renders hds]
    rw [hread]
    exact ⟨rfl, (bare_lay_all _ ds).trans hds.bare⟩

/-- A struct that is cut off behind a member is accepted. -/
theorem cut_struct_is_accepted :
    Unclosed (tokens (ascii "struct A \x7b u32 a;")) ∧ (parse_decls (ascii "struct A \x7b u32 a;")).error = [] := by
  have htokens : tokens (ascii "struct A \x7b u32 a;") = ["struct", "A", "\x7b", "u32", "a", ";"].map ascii := by
    decide
  have hmember : MemberTokens { name := ascii "a", type := ascii "u32" } [ascii "u32", ascii "a"] :=
    @MemberTokens.intro (ascii "u32") (ascii "a") 0 0 [] (by decide) (by decide) Count.single
  have hends : EndsInStruct (tokens (ascii "struct A \x7b u32 a;")) := by
    rw [htokens]
    refine ⟨[], [], ascii "A", false, _, _, rfl, Renders.stop, by decide, Body.member hmember Body.close, by decide⟩
  obtain ⟨hunclosed, haccepted⟩ := unclosed_of_endsInStruct hends
  exact ⟨hunclosed, haccepted _⟩

end slop.core.re.type_catalog
