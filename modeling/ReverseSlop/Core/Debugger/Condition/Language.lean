import ReverseSlop.Core.Debugger.Condition.Tokens
import Mathlib.Data.Nat.Bitwise

namespace slop.core.debugger

open runtime

/-- How an operator is written. -/
def cond_op_t.text : cond_op_t → List Char
  | .eq => ['=', '=']
  | .ne => ['!', '=']
  | .lt => ['<']
  | .gt => ['>']
  | .le => ['<', '=']
  | .ge => ['>', '=']
  | .band => ['&']

/-- What an operator says about a register's value and a constant. -/
def cond_op_t.Holds (v n : Nat) : cond_op_t → Prop
  | .eq => v = n
  | .ne => v ≠ n
  | .lt => v < n
  | .gt => v > n
  | .le => v ≤ n
  | .ge => v ≥ n
  | .band => v &&& n ≠ 0

def is_blank (c : Char) : Bool := c = ' ' || c = '\t'

/-- A constant in decimal or behind 0x. -/
def Constant (num : List Char) (n : Nat) : Prop :=
  num ≠ [] ∧ (∀ c ∈ num, is_digit 10 c = true) ∧ n = value 10 num ∨
    ∃ x ds, num = '0' :: x :: ds ∧ is_x x = true ∧ ds ≠ [] ∧ (∀ c ∈ ds, is_digit 16 c = true) ∧ n = value 16 ds

/-- A register, an operator and a constant, with blanks between them that may be missing before the constant. -/
def Written (text : List Char) (reg : reg_ptr_t) (op : cond_op_t) (num : List Char) : Prop :=
  ∃ name gap gap', text = name ++ (gap ++ (op.text ++ (gap' ++ num))) ∧ lookup_reg name = some reg ∧ gap ≠ [] ∧
    (∀ c ∈ gap, is_blank c = true) ∧ ∀ c ∈ gap', is_blank c = true

/-- The text is a condition of the language, with a constant of 64 bits. -/
def Condition (text : List Char) (reg : reg_ptr_t) (op : cond_op_t) (n : Nat) : Prop :=
  ∃ num, Written text reg op num ∧ Constant num n ∧ n < 2 ^ 64

/-- What the parser takes for a condition: blanks of any kind in front, a register, blanks with a space or a tab
among them, an operator, blanks, a sign, a number, and anything behind it. A plus needs a space in front. -/
def Taken (text : List Char) (reg : reg_ptr_t) (op : cond_op_t) (v : UInt64) : Prop :=
  ∃ lead name gap gap' sgn core tail n,
    text = lead ++ (name ++ (gap ++ (op.text ++ (gap' ++ (sgn ++ (core ++ tail)))))) ∧
      (∀ c ∈ lead, isspace c = true) ∧ lookup_reg name = some reg ∧ (∀ c ∈ gap, isspace c = true) ∧
      (∃ c ∈ gap, is_blank c = true) ∧ (∀ c ∈ gap', isspace c = true) ∧
      (sgn = [] ∨ sgn = ['-'] ∨ sgn = ['+'] ∧ ' ' ∈ gap') ∧ Reads tail core n ∧ n < 2 ^ 64 ∧ v = signed sgn n

section

variable {name text gap : List Char} {reg : reg_ptr_t} {op : cond_op_t} {v : UInt64}

theorem lookup_reg_chars (hname : lookup_reg name = some reg) : name ≠ [] ∧ ∀ c ∈ name, 32 < c.toNat := by
  obtain ⟨⟨n, r⟩, hfind, _⟩ := Option.map_eq_some_iff.mp hname
  have hmem := List.mem_of_find?_eq_some hfind
  have heq : n.toList.map Char.toLower = name.map Char.toLower := by
    simpa [stricmp_eq] using List.find?_some hfind
  have hall : ∀ e ∈ kRegs, e.1.toList ≠ [] ∧ ∀ c ∈ e.1.toList.map Char.toLower, 32 < c.toNat := by
    simp [kRegs]
  obtain ⟨hne, hchars⟩ := hall (n, r) hmem
  refine ⟨?_, ?_⟩
  · rintro rfl
    simp at heq
    exact hne (by simpa using heq)
  · intro c hc
    have hlower := hchars c.toLower (by rw [heq]; exact List.mem_map_of_mem hc)
    unfold Char.toLower at hlower
    split at hlower
    · rename_i hupper
      have hlow := UInt32.le_iff_toNat_le.mp hupper.1
      have hA : ('A' : Char).val.toNat = 65 := by simp
      have hval : c.toNat = c.val.toNat := by simp
      omega
    · exact hlower

theorem parse_op_text (op : cond_op_t) : parse_op op.text = some op := by cases op <;> simp [parse_op, cond_op_t.text]

theorem text_of_parse_op {tok : List Char} (hop : parse_op tok = some op) : tok = op.text := by
  simp only [parse_op] at hop
  grind [cond_op_t.text]

/-- The separators behind an operator. -/
abbrev op_sep : List Char := " 0123456789xXabcdefABCDEF-".toList

theorem op_text_chars (op : cond_op_t) :
    op.text ≠ [] ∧ ∀ c ∈ op.text, isspace c = false ∧ is_separator op_sep c = false := by
  cases op <;> simp [cond_op_t.text, isspace, is_separator, op_sep]

theorem is_separator_blank {c : Char} : is_separator [' ', '\t'] c = true ↔ c = '\x00' ∨ is_blank c = true := by
  simp [is_separator, is_blank]

theorem not_nul_of_isspace {c : Char} (hc : isspace c = true) : c ≠ '\x00' := by
  rintro rfl
  simp [isspace] at hc

theorem isspace_of_is_blank {c : Char} (hc : is_blank c = true) : isspace c = true := by
  simp only [is_blank, Bool.or_eq_true, decide_eq_true_eq] at hc
  obtain rfl | rfl := hc <;> simp [isspace]

/-- Of the blanks only a space ends an operator. -/
theorem not_separator_of_isspace {c : Char} (hc : isspace c = true) (hne : c ≠ ' ') : is_separator op_sep c = false := by
  rw [← Bool.not_eq_true]
  intro hsep
  simp only [is_separator, Bool.or_eq_true, decide_eq_true_eq, List.contains_iff_mem] at hsep
  have hall : ∀ d ∈ op_sep, d = ' ' ∨ 32 < d.toNat := by simp [op_sep]
  obtain rfl | hmem := hsep
  · simp [isspace] at hc
  · have hle := (le_of_isspace hc).2
    obtain hspace | hlt := hall c hmem
    · exact hne hspace
    · omega

theorem takeWhile_head_of_mem (p : Char → Bool) {l : List Char} (more : List Char) (hmem : ∃ c ∈ l, p c = true) :
    ∀ c ∈ (l.dropWhile (fun c => !p c) ++ more).head?, p c = true := by
  intro c hc
  cases hdrop : l.dropWhile fun c => !p c with
  | nil =>
    obtain ⟨d, hd, hp⟩ := hmem
    have hnone := List.dropWhile_eq_nil_iff.mp hdrop d hd
    simp [hp] at hnone
  | cons d rest =>
    have hhead := head?_dropWhile_not (fun c => !p c) l d (by simp [hdrop])
    obtain rfl : d = c := by simpa [hdrop] using hc
    simpa using hhead

theorem head?_of_forall {p : Char → Prop} {l : List Char} (hl : ∀ c ∈ l, p c) : ∀ c ∈ l.head?, p c :=
  fun c hc => hl c (List.mem_of_mem_head? hc)

theorem getLast?_of_forall {p : Char → Prop} {l : List Char} (hl : ∀ c ∈ l, p c) : ∀ c ∈ l.getLast?, p c :=
  fun c hc => hl c (List.mem_of_mem_getLast? hc)

/-- The first token is the register. -/
theorem token_name {lead rest : List Char} (hlead : ∀ c ∈ lead, isspace c = true) (hname : lookup_reg name = some reg)
    (hgap : ∀ c ∈ gap, isspace c = true) (hblank : ∃ c ∈ gap, is_blank c = true) :
    token [' ', '\t'] (lead ++ (name ++ (gap ++ rest))) = (name, gap ++ rest) := by
  obtain ⟨hne, hchars⟩ := lookup_reg_chars hname
  have hspace : ∀ c ∈ name, isspace c = false := fun c hc => not_isspace (hchars c hc)
  have hsplit := List.takeWhile_append_dropWhile (p := fun c => !is_blank c) (l := gap)
  have htoken := token_eq [' ', '\t'] name (gap.takeWhile fun c => !is_blank c)
    (gap.dropWhile (fun c => !is_blank c) ++ rest) hlead hne (head?_of_forall hspace)
    (getLast?_of_forall hspace) ?_ ?_ ?_
  · rwa [← List.append_assoc (gap.takeWhile _), hsplit] at htoken
  · intro c hc
    rw [← Bool.not_eq_true, is_separator_blank]
    have hlt := hchars c hc
    rintro (rfl | hblank)
    · simp at hlt
    · have hsp := hspace c hc
      simp [isspace_of_is_blank hblank] at hsp
  · intro c hc
    have hmem := hgap c ((List.takeWhile_prefix _).mem hc)
    refine ⟨hmem, ?_⟩
    rw [← Bool.not_eq_true, is_separator_blank]
    have hnot := List.mem_takeWhile_imp hc
    rintro (hnul | hblank)
    · exact not_nul_of_isspace hmem hnul
    · simp [hblank] at hnot
  · intro c hc
    rw [is_separator_blank]
    exact Or.inr (takeWhile_head_of_mem is_blank _ hblank c hc)

/-- The second token is the operator. -/
theorem token_op {gap' rest : List Char} (hgap : ∀ c ∈ gap, isspace c = true) (hgap' : ∀ c ∈ gap', isspace c = true)
    (hrest : ' ' ∈ gap' ∨ ∀ c ∈ rest.head?, is_separator op_sep c = true) :
    token op_sep (gap ++ (op.text ++ (gap' ++ rest))) = (op.text, gap' ++ rest) := by
  obtain ⟨hne, hchars⟩ := op_text_chars op
  have hsplit := List.takeWhile_append_dropWhile (p := fun c => !(c = ' ' : Bool)) (l := gap')
  have htoken := token_eq op_sep op.text (gap'.takeWhile fun c => !(c = ' ' : Bool))
    (gap'.dropWhile (fun c => !(c = ' ' : Bool)) ++ rest) hgap hne
    (head?_of_forall fun c hc => (hchars c hc).1) (getLast?_of_forall fun c hc => (hchars c hc).1)
    (fun c hc => (hchars c hc).2) ?_ ?_
  · rwa [← List.append_assoc (gap'.takeWhile _), hsplit] at htoken
  · intro c hc
    have hmem := hgap' c ((List.takeWhile_prefix _).mem hc)
    have hnot := List.mem_takeWhile_imp hc
    exact ⟨hmem, not_separator_of_isspace hmem (by simpa using hnot)⟩
  · intro c hc
    by_cases hspace : ' ' ∈ gap'
    · have hc' := takeWhile_head_of_mem (fun c => (c = ' ' : Bool)) rest ⟨' ', hspace, by simp⟩ c hc
      obtain rfl : c = ' ' := by simpa using hc'
      simp [is_separator, op_sep]
    · have hnil : gap'.dropWhile (fun c => !(c = ' ' : Bool)) = [] := by
        rw [List.dropWhile_eq_nil_iff]
        intro d hd
        simp only [Bool.not_eq_true', decide_eq_false_iff_not]
        rintro rfl
        exact hspace hd
      rw [hnil, List.nil_append] at hc
      exact hrest.resolve_left hspace c hc

/-- The third token begins with the number. -/
theorem token_number {lead sgn core tail : List Char} {n : Nat} (hlead : ∀ c ∈ lead, isspace c = true)
    (hsign : sgn = [] ∨ sgn = ['-'] ∨ sgn = ['+']) (h : Reads tail core n) :
    ∃ tail', (token [] (lead ++ (sgn ++ (core ++ tail)))).1 = sgn ++ (core ++ tail') ∧ Reads tail' core n := by
  let raw := tail.takeWhile fun c => !is_separator [] c
  have hraw : ∀ c ∈ raw, is_separator [] c = false := by
    intro c hc
    simpa using List.mem_takeWhile_imp hc
  have hsplit : raw.rdropWhile isspace ++ raw.rtakeWhile isspace = raw := List.rdropWhile_append_rtakeWhile ..
  have hchars : ∀ c ∈ sgn ++ core, 32 < c.toNat := by
    intro c hc
    obtain hc | hc := List.mem_append.mp hc
    · obtain rfl | rfl | rfl := hsign
      · simp at hc
      · simp [List.mem_singleton.mp hc]
      · simp [List.mem_singleton.mp hc]
    · have hle := h.le_of_mem c hc
      omega
  obtain ⟨d, core', hcore, _⟩ := h.head
  have hne : sgn ++ core ≠ [] := by simp [hcore]
  have hpre : raw.rdropWhile isspace <+: tail := (List.rdropWhile_prefix ..).trans (List.takeWhile_prefix _)
  refine ⟨raw.rdropWhile isspace, ?_, h.of_prefix hpre⟩
  have htoken := token_eq [] ((sgn ++ core) ++ raw.rdropWhile isspace) (raw.rtakeWhile isspace)
    (tail.dropWhile fun c => !is_separator [] c) hlead (by simp [hcore])
    ?_ ?_ ?_ ?_ ?_
  · have htail : tail = raw.rdropWhile isspace ++ (raw.rtakeWhile isspace ++ tail.dropWhile fun c => !is_separator [] c) := by
      rw [← List.append_assoc, hsplit]
      exact (List.takeWhile_append_dropWhile ..).symm
    nth_rewrite 1 [htail]
    rw [← List.append_assoc core, ← List.append_assoc sgn, ← List.append_assoc sgn, htoken]
  · obtain ⟨c, rest, hcons⟩ := List.exists_cons_of_ne_nil hne
    rw [hcons]
    simpa using not_isspace (hchars c (by simp [hcons]))
  · intro c hc
    by_cases hnil : raw.rdropWhile isspace = []
    · rw [hnil, List.append_nil] at hc
      exact not_isspace (hchars c (List.mem_of_mem_getLast? hc))
    · have hlast := List.rdropWhile_last_not isspace raw hnil
      rw [List.getLast?_append_of_ne_nil _ hnil, List.getLast?_eq_some_getLast hnil, Option.mem_some_iff] at hc
      rw [hc] at hlast
      simpa using hlast
  · intro c hc
    obtain hc | hc := List.mem_append.mp hc
    · have hlt := hchars c hc
      rw [← Bool.not_eq_true]
      intro hsep
      obtain rfl : c = '\x00' := by simpa [is_separator] using hsep
      simp at hlt
    · exact hraw c ((List.rdropWhile_prefix ..).mem hc)
  · intro c hc
    exact ⟨List.mem_rtakeWhile_imp hc, hraw c ((List.rtakeWhile_suffix ..).mem hc)⟩
  · intro c hc
    simpa using head?_dropWhile_not _ _ c hc

/-- A text that is taken for a condition is valid, with the number that is read. -/
theorem parse_taken {text : String} (h : Taken text.toList reg op v) :
    parse_condition text = { valid := true, reg := some reg, op, value := v } := by
  obtain ⟨lead, name, gap, gap', sgn, core, tail, n, htext, hlead, hname, hgap, hblank, hgap', hsign, hreads, hn, rfl⟩ := h
  have hsign' : sgn = [] ∨ sgn = ['-'] ∨ sgn = ['+'] := hsign.imp_right fun h => h.imp_right And.left
  obtain ⟨d, core', hcore, hd⟩ := hreads.head
  have hop : token op_sep (gap ++ (op.text ++ (gap' ++ (sgn ++ (core ++ tail))))) =
      (op.text, gap' ++ (sgn ++ (core ++ tail))) := by
    apply token_op hgap hgap'
    obtain rfl | rfl | ⟨_, hspace⟩ := hsign
    · right
      have hsep : ∀ c ∈ "0123456789".toList, is_separator op_sep c = true := by simp [is_separator, op_sep]
      simpa [hcore] using hsep d (is_digit_ten hd)
    · right
      simp [is_separator, op_sep]
    · exact Or.inl hspace
  obtain ⟨tail', hval, hreads'⟩ := token_number hgap' hsign' hreads
  have hstoull := stoull_eq hsign' hreads' hn
  have hname' : name.isEmpty = false := by simp [(lookup_reg_chars hname).1]
  have hne : (sgn ++ (core ++ tail')).isEmpty = false := by simp [hcore]
  simp only [parse_condition, htext, token_name hlead hname hgap hblank, hname', hname, hop, parse_op_text, hval, hne,
    hstoull, Bool.false_eq_true, if_false]

/-- The three tokens of a valid condition. -/
theorem valid_cases {text : String} (hvalid : (parse_condition text).valid = true) :
    ∃ reg_name rest op_text rest' reg op v, token [' ', '\t'] text.toList = (reg_name, rest) ∧
      lookup_reg reg_name = some reg ∧ token op_sep rest = (op_text, rest') ∧ parse_op op_text = some op ∧
      stoull (token [] rest').1 = some v := by
  rw [parse_condition] at hvalid
  generalize hsep : " 0123456789xXabcdefABCDEF-".toList = sep at hvalid
  cases htoken : token [' ', '\t'] text.toList with | mk reg_name rest
  simp only [htoken] at hvalid
  split at hvalid
  · cases hvalid
  · split at hvalid
    · cases hvalid
    · rename_i reg hreg
      cases htoken' : token sep rest with | mk op_text rest'
      simp only [htoken'] at hvalid
      split at hvalid
      · cases hvalid
      · rename_i op hop
        split at hvalid
        · cases hvalid
        · split at hvalid
          · cases hvalid
          · rename_i v hv
            exact ⟨reg_name, rest, op_text, rest', reg, op, v, by simp, hreg, by rw [op_sep, hsep]; exact htoken', hop, hv⟩

/-- A separator stands between the end of a token and the next thing. -/
theorem separator_between {sep blanks more lead l : List Char} {c : Char} (hblanks : ∀ c ∈ blanks, isspace c = true)
    (hmore : ∀ c ∈ more.head?, is_separator sep c = true) (heq : blanks ++ more = lead ++ c :: l)
    (hspace : isspace c = false) (hsep : is_separator sep c = false) : ∃ c ∈ lead, is_separator sep c = true := by
  obtain ⟨between, rfl, hbetween⟩ | ⟨between, rfl, hbetween⟩ := List.append_eq_append_iff.mp heq
  · cases between with
    | nil =>
      rw [List.nil_append] at hbetween
      simp [hbetween, hsep] at hmore
    | cons d between => exact ⟨d, by simp, hmore d (by simp [hbetween])⟩
  · cases between with
    | nil =>
      rw [List.nil_append] at hbetween
      simp [← hbetween, hsep] at hmore
    | cons d between =>
      obtain ⟨rfl, _⟩ := List.cons.inj hbetween
      simp [hblanks c (by simp)] at hspace

/-- What is valid was taken for a condition. -/
theorem taken_of_valid {text : String} (hvalid : (parse_condition text).valid = true) :
    ∃ reg op v, Taken text.toList reg op v := by
  obtain ⟨name, rest, op_text, rest', reg, op, v, hname, hreg, hop_text, hop, hv⟩ := valid_cases hvalid
  obtain rfl := text_of_parse_op hop
  obtain ⟨lead, blanks, more, htext, hnext, hlead, _, hblanks, hmore⟩ := token_cases [' ', '\t'] text.toList
  obtain ⟨lead', blanks', more', hrest, hnext', hlead', _, hblanks', hmore'⟩ := token_cases op_sep rest
  obtain ⟨lead'', blanks'', more'', hrest', _, hlead'', hfirst, hblanks'', hmore''⟩ := token_cases [] rest'
  rw [hname] at htext hnext
  rw [hop_text] at hrest hnext'
  simp only at htext hnext hrest hnext'
  obtain ⟨sgn, core, tail, n, hval, hsign, hreads, hn, rfl⟩ := reads_of_stoull hfirst hv
  rw [hval] at hrest'
  obtain ⟨hne, hchars⟩ := op_text_chars op
  obtain ⟨o, op_rest, ho⟩ := List.exists_cons_of_ne_nil hne
  have hbehind : ∀ c ∈ (blanks'' ++ more'').head?, c.toNat < 48 := by
    intro c hc
    cases blanks'' with
    | nil =>
      obtain rfl : c = '\x00' := by simpa [is_separator] using hmore'' c (by simpa using hc)
      simp
    | cons d blanks'' =>
      obtain rfl : d = c := by simpa using hc
      have hle := (le_of_isspace (hblanks'' d (by simp))).2
      omega
  have hreads' : Reads (tail ++ (blanks'' ++ more'')) core n := hreads.append hbehind
  refine ⟨reg, op, signed sgn n, lead, name, lead', lead'', sgn, core, tail ++ (blanks'' ++ more''), n, ?_, hlead, hreg,
    hlead', ?_, hlead'', ?_, hreads', hn, by simp⟩
  · rw [htext, ← hnext, hrest, ← hnext', hrest']
    simp
  · rw [hnext, ho, List.cons_append] at hrest
    obtain ⟨hospace, hosep⟩ := hchars o (by simp [ho])
    have hoblank : is_separator [' ', '\t'] o = false := by
      rw [← Bool.not_eq_true, is_separator_blank]
      rintro (rfl | hblank)
      · simp [is_separator] at hosep
      · simp [isspace_of_is_blank hblank] at hospace
    obtain ⟨c, hc, hsep⟩ := separator_between hblanks hmore hrest hospace hoblank
    have hspace := hlead' c hc
    exact ⟨c, hc, (is_separator_blank.mp hsep).resolve_left (not_nul_of_isspace hspace)⟩
  · obtain rfl | rfl | rfl := hsign
    · simp
    · simp
    · right; right
      refine ⟨by simp, ?_⟩
      rw [hnext', List.append_assoc, List.singleton_append] at hrest'
      have hplus : isspace '+' = false ∧ is_separator op_sep '+' = false := by decide
      obtain ⟨c, hc, hsep⟩ := separator_between hblanks' hmore' hrest' hplus.1 hplus.2
      by_cases hspace : c = ' '
      · rwa [← hspace]
      · simp [not_separator_of_isspace (hlead'' c hc) hspace] at hsep

end

/-- The parser and the evaluation treat a text as the language of conditions has it. -/
def Meets (text : String) : Prop :=
  (∀ reg op n, Condition text.toList reg op n → (parse_condition text).valid = true ∧
    ∀ ctx : thread_context_t, eval_condition (parse_condition text) ctx = true ↔ op.Holds (ctx.get reg).toNat n) ∧
  ((¬ ∃ reg op n, Condition text.toList reg op n) → (parse_condition text).valid = false)

/-- A decimal constant of the text that begins with 0 is at most 7, and the text is a condition or is not of the
looser form that is taken for one. -/
def Plain (text : List Char) : Prop :=
  (∀ reg op num, Written text reg op num → num.head? = some '0' → (∀ c ∈ num, is_digit 10 c = true) →
    value 10 num < 2 ^ 64 → value 10 num ≤ 7) ∧
  ((∃ reg op v, Taken text reg op v) → ∃ reg op n, Condition text reg op n)

section

variable {num : List Char} {n : Nat} {text : List Char} {reg : reg_ptr_t} {op : cond_op_t}

theorem value_concat (base : Nat) (ds : List Char) (c : Char) :
    value base (ds ++ [c]) = value base ds * base + (digit_value c).getD 0 := by
  simp [value, Numeral.value]

theorem value_le_append {base : Nat} (hbase : 0 < base) (ds tail : List Char) :
    value base ds ≤ value base (ds ++ tail) := by
  induction tail using List.reverseRecOn with
  | nil => simp
  | append_singleton tail c ih =>
    rw [← List.append_assoc, value_concat]
    have hle := Nat.le_mul_of_pos_right (value base (ds ++ tail)) hbase
    omega

theorem digit_lt {base : Nat} {c : Char} (hc : is_digit base c = true) : (digit_value c).getD 0 < base := by
  obtain ⟨d, hd, hlt⟩ := (Option.any_eq_true ..).mp hc
  simpa [hd] using hlt

/-- Digits have the same value in base 8 and in base 10 if there is only one behind zeros. -/
theorem octal_value (hds : ∀ c ∈ num, is_digit 8 c = true) :
    value 8 num ≤ value 10 num ∧ (value 8 num = value 10 num ↔ value 10 num ≤ 7) := by
  induction num using List.reverseRecOn with
  | nil => simp [value, Numeral.value]
  | append_singleton ds c ih =>
    obtain ⟨hle, _⟩ := ih fun d hd => hds d (List.mem_append_left [c] hd)
    have hlt := digit_lt (hds c (by simp))
    rw [value_concat, value_concat]
    omega

/-- A decimal constant is read as it is meant if it is at most 7. -/
theorem octal_prefix_value (hds : ∀ c ∈ num, is_digit 10 c = true) :
    value 8 (num.takeWhile (is_digit 8)) ≤ value 10 num ∧
      (value 8 (num.takeWhile (is_digit 8)) = value 10 num ↔ value 10 num ≤ 7) := by
  obtain ⟨hsplit, hoctal, htail⟩ := digits_split 8 num
  have hvalue := octal_value hoctal
  cases hrest : num.dropWhile (is_digit 8) with
  | nil =>
    rw [hrest, List.append_nil] at hsplit
    rw [← hsplit] at hvalue ⊢
    exact hvalue
  | cons c rest =>
    rw [hrest] at hsplit htail
    have hc : is_digit 10 c = true := hds c (by rw [hsplit]; simp)
    have hnot : is_digit 8 c = false := htail c (by simp)
    obtain ⟨d, hd, _⟩ := (Option.any_eq_true ..).mp hc
    have hd8 : 8 ≤ d := by simpa [is_digit, hd] using hnot
    have hle := value_le_append (show 0 < 10 by omega) (num.takeWhile (is_digit 8) ++ [c]) rest
    rw [value_concat, hd, Option.getD_some, List.append_assoc, List.singleton_append, ← hsplit] at hle
    omega

/-- A written condition with a number that is read from its constant is taken. -/
theorem Written.taken {core tail : List Char} (h : Written text reg op num) (hnum : num = core ++ tail)
    (hreads : Reads tail core n) (hn : n < 2 ^ 64) : Taken text reg op (UInt64.ofNat n) := by
  obtain ⟨name, gap, gap', htext, hname, hgap, hblanks, hblanks'⟩ := h
  obtain ⟨c, rest, hcons⟩ := List.exists_cons_of_ne_nil hgap
  refine ⟨[], name, gap, gap', [], core, tail, n, ?_, by simp, hname, ?_, ⟨c, by simp [hcons], hblanks c (by simp [hcons])⟩,
    ?_, by simp, hreads, hn, by simp [signed]⟩
  · simp [htext, hnum]
  · exact fun c hc => isspace_of_is_blank (hblanks c hc)
  · exact fun c hc => isspace_of_is_blank (hblanks' c hc)

/-- Behind a zero the digits are read in base 8. -/
theorem reads_octal (hzero : num.head? = some '0') (hds : ∀ c ∈ num, is_digit 10 c = true) :
    ∃ core tail, num = core ++ tail ∧ Reads tail core (value 8 (num.takeWhile (is_digit 8))) := by
  obtain ⟨ds, rfl⟩ : ∃ ds, num = '0' :: ds := by
    cases num with
    | nil => simp at hzero
    | cons c ds => exact ⟨ds, by simpa using hzero⟩
  have hdigit : is_digit 8 '0' = true := by simp [is_digit, digit_value]
  obtain ⟨hsplit, hoctal, htail⟩ := digits_split 8 ds
  refine ⟨'0' :: ds.takeWhile (is_digit 8), ds.dropWhile (is_digit 8), by simp, ?_⟩
  rw [List.takeWhile_cons_of_pos hdigit]
  apply Reads.octal hoctal htail
  intro hnil x hx hisx
  have hmem : x ∈ ds := by
    rw [hsplit, hnil, List.nil_append]
    exact List.mem_of_mem_head? hx
  simp [not_x_of_digit (hds x (by simp [hmem]))] at hisx

/-- A condition whose constant is not read in base 8 is taken with it. -/
theorem Constant.taken (h : Written text reg op num) (hconst : Constant num n) (hn : n < 2 ^ 64)
    (hplain : num.head? = some '0' → (∀ c ∈ num, is_digit 10 c = true) → value 10 num ≤ 7) :
    Taken text reg op (UInt64.ofNat n) := by
  obtain ⟨hne, hds, rfl⟩ | ⟨x, ds, rfl, hx, hne, hds, rfl⟩ := hconst
  · by_cases hzero : num.head? = some '0'
    · obtain ⟨core, tail, hnum, hreads⟩ := reads_octal hzero hds
      rw [(octal_prefix_value hds).2.mpr (hplain hzero hds)] at hreads
      exact h.taken hnum hreads hn
    · have hreads : Reads [] num (value 10 num) := .decimal hne hzero hds (by simp)
      exact h.taken (by simp) hreads hn
  · have hreads : Reads [] ('0' :: x :: ds) (value 16 ds) := .hex hx hne hds (by simp)
    exact h.taken (by simp) hreads hn

theorem eval_iff (v : UInt64) (ctx : thread_context_t) :
    eval_condition { valid := true, reg := some reg, op, value := v } ctx = true ↔
      op.Holds (ctx.get reg).toNat v.toNat := by
  cases op with
  | eq => simp [eval_condition, cond_op_t.Holds, UInt64.toNat_inj]
  | ne => simp [eval_condition, cond_op_t.Holds, UInt64.toNat_inj]
  | lt => simp [eval_condition, cond_op_t.Holds, UInt64.lt_iff_toNat_lt]
  | gt => simp [eval_condition, cond_op_t.Holds, UInt64.lt_iff_toNat_lt]
  | le => simp [eval_condition, cond_op_t.Holds, UInt64.le_iff_toNat_le]
  | ge => simp [eval_condition, cond_op_t.Holds, UInt64.le_iff_toNat_le]
  | band => simp [eval_condition, cond_op_t.Holds, ← UInt64.toNat_inj]

@[simp]
theorem get_set (ctx : thread_context_t) (v : UInt64) (reg : reg_ptr_t) : (ctx.set v reg).get reg = v := by
  cases reg <;> simp [thread_context_t.set, thread_context_t.get]

theorem exists_bit {m n : Nat} (hm : m < 2 ^ 64) (hn : n < 2 ^ 64) (hne : m ≠ n) :
    ∃ i < 64, m.testBit i ≠ n.testBit i := by
  by_contra hall
  apply hne
  apply Nat.eq_of_testBit_eq
  intro i
  by_contra hbit
  apply hall
  refine ⟨i, ?_, hbit⟩
  by_contra hi
  have hle : 2 ^ 64 ≤ 2 ^ i := Nat.pow_le_pow_right (by omega) (by omega)
  rw [Nat.testBit_lt_two_pow (by omega), Nat.testBit_lt_two_pow (by omega)] at hbit
  exact hbit (by simp)

/-- Two constants are told apart by some value of the register. -/
theorem op_separates {m n : Nat} (hm : m < 2 ^ 64) (hn : n < 2 ^ 64) (hne : m ≠ n) (op : cond_op_t) :
    ∃ v < 2 ^ 64, ¬ (op.Holds v m ↔ op.Holds v n) := by
  cases op with
  | eq => exact ⟨n, hn, by simp [cond_op_t.Holds, hne.symm]⟩
  | ne => exact ⟨n, hn, by simp [cond_op_t.Holds, hne.symm]⟩
  | lt => exact ⟨min m n, by omega, by simp only [cond_op_t.Holds]; omega⟩
  | gt => exact ⟨max m n, by omega, by simp only [cond_op_t.Holds]; omega⟩
  | le => exact ⟨max m n, by omega, by simp only [cond_op_t.Holds]; omega⟩
  | ge => exact ⟨min m n, by omega, by simp only [cond_op_t.Holds]; omega⟩
  | band =>
    obtain ⟨i, hi, hbit⟩ := exists_bit hm hn hne
    refine ⟨2 ^ i, Nat.pow_lt_pow_right (by omega) hi, ?_⟩
    have hmask : ∀ k : Nat, 2 ^ i &&& k ≠ 0 ↔ k.testBit i = true := by
      intro k
      rw [Nat.two_pow_and]
      cases k.testBit i <;> simp
    rw [cond_op_t.Holds, cond_op_t.Holds, hmask, hmask]
    intro hiff
    exact hbit (Bool.eq_iff_iff.mpr hiff)

end

/-- Exactly the plain texts are treated as the language has it. -/
theorem condition_language (text : String) : Meets text ↔ Plain text.toList := by
  constructor
  · intro ⟨hcond, hother⟩
    refine ⟨?_, ?_⟩
    · intro reg op num hwritten hzero hds hn
      by_contra hbig
      obtain ⟨core, tail, hnum, hreads⟩ := reads_octal hzero hds
      obtain ⟨hle, hiff⟩ := octal_prefix_value hds
      have hm : value 8 (num.takeWhile (is_digit 8)) < 2 ^ 64 := Nat.lt_of_le_of_lt hle hn
      have hparse := parse_taken (hwritten.taken hnum hreads hm)
      have hne : num ≠ [] := by
        rintro rfl
        simp at hzero
      obtain ⟨_, heval⟩ := hcond reg op (value 10 num) ⟨num, hwritten, Or.inl ⟨hne, hds, by simp⟩, hn⟩
      obtain ⟨v, hv, hsep⟩ := op_separates hm hn (fun heq => hbig (hiff.mp heq)) op
      have hctx := heval (({} : thread_context_t).set (UInt64.ofNat v) reg)
      rw [hparse, eval_iff, get_set, UInt64.toNat_ofNat_of_lt' hv, UInt64.toNat_ofNat_of_lt' hm] at hctx
      exact hsep hctx
    · intro ⟨reg, op, v, htaken⟩
      by_contra hnone
      have hvalid := hother hnone
      simp [parse_taken htaken] at hvalid
  · intro ⟨hoctal, htaken⟩
    refine ⟨?_, ?_⟩
    · intro reg op n ⟨num, hwritten, hconst, hn⟩
      have hplain : num.head? = some '0' → (∀ c ∈ num, is_digit 10 c = true) → value 10 num ≤ 7 := by
        intro hzero hds
        apply hoctal reg op num hwritten hzero hds
        obtain ⟨_, _, rfl⟩ | ⟨x, ds, rfl, hx, _⟩ := hconst
        · exact hn
        · simp [not_x_of_digit (hds x (by simp))] at hx
      have hparse := parse_taken (Constant.taken hwritten hconst hn hplain)
      rw [hparse]
      refine ⟨by simp, ?_⟩
      intro ctx
      rw [eval_iff, UInt64.toNat_ofNat_of_lt' hn]
    · intro hnone
      rw [← Bool.not_eq_true]
      intro hvalid
      exact hnone (htaken (taken_of_valid hvalid))

theorem Constant.getLast (num : List Char) {n : Nat} (hconst : Constant num n) : ∀ c ∈ num.getLast?, is_digit 16 c = true := by
  intro c hc
  obtain ⟨_, hds, _⟩ | ⟨x, ds, rfl, _, hne, hds, _⟩ := hconst
  · exact is_digit_mono (by omega) (hds c (List.mem_of_mem_getLast? hc))
  · obtain ⟨d, rest, rfl⟩ := List.exists_cons_of_ne_nil hne
    apply hds
    rw [List.getLast?_cons_cons, List.getLast?_cons_cons] at hc
    exact List.mem_of_mem_getLast? hc

/-- A number with something behind it is accepted. -/
theorem trailing_text_accepted : ¬ Meets "rax == 16h" := by
  intro ⟨_, hother⟩
  have hvalid : (parse_condition "rax == 16h").valid = true := by decide
  rw [hother] at hvalid
  · cases hvalid
  · intro ⟨reg, op, n, num, ⟨name, gap, gap', htext, _⟩, hconst, _⟩
    have hne : num ≠ [] := by
      obtain ⟨hne, _⟩ | ⟨x, ds, rfl, _⟩ := hconst
      · exact hne
      · simp
    have hlast := congrArg List.getLast? htext
    rw [List.getLast?_append_of_ne_nil _ (by simp [hne]), List.getLast?_append_of_ne_nil _ (by simp [hne]),
      List.getLast?_append_of_ne_nil _ (by simp [hne]), List.getLast?_append_of_ne_nil _ hne] at hlast
    have hdigit := Constant.getLast num hconst 'h' (by rw [← hlast]; decide)
    simp [is_digit, digit_value] at hdigit

end slop.core.debugger
