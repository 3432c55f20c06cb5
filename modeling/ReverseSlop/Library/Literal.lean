import Mathlib.Data.List.DropRight
import ReverseSlop.Library.Numeral

namespace Numeral

/-- The bytes are the digits of a number in a base. -/
def Digits (base : Nat) (s : List UInt8) (ds : List Nat) : Prop := s.map digit = ds.map some ∧ ∀ d ∈ ds, d < base

/-- An integer literal: in base 16 behind its prefix, in base 8 behind a zero, in base 10 otherwise. -/
def Literal (s : List UInt8) (n : Nat) : Prop :=
  ∃ base body ds, (base = 16 ∧ (s = 48 :: 120 :: body ∨ s = 48 :: 88 :: body) ∨ base = 8 ∧ s = body ∧ s.head? = some 48 ∨
    base = 10 ∧ s = body ∧ s.head? ≠ some 48) ∧ ds ≠ [] ∧ Digits base body ds ∧ n = value base ds

def Sign (negative : Bool) (s : List UInt8) : Prop := negative = true ∧ s = [45] ∨ negative = false ∧ (s = [] ∨ s = [43])

/-- What is behind a sign. -/
def signed (negative : Bool) (n : Nat) : Int := if negative then -(n : Int) else n

section

variable {base n : Nat} {s sgn body rest : List UInt8} {ds : List Nat} {negative : Bool} {c : UInt8}

theorem not_space_of_digit (hc : (digit c).isSome = true) : is_space c = false ∧ c ≠ 45 ∧ c ≠ 43 := by
  simp only [digit, is_digit, UInt8.le_iff_toNat_le, UInt8.reduceToNat] at hc
  have hne : ∀ m : UInt8, c.toNat ≠ m.toNat → c ≠ m := fun m h heq => h (congrArg UInt8.toNat heq)
  have hrange : 48 ≤ c.toNat := by grind
  refine ⟨?_, hne 45 ?_, hne 43 ?_⟩
  · simp only [is_space, UInt8.le_iff_toNat_le, UInt8.reduceToNat, Bool.or_eq_false_iff, Bool.and_eq_false_iff, decide_eq_false_iff_not]
    refine ⟨hne 32 ?_, .inr ?_⟩
    · change c.toNat ≠ 32
      omega
    · omega
  · change c.toNat ≠ 45
    omega
  · change c.toNat ≠ 43
    omega

theorem Digits.length_eq (h : Digits base s ds) : s.length = ds.length := by
  simpa using congrArg List.length h.1

/-- A number is read up to its end. -/
theorem Digits.digits_eq (h : Digits base s ds) : digits base s = ds := by
  obtain ⟨hmap, hlt⟩ := h
  induction s generalizing ds with
  | nil =>
    rw [List.map_nil, eq_comm, List.map_eq_nil_iff] at hmap
    rw [hmap]
    rfl
  | cons c s ih =>
    cases ds with
    | nil => cases hmap
    | cons d ds =>
      obtain ⟨hc, hmap⟩ := List.cons.inj hmap
      obtain ⟨hd, hlt⟩ := List.forall_mem_cons.mp hlt
      rw [digits, hc]
      dsimp only
      rw [if_pos hd, ih hmap hlt]

/-- What is read at the front are digits. -/
theorem digits_prefix (base : Nat) (s : List UInt8) : Digits base (s.take (digits base s).length) (digits base s) := by
  induction s with
  | nil => exact ⟨rfl, fun _ hd => absurd hd List.not_mem_nil⟩
  | cons c s ih =>
    rw [digits]
    split
    · rename_i d hd
      split
      · rename_i hlt
        refine ⟨?_, List.forall_mem_cons.mpr ⟨hlt, ih.2⟩⟩
        rw [List.length_cons, List.take_succ_cons, List.map_cons, List.map_cons, hd, ih.1]
      · exact ⟨rfl, fun _ hd => absurd hd List.not_mem_nil⟩
    · exact ⟨rfl, fun _ hd => absurd hd List.not_mem_nil⟩

theorem Digits.digit_isSome (h : Digits base s ds) : ∀ c ∈ s, (digit c).isSome = true := by
  intro c hc
  have hmem : digit c ∈ ds.map some := h.1 ▸ List.mem_map_of_mem hc
  obtain ⟨d, -, hd⟩ := List.mem_map.mp hmem
  rw [← hd, Option.isSome_some]

/-- The prefix of base 16 ends in a letter, so that every character of a literal is a digit of some base. -/
theorem Literal.digit_isSome (h : Literal s n) : s ≠ [] ∧ ∀ c ∈ s, (digit c).isSome = true := by
  obtain ⟨base, body, ds, hshape, hne, hdigits, -⟩ := h
  have hbody : body ≠ [] := by
    rintro rfl
    exact hne (List.map_eq_nil_iff.mp hdigits.1.symm)
  have hall := hdigits.digit_isSome
  rcases hshape with ⟨-, rfl | rfl⟩ | ⟨-, rfl, -⟩ | ⟨-, rfl, -⟩
  · exact ⟨List.cons_ne_nil _ _, List.forall_mem_cons.mpr ⟨rfl, List.forall_mem_cons.mpr ⟨rfl, hall⟩⟩⟩
  · exact ⟨List.cons_ne_nil _ _, List.forall_mem_cons.mpr ⟨rfl, List.forall_mem_cons.mpr ⟨rfl, hall⟩⟩⟩
  · exact ⟨hbody, hall⟩
  · exact ⟨hbody, hall⟩

/-- A literal begins with a digit. -/
theorem Literal.head (h : Literal s n) : ∃ c rest, s = c :: rest ∧ (digit c).isSome = true := by
  obtain ⟨hne, hall⟩ := h.digit_isSome
  obtain ⟨c, rest, rfl⟩ := List.exists_cons_of_ne_nil hne
  exact ⟨c, rest, rfl, hall c List.mem_cons_self⟩

theorem Literal.auto_base (h : Literal s n) : ∃ base body ds, Numeral.auto_base s = (base, body) ∧ ds ≠ [] ∧
    Digits base body ds ∧ n = value base ds := by
  obtain ⟨base, body, ds, hshape, hne, hdigits, hn⟩ := h
  refine ⟨base, body, ds, ?_, hne, hdigits, hn⟩
  rcases hshape with ⟨rfl, hs⟩ | ⟨rfl, rfl, hhead⟩ | ⟨rfl, rfl, hhead⟩
  · have hread : digits 16 body ≠ [] := by rwa [hdigits.digits_eq]
    rcases hs with rfl | rfl
    · exact if_pos ⟨.inl rfl, hread⟩
    · exact if_pos ⟨.inr rfl, hread⟩
  · unfold Numeral.auto_base
    split
    · rename_i x rest
      -- an octal digit is no `x`
      have hx : ¬ (x = 120 ∨ x = 88) := by
        rintro hx
        obtain ⟨hmap, hlt⟩ := hdigits
        cases ds with
        | nil => exact hne rfl
        | cons d ds =>
          cases ds with
          | nil => cases hmap
          | cons d' ds =>
            have hd' : digit x = some d' := (List.cons.inj (List.cons.inj hmap).2).1
            have hlt' := hlt d' (List.mem_cons_of_mem _ List.mem_cons_self)
            have hletter : digit x = some 33 := by rcases hx with rfl | rfl <;> rfl
            rw [hletter] at hd'
            cases hd'
            exact absurd hlt' (by decide)
      rw [if_neg (fun h => hx h.1)]
    · rfl
    · rename_i hnot hnot'
      cases s with
      | nil => cases hhead
      | cons c rest =>
        cases hhead
        cases rest with
        | nil => exact absurd rfl hnot'
        | cons x rest => exact absurd rfl (hnot x rest)
  · unfold Numeral.auto_base
    split
    · exact absurd rfl hhead
    · exact absurd rfl hhead
    · rfl

theorem Sign.sign_eq (hsign : Sign negative sgn) (hc : (digit c).isSome = true) :
    sign (sgn ++ c :: rest) = (negative, c :: rest) := by
  obtain ⟨-, hminus, hplus⟩ := not_space_of_digit hc
  rcases hsign with ⟨rfl, rfl⟩ | ⟨rfl, rfl | rfl⟩
  · rfl
  · rw [List.nil_append]
    unfold sign
    split
    · exact absurd (List.cons.inj ‹_›).1 hminus
    · exact absurd (List.cons.inj ‹_›).1 hplus
    · rfl
  · rfl

/-- Neither a sign nor a digit is a space. -/
theorem Sign.head_not_space (hsign : Sign negative sgn) (hc : (digit c).isSome = true) (rest : List UInt8) :
    ∃ a l, sgn ++ c :: rest = a :: l ∧ is_space a = false := by
  rcases hsign with ⟨-, rfl⟩ | ⟨-, rfl | rfl⟩
  · exact ⟨45, _, rfl, rfl⟩
  · exact ⟨c, _, rfl, (not_space_of_digit hc).1⟩
  · exact ⟨43, _, rfl, rfl⟩

/-- A literal behind spaces and a sign is read to its end. -/
theorem strto_literal {pre lit : List UInt8} (hpre : ∀ c ∈ pre, is_space c = true) (hsign : Sign negative sgn)
    (hlit : Literal lit n) : strto (pre ++ (sgn ++ lit)) = (negative, n, []) := by
  obtain ⟨base, body, ds, hbase, hne, hdigits, rfl⟩ := hlit.auto_base
  obtain ⟨c, rest, rfl, hc⟩ := hlit.head
  have hspace : (pre ++ (sgn ++ c :: rest)).dropWhile is_space = sgn ++ c :: rest := by
    obtain ⟨a, l, hal, ha⟩ := hsign.head_not_space hc rest
    rw [List.dropWhile_append_of_pos hpre, hal, List.dropWhile_cons_of_neg (by rw [ha]; exact Bool.false_ne_true)]
  rw [strto, hspace, hsign.sign_eq hc, hbase]
  dsimp only
  rw [hdigits.digits_eq, if_neg hne, ← hdigits.length_eq, List.drop_length]

theorem sign_cases (s : List UInt8) : ∃ negative sgn, Sign negative sgn ∧ sign s = (negative, s.drop sgn.length) ∧
    s = sgn ++ s.drop sgn.length := by
  unfold sign
  split
  · exact ⟨true, [45], .inl ⟨rfl, rfl⟩, rfl, rfl⟩
  · exact ⟨false, [43], .inr ⟨rfl, .inr rfl⟩, rfl, rfl⟩
  · exact ⟨false, [], .inr ⟨rfl, .inl rfl⟩, rfl, rfl⟩

theorem auto_base_cases (s : List UInt8) : ∃ base body, auto_base s = (base, body) ∧
    (base = 16 ∧ (s = 48 :: 120 :: body ∨ s = 48 :: 88 :: body) ∨ base = 8 ∧ s = body ∧ s.head? = some 48 ∨
      base = 10 ∧ s = body ∧ s.head? ≠ some 48) := by
  unfold auto_base
  split
  · split
    · rename_i hx
      rcases hx.1 with rfl | rfl
      · exact ⟨_, _, rfl, .inl ⟨rfl, .inl rfl⟩⟩
      · exact ⟨_, _, rfl, .inl ⟨rfl, .inr rfl⟩⟩
    · exact ⟨_, _, rfl, .inr (.inl ⟨rfl, rfl, rfl⟩)⟩
  · exact ⟨_, _, rfl, .inr (.inl ⟨rfl, rfl, rfl⟩)⟩
  · rename_i hnot hnot'
    refine ⟨_, _, rfl, .inr (.inr ⟨rfl, rfl, fun hhead => ?_⟩)⟩
    cases s with
    | nil => cases hhead
    | cons c rest =>
      cases hhead
      cases rest with
      | nil => exact hnot' rfl
      | cons x rest => exact hnot x rest rfl

/-- What is read to its end is a literal behind spaces and a sign. -/
theorem literal_of_strto (hread : strto s = (negative, n, [])) (hs : s ≠ []) :
    ∃ pre sgn lit, s = pre ++ (sgn ++ lit) ∧ (∀ c ∈ pre, is_space c = true) ∧ Sign negative sgn ∧ Literal lit n := by
  obtain ⟨negative', sgn, hsign, hsigned, hsplit⟩ := sign_cases (s.dropWhile is_space)
  generalize hlit : (s.dropWhile is_space).drop sgn.length = lit at hsigned hsplit
  obtain ⟨base, body, hbase, hshape⟩ := auto_base_cases lit
  rw [strto, hsigned] at hread
  dsimp only at hread
  rw [hbase] at hread
  dsimp only at hread
  split at hread
  · exact absurd (congrArg (fun out => out.2.2) hread) hs
  · rename_i hne
    obtain ⟨rfl, rfl, hend⟩ : negative' = negative ∧ value base (digits base body) = n ∧
        body.drop (digits base body).length = [] := by simpa using hread
    have hall : body.take (digits base body).length = body := List.take_of_length_le (List.drop_eq_nil_iff.mp hend)
    have hdigits := digits_prefix base body
    rw [hall] at hdigits
    refine ⟨s.takeWhile is_space, sgn, lit, ?_, fun c hc => List.mem_takeWhile_imp hc, hsign, ?_⟩
    · rw [← hsplit, List.takeWhile_append_dropWhile]
    · exact ⟨base, body, _, hshape, hne, hdigits, rfl⟩

theorem literal_print (n : Nat) : Literal (print 10 n) n := by
  by_cases hn : n = 0
  · subst hn
    refine ⟨8, [48], [0], .inr (.inl ⟨rfl, rfl, rfl⟩), List.cons_ne_nil _ _, ⟨rfl, ?_⟩, rfl⟩
    exact List.forall_mem_singleton.mpr (by decide)
  · obtain ⟨ds, hne, hds, rfl, hprint⟩ := print_eq (n := n) (show 1 < 10 by omega)
    refine ⟨10, _, ds, .inr (.inr ⟨rfl, rfl, fun hhead => ?_⟩), hne, ⟨?_, hds⟩, rfl⟩
    · obtain ⟨base, body, hbase, hshape⟩ := auto_base_cases (print 10 (value 10 ds))
      rw [auto_base_print hn] at hbase
      cases hbase
      obtain ⟨h, -⟩ | ⟨h, -⟩ | ⟨-, -, hnot⟩ := hshape
      · cases h
      · cases h
      · exact hnot hhead
    · rw [hprint, List.map_map]
      refine List.map_congr_left fun d hd => digit_upper ?_
      have hlt := hds d hd
      omega

end

end Numeral
