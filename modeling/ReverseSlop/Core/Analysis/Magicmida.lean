import ReverseSlop.Library.Encoding

namespace slop.core.analysis.magicmida

open CommandLine

/-- The loop of `quote_arg`, with the backslashes that it has counted and not yet written. -/
def quote_loop (slashes : Nat) : List Char → List Char
  | [] => List.replicate (slashes * 2) '\\' ++ ['"']
  | ch :: rest =>
    if ch = '\\' then quote_loop (slashes + 1) rest
    else if ch = '"' then List.replicate (slashes * 2 + 1) '\\' ++ '"' :: quote_loop 0 rest
    else List.replicate slashes '\\' ++ ch :: quote_loop 0 rest

def quote_arg (arg : List Char) : List Char := '"' :: quote_loop 0 arg

/-- The command line of a program: the arguments with single blanks between them. -/
def command_line (args : List (List Char)) : List Char := List.intercalate [' '] (args.map quote_arg)

/-- What is left of an argument is read, with the backslashes before it, up to the quote that ends it. -/
theorem split_quote_loop (before rest : List Char) (slashes : Nat) (arg : List Char) :
    split (some { quoted := true, chars := before }) (quote_loop slashes arg ++ rest) =
      split (some { chars := before ++ List.replicate slashes '\\' ++ arg }) rest := by
  induction arg generalizing before slashes with
  | nil =>
    rw [quote_loop, List.append_assoc, split_slashes rfl, List.singleton_append, split_quoted rfl,
      feed_quote_even (n := slashes) (by simp)]
    simp
  | cons ch arg ih =>
    rw [quote_loop]
    split
    · rename_i hslash
      -- one more backslash is pending
      rw [ih, hslash, List.replicate_succ', List.append_assoc, List.append_assoc, List.append_assoc]
      simp
    · split
      · rename_i hquote
        rw [List.append_assoc, split_slashes rfl, List.cons_append, split_quoted rfl,
          feed_quote_odd (n := slashes) (by simp), ih, hquote]
        simp
      · rename_i hslash hquote
        rw [List.append_assoc, split_slashes rfl, List.cons_append, split_quoted rfl, feed_char hslash hquote, ih]
        simp [reading_t.finish]

theorem split_quote_arg (arg rest : List Char) :
    split none (quote_arg arg ++ rest) = split (some { chars := arg }) rest := by
  have hopen : ({} : reading_t).feed '"' = { quoted := true } := by simp [reading_t.feed]
  rw [quote_arg, List.cons_append, split, if_neg (by decide), hopen, split_quote_loop]
  simp

/-- What is quoted is split into the same arguments again. -/
theorem split_command_line (args : List (List Char)) : split none (command_line args) = args := by
  induction args with
  | nil => simp [command_line, split]
  | cons arg args ih =>
    cases args with
    | nil =>
      have hread := split_quote_arg arg []
      rw [List.append_nil] at hread
      simp [command_line, hread, split, reading_t.finish]
    | cons next args =>
      have hjoin : command_line (arg :: next :: args) = quote_arg arg ++ ' ' :: command_line (next :: args) := by
        simp [command_line, List.intercalate]
      rw [hjoin, split_quote_arg, split, if_pos (by simp [is_blank]), ih]
      simp [reading_t.finish]

example : quote_arg "a\\\"b\\".toList = "\"a\\\\\\\"b\\\\\"".toList := by decide

end slop.core.analysis.magicmida
