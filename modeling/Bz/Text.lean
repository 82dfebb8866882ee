import Mathlib.Data.List.DropRight

/-!
# Text as a list of characters

The operations of the standard library of Rust on strings that parsers use, on lists of characters:
prefixes, separators, quotes.
-/

namespace Bz.Text

open List

variable {start text : List Char}

/-- `str::strip_prefix`. -/
def stripPrefix : List Char → List Char → Option (List Char)
  | [], text => some text
  | _ :: _, [] => none
  | p :: start, c :: text => if p = c then stripPrefix start text else none

theorem stripPrefix_eq_some {rest : List Char} :
    stripPrefix start text = some rest ↔ text = start ++ rest := by
  fun_induction stripPrefix start text with
  | case1 text => exact Option.some_inj
  | case2 p start => simp
  | case3 start c text ih => simp [ih]
  | case4 p start c text hne => simp [Ne.symm hne]

@[simp]
theorem stripPrefix_append : stripPrefix start (start ++ text) = some text :=
  stripPrefix_eq_some.mpr rfl

/-- `str::split_once`. -/
def splitOnce (separator : List Char) : List Char → Option (List Char × List Char)
  | [] => (stripPrefix separator []).map fun rest => ([], rest)
  | c :: text => match stripPrefix separator (c :: text) with
    | some rest => some ([], rest)
    | none => (splitOnce separator text).map fun (before, rest) => (c :: before, rest)

/-- `str::trim_matches` for one character. -/
def trimMatches (c : Char) (text : List Char) : List Char :=
  (text.dropWhile (· = c)).rdropWhile (· = c)

end Bz.Text
