import RowSearch.Query.Error
import RowSearch.Query.Zone
import RowSearch.Text.Blank
/-!
# Splitting at separators

A query is split into tokens at its spaces and the inside of a call into arguments at its commas. A
separator counts only at the top: within quotes, within parentheses and behind a backslash it is part
of a segment. Separators and blanks at the ends of the whole text are dropped first, so a text of
nothing else has no segments; every segment is trimmed.
-/

namespace RowSearch.Query

/-! ### The ends of the text -/

/-- A text without the separator it starts with, trimmed, or the text itself. -/
def dropLeading (separator text : List Char) : List Char :=
  if separator.isPrefixOf text then Text.trim (text.drop separator.length) else text

def dropTrailing (separator text : List Char) : List Char :=
  if separator.isSuffixOf text then Text.trim (text.take (text.length - separator.length)) else text

/-- Drops separators from both ends of a text for as long as that makes it shorter. -/
def trimSeparatorsFrom (separator text : List Char) : List Char :=
  let shorter := dropTrailing separator (dropLeading separator text)
  if shorter.length < text.length then trimSeparatorsFrom separator shorter else text
termination_by text.length

def trimSeparators (separator text : List Char) : List Char :=
  trimSeparatorsFrom separator (Text.trim text)

/-! ### The segments -/

def extendHead (c : Char) : List (List Char) → List (List Char)
  | [] => []
  | first :: rest => (c :: first) :: rest

/-- The segments from a place in a text, where the scan stands in a zone and the next `skip`
characters are the rest of a separator. -/
def segmentsFrom (separator : List Char) (z : Zone) :
    (skip : Nat) → List Char → Except QueryError (List (List Char))
  | _, [] =>
    if 0 < z.depth then .error .mismatchedParenthesis
    else if z.quoted then .error .mismatchedQuotes
    else .ok [[]]
  | skip + 1, _ :: rest => segmentsFrom separator z skip rest
  | 0, c :: rest =>
    if z = .top ∧ Mark.ofChar c = .closing then .error .mismatchedParenthesis
    else if z = .top ∧ Mark.ofChar c = .neutral ∧ separator.isPrefixOf (c :: rest) then
      (segmentsFrom separator z (separator.length - 1) rest).map ([] :: ·)
    else
      (segmentsFrom separator (z.step (Mark.ofChar c)) 0 rest).map (extendHead c)

/-- The segments between the top-level separators of a text. Without a separator the whole text is
one segment. -/
def splitAt (separator text : List Char) : Except QueryError (List (List Char)) :=
  let body := trimSeparators separator text
  if body = [] then .ok []
  else if separator = [] then .ok [body]
  else (segmentsFrom separator .top 0 body).map fun segments => segments.map Text.trim

end RowSearch.Query
