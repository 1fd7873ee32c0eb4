import RowSearch.Text.CaseTable
/-!
# Lower-casing

Full Unicode lower-casing of a text, without regard to language. One character may become two, as
the dotted capital I does, and one looks at its neighbours: a capital sigma at the end of a word
becomes the final form. A word ends there when, passing over the characters that case ignores, a
cased letter stands before the sigma and none after it.
-/

namespace RowSearch.Text

/-- Whether a character is passed over when the letters around a sigma are looked for. -/
def isCaseIgnorable (c : Char) : Bool :=
  inRanges caseIgnorableRanges c.toNat

def isCased (c : Char) : Bool :=
  inRanges casedRanges c.toNat

/-- Whether the next character that case does not ignore is a letter with case. -/
def startsCased (text : List Char) : Bool :=
  match text.dropWhile isCaseIgnorable with
  | [] => false
  | c :: _ => isCased c

/-- What a character becomes, between what is known of the text before it (`wordBefore`: the last
character that case does not ignore has case) and the text after it. -/
def lowerChar (wordBefore : Bool) (c : Char) (after : List Char) : List Char :=
  if c = 'Σ' then
    if wordBefore && !startsCased after then ['ς'] else ['σ']
  else if c = 'İ' then ['i', '\u0307']
  else [Char.ofNat (lowerIn caseRuns c.toNat)]

/-- Lower-casing from a place in a text, of which `wordBefore` tells what stands before it. -/
def lowerFrom (wordBefore : Bool) : List Char → List Char
  | [] => []
  | c :: rest =>
    lowerChar wordBefore c rest
      ++ lowerFrom (if isCaseIgnorable c then wordBefore else isCased c) rest

def lowercase (text : List Char) : List Char :=
  lowerFrom false text

end RowSearch.Text
