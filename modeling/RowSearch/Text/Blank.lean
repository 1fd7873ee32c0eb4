/-!
# Blank characters

What counts as white space, and the two things done with it: cutting it from the ends of a text and
squeezing each run of it to one space. Two classes are in use. `isBlank` is the Unicode property
White_Space, by which texts are trimmed and squeezed; `isAsciiBlank` holds the five blanks of ASCII
text files, by which a bare word is told from a sequence of words.
-/

namespace RowSearch.Text

/-- The characters with the Unicode property White_Space. -/
def isBlank (c : Char) : Bool :=
  let n := c.toNat
  (0x09 ≤ n && n ≤ 0x0D) || n == 0x20 || n == 0x85 || n == 0xA0 || n == 0x1680
    || (0x2000 ≤ n && n ≤ 0x200A) || n == 0x2028 || n == 0x2029 || n == 0x202F || n == 0x205F
    || n == 0x3000

/-- Space, tab, line feed, form feed and carriage return; the vertical tab is not one of them. -/
def isAsciiBlank (c : Char) : Bool :=
  let n := c.toNat
  n == 0x20 || n == 0x09 || n == 0x0A || n == 0x0C || n == 0x0D

theorem isBlank_of_isAsciiBlank {c : Char} (h : isAsciiBlank c = true) : isBlank c = true := by
  simp only [isAsciiBlank, Bool.or_eq_true, beq_iff_eq] at h
  simp only [isBlank, Bool.or_eq_true, Bool.and_eq_true, decide_eq_true_eq, beq_iff_eq]
  omega

/-! ### Trimming -/

def trimStart (text : List Char) : List Char :=
  text.dropWhile isBlank

def trimEnd (text : List Char) : List Char :=
  (text.reverse.dropWhile isBlank).reverse

def trim (text : List Char) : List Char :=
  trimEnd (trimStart text)

/-! ### Squeezing -/

/-- Each run of blanks becomes one space; `after` says that the run has begun. -/
def squeezeFrom (after : Bool) : List Char → List Char
  | [] => []
  | c :: rest =>
    if isBlank c then
      if after then squeezeFrom true rest else ' ' :: squeezeFrom true rest
    else c :: squeezeFrom false rest

def squeeze (text : List Char) : List Char :=
  squeezeFrom false text

end RowSearch.Text
