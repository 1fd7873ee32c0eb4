/-!
# Tokens of YAML

A settings file is a small YAML document: mappings and sequences in block or flow style, whose leaves
are plain or quoted scalars. It is read into tokens first, each with the line and the column where it
starts, for in block style the columns are the structure. A plain scalar that runs over several lines
is one token a line. Anchors, tags, directives, explicit keys and block scalars are outside of what
settings need and make a document unreadable.
-/

namespace RowSearch.Yaml

inductive Token where
  /-- The mark `---` in front of a document. -/
  | documentStart
  /-- The mark `...` behind a document. -/
  | documentEnd
  | openMapping
  | closeMapping
  | openSequence
  | closeSequence
  | comma
  | colon
  /-- The dash in front of an item of a block sequence. -/
  | dash
  | plain (text : List Char)
  | quoted (text : List Char)
deriving DecidableEq, Repr

/-- A place in a document. Lines and columns are counted from zero. -/
structure Place where
  line : Nat
  column : Nat
deriving DecidableEq, Repr

def Place.next (p : Place) : Place := { p with column := p.column + 1 }

def Place.newline (p : Place) : Place := ⟨p.line + 1, 0⟩

structure Placed where
  token : Token
  place : Place
deriving DecidableEq, Repr

/-! ### Characters -/

def isPrintable (c : Char) : Bool :=
  let n := c.toNat
  n == 0x09 || n == 0x0A || n == 0x0D || (0x20 ≤ n && n ≤ 0x7E) || n == 0x85
    || (0xA0 ≤ n && n ≤ 0xFFFD) || 0x10000 ≤ n

/-- The text with every line break written as a line feed. -/
def lineFeeds : List Char → List Char
  | [] => []
  | '\r' :: '\n' :: rest => '\n' :: lineFeeds rest
  | c :: rest =>
    (if c = '\r' || c = '\u0085' || c = '\u2028' || c = '\u2029' then '\n' else c) :: lineFeeds rest

def isGap (c : Char) : Bool :=
  c = ' ' || c = '\t'

/-- Whether a word ends here: in front of a gap, a line break or the end. -/
def atWordEnd : List Char → Bool
  | [] => true
  | c :: _ => isGap c || c = '\n'

def isFlowMark (c : Char) : Bool :=
  c = ',' || c = '[' || c = ']' || c.toNat == 0x7B || c.toNat == 0x7D

/-- Whether a character opens something other than a plain scalar, or nothing at all. -/
def isReserved (c : Char) : Bool :=
  c = '&' || c = '*' || c = '!' || c = '|' || c = '>' || c = '%' || c = '@' || c.toNat == 0x60

/-- Whether a mark of three equal characters stands here as a word. -/
def atMark (mark : Char) : List Char → Bool
  | a :: b :: c :: rest => a = mark && b = mark && c = mark && atWordEnd rest
  | _ => false

/-- Whether a plain scalar ends here for this line: in front of a comment, a colon that ends a key, a
mark of flow style (within `flow` levels of it) or the end of the line. -/
def plainEnds (flow : Nat) (text : List Char) : Bool :=
  match text.dropWhile isGap with
  | [] => true
  | c :: rest =>
    c = '\n' || (c = '#' && atWordEnd text) || (c = ':' && atWordEnd rest)
      || (0 < flow && isFlowMark c)

/-- Whether a plain scalar is followed by a colon that clings to a mark of flow style, which belongs
to neither. -/
def clingingColon (flow : Nat) (text : List Char) : Bool :=
  match text.dropWhile isGap with
  | ':' :: c :: _ => 0 < flow && (isFlowMark c || c = '?')
  | _ => false

def escape? (c : Char) : Option Char :=
  [('0', '\x00'), ('a', '\x07'), ('b', '\x08'), ('t', '\t'), ('\t', '\t'), ('n', '\n'),
    ('v', '\x0b'), ('f', '\x0c'), ('r', '\r'), ('e', '\x1b'), (' ', ' '), ('"', '"'), ('/', '/'),
    ('\\', '\\'), ('N', '\u0085'), ('_', '\u00a0'), ('L', '\u2028'), ('P', '\u2029')].lookup c

def hexDigit? (c : Char) : Option Nat :=
  if c.isDigit then some (c.toNat - 48)
  else if 'a' ≤ c ∧ c ≤ 'f' then some (c.toNat - 87)
  else if 'A' ≤ c ∧ c ≤ 'F' then some (c.toNat - 55)
  else none

def hexChar? (hex : List Char) : Option Char := do
  let digits ← hex.mapM hexDigit?
  let n := digits.foldl (16 * · + ·) 0
  if n.isValidChar then some (Char.ofNat n) else none

/-! ### Scanning -/

def put (token : Token) (place : Place) (others : Option (List Placed)) : Option (List Placed) :=
  others.map (⟨token, place⟩ :: ·)

mutual

/-- The tokens from a place between two of them, within `flow` levels of flow style; `lead` says that
a block mapping or sequence may start there. -/
def scan (flow : Nat) (lead : Bool) (p : Place) : List Char → Option (List Placed)
  | [] => some []
  | c :: rest =>
    if c = '\n' then scan flow true p.newline rest
    else if c = ' ' then scan flow lead p.next rest
    else if c = '\t' then if 0 < flow || !lead then scan flow lead p.next rest else none
    else if c = '#' then scanComment flow p.next rest
    else if p.column = 0 && (atMark '-' (c :: rest) || atMark '.' (c :: rest)) then
      match rest with
      | _ :: _ :: more =>
        put (if c = '-' then .documentStart else .documentEnd) p
          (scan flow false p.next.next.next more)
      | _ => none
    else if c = '[' then put .openSequence p (scan (flow + 1) false p.next rest)
    else if c = ']' then put .closeSequence p (scan (flow - 1) false p.next rest)
    else if c.toNat == 0x7B then put .openMapping p (scan (flow + 1) false p.next rest)
    else if c.toNat == 0x7D then put .closeMapping p (scan (flow - 1) false p.next rest)
    else if c = ',' then put .comma p (scan flow false p.next rest)
    else if c = '-' && atWordEnd rest then
      if flow = 0 && lead then put .dash p (scan flow true p.next rest) else none
    else if c = '?' && (0 < flow || atWordEnd rest) then none
    else if c = ':' && (0 < flow || atWordEnd rest) then
      put .colon p (scan flow false p.next rest)
    else if c = '"' then scanDouble flow p [] p.next rest
    else if c = '\'' then scanSingle flow p [] p.next rest
    else if isReserved c || clingingColon flow rest then none
    else if plainEnds flow rest then put (.plain [c]) p (scan flow false p.next rest)
    else scanPlain flow p [c] p.next rest

def scanComment (flow : Nat) (p : Place) : List Char → Option (List Placed)
  | [] => some []
  | c :: rest =>
    if c = '\n' then scan flow true p.newline rest else scanComment flow p.next rest

/-- The tokens from a place in a plain scalar; `held` is what it holds so far, the last character in
front. -/
def scanPlain (flow : Nat) (start : Place) (held : List Char) (p : Place) :
    List Char → Option (List Placed)
  | [] => none
  | c :: rest =>
    if clingingColon flow rest then none
    else if plainEnds flow rest then
      put (.plain (c :: held).reverse) start (scan flow false p.next rest)
    else scanPlain flow start (c :: held) p.next rest

def scanDouble (flow : Nat) (start : Place) (held : List Char) (p : Place) :
    List Char → Option (List Placed)
  | [] => none
  | '"' :: rest => put (.quoted held.reverse) start (scan flow false p.next rest)
  | '\\' :: 'x' :: a :: b :: rest =>
    match hexChar? [a, b] with
    | some c => scanDouble flow start (c :: held) p.next.next.next.next rest
    | none => none
  | '\\' :: 'u' :: a :: b :: c :: d :: rest =>
    match hexChar? [a, b, c, d] with
    | some c => scanDouble flow start (c :: held) ⟨p.line, p.column + 6⟩ rest
    | none => none
  | '\\' :: 'U' :: a :: b :: c :: d :: e :: f :: g :: h :: rest =>
    match hexChar? [a, b, c, d, e, f, g, h] with
    | some c => scanDouble flow start (c :: held) ⟨p.line, p.column + 10⟩ rest
    | none => none
  | '\\' :: '\n' :: rest => scanDouble flow start held p.newline rest
  | '\\' :: c :: rest =>
    match escape? c with
    | some c => scanDouble flow start (c :: held) p.next.next rest
    | none => none
  | '\n' :: rest => scanDouble flow start (' ' :: held) p.newline rest
  | c :: rest => scanDouble flow start (c :: held) p.next rest

/-- The tokens from a place in a scalar in single quotes, in which a quote is written twice. -/
def scanSingle (flow : Nat) (start : Place) (held : List Char) (p : Place) :
    List Char → Option (List Placed)
  | [] => none
  | '\'' :: '\'' :: rest => scanSingle flow start ('\'' :: held) p.next.next rest
  | '\'' :: rest => put (.quoted held.reverse) start (scan flow false p.next rest)
  | '\n' :: rest => scanSingle flow start (' ' :: held) p.newline rest
  | c :: rest => scanSingle flow start (c :: held) p.next rest

end

def dropOrderMark : List Char → List Char
  | '\uFEFF' :: rest => rest
  | text => text

def tokens? (text : List Char) : Option (List Placed) :=
  let body := dropOrderMark text
  if body.all isPrintable then scan 0 true ⟨0, 0⟩ (lineFeeds body) else none

end RowSearch.Yaml
