/-!
# Zones

Where a scan of a query stands: how many parentheses are open, whether a quote is, and whether the
last character was a backslash that takes the next one out of account. Five marks move a scan from
one zone to another. All scanners of the library are runs of `Zone.step`, over the characters of a
text or over its bytes; every mark but the neutral one is a single ASCII byte, so the two agree.
-/

namespace RowSearch.Query

/-- What a character means to the structure of a query. -/
inductive Mark where
  | escape
  | quote
  | opening
  | closing
  | neutral
deriving DecidableEq, Repr

def Mark.ofChar (c : Char) : Mark :=
  if c = '\\' then .escape
  else if c = '"' then .quote
  else if c = '(' then .opening
  else if c = ')' then .closing
  else .neutral

def Mark.ofByte (b : UInt8) : Mark :=
  if b = 0x5C then .escape
  else if b = 0x22 then .quote
  else if b = 0x28 then .opening
  else if b = 0x29 then .closing
  else .neutral

/-- Where a scan stands. -/
structure Zone where
  depth : Nat
  quoted : Bool
  escaped : Bool
deriving DecidableEq, Repr

namespace Zone

def top : Zone := ⟨0, false, false⟩

def inQuote : Zone := ⟨0, true, false⟩

def inGroup : Zone := ⟨1, false, false⟩

/-- The zone behind a mark. An escaped mark has no effect, nor has a parenthesis within quotes; a
closing parenthesis without an opening one leaves the depth at zero. -/
def step (z : Zone) (m : Mark) : Zone :=
  if z.escaped then { z with escaped := false }
  else match m with
    | .escape => { z with escaped := true }
    | .quote => { z with quoted := !z.quoted }
    | .opening => if z.quoted then z else { z with depth := z.depth + 1 }
    | .closing => if z.quoted then z else { z with depth := z.depth - 1 }
    | .neutral => z

/-- The place of the first mark that brings a scan to the top. -/
def closing? (z : Zone) : List Mark → Option Nat
  | [] => none
  | m :: rest => if z.step m = top then some 0 else ((z.step m).closing? rest).map (· + 1)

end Zone

def marks (text : List Char) : List Mark :=
  text.map Mark.ofChar

/-- How many characters of a text stand before the quote that ends a quoted span, the opening quote
of which comes just before the text. -/
def quoteLength? (text : List Char) : Option Nat :=
  Zone.inQuote.closing? (marks text)

/-- How many characters of a text stand before the parenthesis that ends a group, the opening
parenthesis of which comes just before the text. -/
def groupLength? (text : List Char) : Option Nat :=
  Zone.inGroup.closing? (marks text)

/-! ### Byte offsets

The same two searches for callers that count in bytes of UTF-8. The byte at `start` is taken for the
opening one and is not looked at; `start` may lie anywhere, also behind the end of the text. It is a
machine word, and so is the offset behind it, which is zero behind the last word.
-/

def utf8 (text : List Char) : List UInt8 :=
  text.flatMap String.utf8EncodeChar

/-- The first offset from `offset` on whose byte brings a scan from a zone to the top. -/
def endFrom? (z : Zone) (text : List Char) (offset : Nat) : Option Nat :=
  (z.closing? (((utf8 text).drop offset).map Mark.ofByte)).map (offset + ·)

/-- A count of bytes as a machine word. -/
instance wordOfCount : Coe Nat UInt64 := ⟨UInt64.ofNat⟩

/-- The offset of the quote that closes the one at `start`. -/
def quoteEnd? (text : List Char) (start : UInt64) : Option Nat :=
  endFrom? .inQuote text (start + 1).toNat

/-- The offset of the parenthesis that closes the one at `start`. -/
def groupEnd? (text : List Char) (start : UInt64) : Option Nat :=
  endFrom? .inGroup text (start + 1).toNat

end RowSearch.Query
