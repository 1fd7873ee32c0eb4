import RowSearch.Yaml.Token
/-!
# YAML documents

A document is one node: a scalar, a mapping or a sequence. In block style a mapping goes on for as
long as keys stand in one column; what stands further right belongs to the value before it, and what
stands further left ends the mapping. In flow style brackets say it all.
-/

namespace RowSearch.Yaml

/-- A node of a document. A value that is left out is the empty plain scalar. -/
inductive Node where
  | plain (text : List Char)
  | quoted (text : List Char)
  | mapping (entries : List (Node × Node))
  | sequence (items : List Node)

namespace Node

def absent : Node := plain []

def scalar? : Node → Option (List Char)
  | plain text => some text
  | quoted text => some text
  | _ => none

/-! ### Reading -/

def ofToken? : Token → Option Node
  | .plain text => some (plain text)
  | .quoted text => some (quoted text)
  | _ => none

/-- The scalar that starts with a token. A plain scalar goes on over the following lines, where it
stands in column `least` or further right, with a space for each line break. -/
def scalarFrom (least line : Nat) (node : Node) : List Placed → Node × List Placed
  | [] => (node, [])
  | next :: rest =>
    match node, next.token with
    | plain text, .plain more =>
      if line < next.place.line ∧ least ≤ next.place.column then
        scalarFrom least next.place.line (plain (text ++ ' ' :: more)) rest
      else (node, next :: rest)
    | _, _ => (node, next :: rest)

/-- Whether a scalar in a line is a key: a colon follows it in the same line. -/
def isKey (line : Nat) : List Placed → Bool
  | [] => false
  | next :: _ => next.token = .colon && next.place.line = line

def endsItem : List Placed → Bool
  | [] => true
  | next :: _ =>
    next.token = .comma || next.token = .closeMapping || next.token = .closeSequence

mutual

/-- A node in flow style. The number bounds the steps. -/
def readFlow : Nat → List Placed → Option (Node × List Placed)
  | 0, _ => none
  | _, [] => none
  | steps + 1, next :: rest =>
    match next.token with
    | .openMapping => do
      let (entries, rest) ← readFlowEntries steps rest
      some (mapping entries, rest)
    | .openSequence => do
      let (items, rest) ← readFlowItems steps rest
      some (sequence items, rest)
    | token => (ofToken? token).map fun node => scalarFrom 0 next.place.line node rest

/-- A key with its value in flow style; either may be left out. -/
def readFlowEntry : Nat → List Placed → Option ((Node × Node) × List Placed)
  | 0, _ => none
  | _, [] => none
  | steps + 1, next :: rest => do
    let (key, rest) ←
      if next.token = .colon then some (absent, next :: rest) else readFlow steps (next :: rest)
    match rest with
    | colon :: more =>
      if colon.token = .colon ∧ colon.place.line = next.place.line then
        if endsItem more then some ((key, absent), more)
        else
          let (value, rest) ← readFlow steps more
          some ((key, value), rest)
      else some ((key, absent), rest)
    | [] => none

def readFlowEntries : Nat → List Placed → Option (List (Node × Node) × List Placed)
  | 0, _ => none
  | _, [] => none
  | steps + 1, next :: rest =>
    if next.token = .closeMapping then some ([], rest)
    else do
      let (entry, rest) ← readFlowEntry steps (next :: rest)
      match rest with
      | behind :: rest =>
        if behind.token = .closeMapping then some ([entry], rest)
        else if behind.token = .comma then
          let (entries, rest) ← readFlowEntries steps rest
          some (entry :: entries, rest)
        else none
      | [] => none

/-- The items of a sequence in flow style, behind its opening bracket. An item with a colon is a
mapping of one entry. -/
def readFlowItems : Nat → List Placed → Option (List Node × List Placed)
  | 0, _ => none
  | _, [] => none
  | steps + 1, next :: rest =>
    if next.token = .closeSequence then some ([], rest)
    else do
      let (entry, behind) ← readFlowEntry steps (next :: rest)
      let item := if behind.length < rest.length ∧ isKey next.place.line rest then mapping [entry]
        else entry.1
      match behind with
      | last :: rest =>
        if last.token = .closeSequence then some ([item], rest)
        else if last.token = .comma then
          let (items, rest) ← readFlowItems steps rest
          some (item :: items, rest)
        else none
      | [] => none

end

mutual

/-- A node in column `least` or further right. `keys` says that it may be a mapping or a sequence in
block style. The number bounds the steps. -/
def readBlock (keys : Bool) (least : Nat) : Nat → List Placed → Option (Node × List Placed)
  | 0, _ => none
  | _, [] => some (absent, [])
  | steps + 1, next :: rest =>
    if next.place.column < least then some (absent, next :: rest)
    else
      match next.token with
      | .documentStart | .documentEnd => some (absent, next :: rest)
      | .dash =>
        if keys then do
          let (items, rest) ← readItems next.place.column steps (next :: rest)
          some (sequence items, rest)
        else none
      | .openMapping | .openSequence => readFlow (3 * (rest.length + 1)) (next :: rest)
      | token => do
        let node ← ofToken? token
        if keys && isKey next.place.line rest then
          let (entries, rest) ← readEntries next.place.column steps (next :: rest)
          some (mapping entries, rest)
        else some (scalarFrom least next.place.line node rest)
termination_by structural steps => steps

/-- The entries of a mapping in block style, the keys of which stand in one column. -/
def readEntries (column : Nat) : Nat → List Placed → Option (List (Node × Node) × List Placed)
  | 0, _ => none
  | _, [] => some ([], [])
  | steps + 1, next :: rest =>
    if next.place.column < column then some ([], next :: rest)
    else if next.token = .documentStart ∨ next.token = .documentEnd then some ([], next :: rest)
    else if column < next.place.column ∨ !isKey next.place.line rest then none
    else do
      let key ← ofToken? next.token
      let (value, rest) ← readValue column next.place.line steps rest.tail
      let (entries, rest) ← readEntries column steps rest
      some ((key, value) :: entries, rest)
termination_by structural steps => steps

/-- The value behind a key that stands in a column and a line. A sequence may stand in the column of
the key; all else in later lines stands further right. -/
def readValue (column line : Nat) : Nat → List Placed → Option (Node × List Placed)
  | 0, _ => none
  | _, [] => some (absent, [])
  | steps + 1, next :: rest =>
    if next.place.line = line then readBlock false (column + 1) steps (next :: rest)
    else if next.token = .dash ∧ next.place.column = column then do
      let (items, rest) ← readItems column steps (next :: rest)
      some (sequence items, rest)
    else readBlock true (column + 1) steps (next :: rest)
termination_by structural steps => steps

def readItems (column : Nat) : Nat → List Placed → Option (List Node × List Placed)
  | 0, _ => none
  | _, [] => some ([], [])
  | steps + 1, next :: rest =>
    if next.token = .dash ∧ next.place.column = column then do
      let (item, rest) ← readBlock true (column + 1) steps rest
      let (items, rest) ← readItems column steps rest
      some (item :: items, rest)
    else some ([], next :: rest)
termination_by structural steps => steps

end

/-- The node of a document that consists of some tokens, `none` if there are no tokens. Marks may
stand in front of the node and behind it, but not those of a second document. -/
def ofTokens? : List Placed → Option (Option Node)
  | [] => some none
  | first :: rest => do
    let marked := first.token = .documentStart
    let body := if marked then rest else first :: rest
    let keys := !(marked && (body.head?.map (·.place.line)) = some first.place.line)
    let (node, behind) ← readBlock keys 0 (4 * (rest.length + 2)) body
    if first.token ≠ .documentEnd ∧ behind.all (·.token = .documentEnd) then some (some node)
    else none

end Node

/-- The node of a document, `none` if it holds nothing but blanks and comments; nothing at all if it
is broken. -/
def document? (text : List Char) : Option (Option Node) :=
  (tokens? text).bind Node.ofTokens?

end RowSearch.Yaml
