import RowSearch.Proofs.Pieces
import RowSearch.Proofs.Visible
/-!
# The offsets of quoted spans and of comparison symbols

The scans for quoted spans and for comparison symbols, done on bytes: behind a backslash they step over one
byte, and behind a quote or a parenthesis they go on at the offset that the search for its partner gives.
They find what the scans over characters find, as both pass over the same pieces of the text. Every offset
that they give is one of a character, wherever the scan started.
-/

namespace RowSearch.Query

open Zone (top)

/-! ### Scans over bytes -/

/-- The offsets of the two quotes of each quoted span, from an offset on. -/
def quoteOffsetsFrom (text : List Char) (i : Nat) : Except QueryError (List (Nat × Nat)) :=
  if hi : i < (utf8 text).length then
    match Mark.ofByte (utf8 text)[i] with
    -- the next offset may lie within a character
    | .escape => quoteOffsetsFrom text (i + 2)
    | .quote =>
      match hend : endFrom? .inQuote text (i + 1) with
      | none => .error .mismatchedQuotes
      | some e =>
        have := (inside_of_inQuote hend).1
        (quoteOffsetsFrom text (e + 1)).map ((i, e) :: ·)
    | .opening | .closing | .neutral => quoteOffsetsFrom text (i + 1)
  else .ok []
termination_by (utf8 text).length - i

def quoteOffsets (text : List Char) : Except QueryError (List (Nat × Nat)) :=
  quoteOffsetsFrom text 0

namespace CompareOp

/-- The comparison whose symbol starts with a byte, by that byte and the next one. -/
def atByte? (extended : Bool) (b : UInt8) (next : Option UInt8) : Option CompareOp :=
  if extended && next = some 0x3D && (b = 0x21 || b = 0x3C || b = 0x3E) then
    some (if b = 0x21 then ne else if b = 0x3C then le else ge)
  else if b = 0x3D then some eq
  else if b = 0x3C then some lt
  else if b = 0x3E then some gt
  else none

theorem width_pos (op : CompareOp) : 0 < op.width := by
  cases op <;> decide

end CompareOp

/-- The comparison symbols at the top level of a token from an offset on, each with its offset. -/
def comparisonOffsetsFrom (extended : Bool) (text : List Char) (i : Nat) : List (Nat × CompareOp) :=
  if hi : i < (utf8 text).length then
    match Mark.ofByte (utf8 text)[i] with
    | .escape => comparisonOffsetsFrom extended text (i + 2)
    | .quote =>
      match hend : endFrom? .inQuote text (i + 1) with
      | none => []
      | some e =>
        have := (inside_of_inQuote hend).1
        comparisonOffsetsFrom extended text (e + 1)
    | .opening =>
      match hend : endFrom? .inGroup text (i + 1) with
      | none => []
      | some e =>
        have := (inside_of_inGroup hend).1
        comparisonOffsetsFrom extended text (e + 1)
    | .closing | .neutral =>
      match CompareOp.atByte? extended (utf8 text)[i] (utf8 text)[i + 1]? with
      | none => comparisonOffsetsFrom extended text (i + 1)
      | some op =>
        have := op.width_pos
        (i, op) :: comparisonOffsetsFrom extended text (i + op.width)
  else []
termination_by (utf8 text).length - i

def comparisonOffsets (extended : Bool) (token : List Char) : List (Nat × CompareOp) :=
  comparisonOffsetsFrom extended token 0

/-! ### Quoted spans -/

section Quotes

variable {text before body after rest : List Char} {i : Nat} {b : UInt8}

theorem quoteOffsetsFrom_of_byte (h : (utf8 text)[i]? = some b) :
    quoteOffsetsFrom text i =
      match Mark.ofByte b with
      | .escape => quoteOffsetsFrom text (i + 2)
      | .quote => (endFrom? .inQuote text (i + 1)).elim (.error .mismatchedQuotes) fun e =>
        (quoteOffsetsFrom text (e + 1)).map ((i, e) :: ·)
      | .opening | .closing | .neutral => quoteOffsetsFrom text (i + 1) := by
  obtain ⟨hi, rfl⟩ := List.getElem?_eq_some_iff.mp h
  rw [quoteOffsetsFrom, dif_pos hi]
  cases Mark.ofByte (utf8 text)[i] with
  | quote =>
    dsimp only
    split
    · next hend => rw [hend]; rfl
    · next e hend => rw [hend]; rfl
  | escape | opening | closing | neutral => rfl

theorem quoteOffsetsFrom_end (h : byteLength text ≤ i) : quoteOffsetsFrom text i = .ok [] := by
  rw [quoteOffsetsFrom]
  exact dif_neg (Nat.not_lt.mpr h)

theorem quoteOffsetsFrom_within (h : (utf8 text)[i]? = some b) (hb : ¬b.IsUTF8FirstByte) :
    quoteOffsetsFrom text i = quoteOffsetsFrom text (i + 1) := by
  rw [quoteOffsetsFrom_of_byte h, ofByte_of_not_isFirst hb]

theorem quoteOffsetsFrom_plain {c : Char} (htext : text = before ++ c :: rest) (hescape : c ≠ '\\')
    (hquote : c ≠ '"') :
    quoteOffsetsFrom text (byteLength before) = quoteOffsetsFrom text (byteLength (before ++ [c])) := by
  rw [quoteOffsetsFrom_of_byte (getElem?_of_eq htext), ofByte_lead,
    ← through_char (fun _ _ => quoteOffsetsFrom_within) htext]
  cases hc : Mark.ofChar c with
  | escape => exact absurd (Mark.ofChar_eq_escape.mp hc) hescape
  | quote => exact absurd (Mark.ofChar_eq_quote.mp hc) hquote
  | opening | closing | neutral => rfl

theorem quoteOffsetsFrom_escape {c : Char} (htext : text = before ++ '\\' :: c :: rest) :
    quoteOffsetsFrom text (byteLength before) = quoteOffsetsFrom text (byteLength (before ++ ['\\', c])) :=
  through_escape (fun _ _ => quoteOffsetsFrom_within) (quoteOffsetsFrom_of_byte (getElem?_of_eq htext)) htext

theorem quoteOffsetsFrom_dangling (htext : text = before ++ ['\\']) :
    quoteOffsetsFrom text (byteLength before) = .ok [] := by
  rw [quoteOffsetsFrom_of_byte (getElem?_of_eq htext), ofByte_lead]
  exact quoteOffsetsFrom_end (byteLength_le_of_dangling htext)

theorem quoteOffsetsFrom_of_unclosed (htext : text = before ++ '"' :: rest) (h : quoteLength? rest = none) :
    quoteOffsetsFrom text (byteLength before) = .error .mismatchedQuotes := by
  rw [quoteOffsetsFrom_of_byte (getElem?_of_eq htext), ofByte_lead]
  show (endFrom? .inQuote text (byteLength before + 1)).elim _ _ = _
  rw [endFrom?_of_unclosed_quote htext h]
  rfl

theorem quoteOffsetsFrom_of_body (htext : text = before ++ '"' :: (body ++ '"' :: after))
    (hbody : QuoteBody body) :
    quoteOffsetsFrom text (byteLength before) =
      (quoteOffsetsFrom text (byteLength (before ++ '"' :: (body ++ ['"'])))).map
        ((byteLength before, byteLength (before ++ '"' :: body)) :: ·) := by
  have hend : byteLength (before ++ '"' :: (body ++ ['"'])) = byteLength (before ++ '"' :: body) + 1 := by
    simp only [byteLength_append, byteLength_cons, byteLength_nil, Nat.add_assoc]
    rfl
  rw [quoteOffsetsFrom_of_byte (getElem?_of_eq htext), ofByte_lead, hend]
  show (endFrom? .inQuote text (byteLength before + 1)).elim _ _ = _
  rw [endFrom?_of_quoteBody htext hbody]
  rfl

def quotedOffsets (offset : Nat) : List Segment → List (Nat × Nat)
  | [] => []
  | .bare text :: rest => quotedOffsets (offset + byteLength text) rest
  | .quoted body :: rest =>
    (offset, offset + 1 + byteLength body) :: quotedOffsets (offset + byteLength body + 2) rest

theorem cutFrom_of_body (hbody : QuoteBody body) (after : List Char) :
    Segment.cutFrom true (body ++ '"' :: after) =
      (Segment.cutFrom false after).map (Segment.quoted body :: ·) := by
  induction hbody with
  | nil => rw [List.nil_append, Segment.cutFrom_quote]; rfl
  | escape c _ ih =>
    rw [List.cons_append, List.cons_append, Segment.cutFrom_escape, ih]
    cases Segment.cutFrom false after <;> rfl
  | plain hescape hquote _ ih =>
    rw [List.cons_append, Segment.cutFrom_plain true _ hescape hquote, ih]
    cases Segment.cutFrom false after <;> rfl

/-- A text and the segments it is cut into, with the quoted spans found by the quotes that end them. -/
inductive Spans : List Char → List Segment → Prop
  | last (text : List Char) : Spans text [.bare text]
  | next (first : List Char) {body after : List Char} {tail : List Segment} :
    QuoteBody body → Spans after tail →
      Spans (first ++ '"' :: (body ++ '"' :: after)) (.bare first :: .quoted body :: tail)

theorem Spans.extend {first : List Char} {tail : List Segment} (h : Spans text (.bare first :: tail))
    (front : List Char) : Spans (front ++ text) (.bare (front ++ first) :: tail) := by
  cases h with
  | last => exact .last _
  | next first hbody hafter =>
    rw [← List.append_assoc]
    exact .next (front ++ first) hbody hafter

theorem spans_of_cuts {inside : Bool} {first : List Char} {tail : List Segment}
    (h : Segment.Cuts inside text first tail) :
    match inside with
    | true => QuoteBody first ∧ ∃ after, text = first ++ '"' :: after ∧ Spans after tail
    | false => Spans text (.bare first :: tail) := by
  induction h with
  | nil => exact .last []
  | dangling => exact .last ['\\']
  | @escape inside c rest first tail _ ih =>
    cases inside with
    | true =>
      obtain ⟨hbody, after, rfl, hafter⟩ := ih
      exact ⟨.escape c hbody, after, rfl, hafter⟩
    | false => exact ih.extend ['\\', c]
  | @quote inside rest first tail _ ih =>
    cases inside with
    | true => exact ⟨.nil, rest, rfl, ih⟩
    | false =>
      obtain ⟨hbody, after, rfl, hafter⟩ := ih
      exact .next [] hbody hafter
  | @plain inside c rest first tail hescape hquote _ ih =>
    cases inside with
    | true =>
      obtain ⟨hbody, after, rfl, hafter⟩ := ih
      exact ⟨.plain hescape hquote hbody, after, rfl, hafter⟩
    | false => exact ih.extend [c]

theorem cutFrom_of_unclosed (h : quoteLength? rest = none) :
    Segment.cutFrom true rest = .error .mismatchedQuotes := by
  cases hcut : Segment.cutFrom true rest with
  | error e => rw [Segment.eq_mismatchedQuotes_of_cutFrom hcut]
  | ok segments =>
    obtain ⟨first, tail, -, hcuts⟩ := Segment.exists_cuts hcut
    obtain ⟨hbody, after, rfl, -⟩ := spans_of_cuts hcuts
    rw [quoteLength?_append hbody] at h
    cases h

/-- What stands in front of the first quote moves the offsets behind it. -/
theorem map_quotedOffsets (front rest : List Char) (offset : Nat) :
    ((Segment.cutFrom false rest).map (Segment.extendFirst front)).map (quotedOffsets offset) =
      (Segment.cutFrom false rest).map (quotedOffsets (offset + byteLength front)) := by
  cases hcut : Segment.cutFrom false rest with
  | error e => rfl
  | ok segments =>
    obtain ⟨first, tail, rfl, -⟩ := Segment.exists_cuts hcut
    simp [Except.map, Segment.ofText, Segment.extendFirst, Segment.extend, quotedOffsets, Nat.add_assoc]

/-- A quoted span at the start of a text is the first one. -/
theorem map_quotedOffsets_span (offset : Nat) (body after : List Char) :
    (((Segment.cutFrom false after).map (Segment.quoted body :: ·)).map (Segment.bare [] :: ·)).map
        (quotedOffsets offset) =
      ((Segment.cutFrom false after).map (quotedOffsets (offset + byteLength ('"' :: (body ++ ['"']))))).map
        ((offset, offset + byteLength ('"' :: body)) :: ·) := by
  have hquote : '"'.utf8Size = 1 := rfl
  cases Segment.cutFrom false after with
  | error e => rfl
  | ok segments =>
    simp only [Except.map, quotedOffsets, byteLength_cons, byteLength_append, byteLength_nil, hquote]
    simp only [Nat.add_zero, Nat.add_comm 1, Nat.add_assoc]

/-- The scan for quotes finds the quoted segments of the text from a character on. -/
theorem quoteOffsetsFrom_eq (before : List Char) (htext : text = before ++ rest) :
    quoteOffsetsFrom text (byteLength before) =
      (Segment.cutFrom false rest).map (quotedOffsets (byteLength before)) := by
  -- a quoted span is passed over in one step, so the induction is on the length
  induction hlength : rest.length using Nat.strong_induction_on generalizing before rest with
  | _ n ih =>
    subst hlength
    have hfurther (front : List Char) {rest' : List Char} (hrest : rest = front ++ rest') (hne : front ≠ []) :
        quoteOffsetsFrom text (byteLength (before ++ front)) =
          (Segment.cutFrom false rest').map (quotedOffsets (byteLength before + byteLength front)) := by
      rw [← byteLength_append]
      have hpos := List.length_pos_of_ne_nil hne
      exact ih _ (by rw [hrest, List.length_append]; omega) _ (by rw [htext, hrest, List.append_assoc]) rfl
    cases rest with
    | nil =>
      rw [quoteOffsetsFrom_end (by rw [htext, List.append_nil])]
      rfl
    | cons c rest =>
      by_cases hescape : c = '\\'
      · subst hescape
        cases rest with
        | nil => rw [quoteOffsetsFrom_dangling htext]; rfl
        | cons d rest =>
          rw [quoteOffsetsFrom_escape htext, Segment.cutFrom_escape, map_quotedOffsets]
          exact hfurther ['\\', d] rfl (List.cons_ne_nil _ _)
      · by_cases hquote : c = '"'
        · subst hquote
          rw [Segment.cutFrom_quote]
          cases hlength : quoteLength? rest with
          | none =>
            rw [quoteOffsetsFrom_of_unclosed htext hlength, Bool.not_false, cutFrom_of_unclosed hlength]
            rfl
          | some n =>
            obtain ⟨body, after, rfl, -, hbody⟩ := quoteLength?_eq_some.mp hlength
            have hspan : '"' :: (body ++ '"' :: after) = ('"' :: (body ++ ['"'])) ++ after := by simp
            rw [quoteOffsetsFrom_of_body htext hbody, hfurther _ hspan (List.cons_ne_nil _ _), Bool.not_false,
              cutFrom_of_body hbody, byteLength_append before ('"' :: body)]
            exact (map_quotedOffsets_span (byteLength before) body after).symm
        · rw [quoteOffsetsFrom_plain htext hescape hquote, Segment.cutFrom_plain false rest hescape hquote,
            map_quotedOffsets]
          exact hfurther [c] rfl (List.cons_ne_nil _ _)

/-- A mark of one byte starts a character. -/
theorem isFirst_of_ofByte {m : Mark} (hm : m ≠ .neutral) (h : Mark.ofByte b = m) : b.IsUTF8FirstByte := by
  by_contra hb
  rw [ofByte_of_not_isFirst hb] at h
  exact hm h.symm

/-- Spans from an offset on, one after the other: the quotes of each are characters of the text. -/
structure Placed (text : List Char) (i : Nat) (spans : List (Nat × Nat)) : Prop where
  behind : ∀ span ∈ spans, i ≤ span.1
  opens : ∀ span ∈ spans, span.1 < span.2
  inside : ∀ span ∈ spans, Inside text span.1 ∧ Inside text span.2
  apart : spans.Pairwise fun span next => span.2 < next.1

namespace Placed

variable {j e : Nat} {spans : List (Nat × Nat)}

theorem nil (text : List Char) (i : Nat) : Placed text i [] := by
  constructor <;> simp

theorem earlier (h : Placed text j spans) (hle : i ≤ j) : Placed text i spans where
  behind span hspan := Nat.le_trans hle (h.behind span hspan)
  opens := h.opens
  inside := h.inside
  apart := h.apart

theorem cons (h : Placed text (e + 1) spans) (hlt : i < e) (hi : Inside text i) (he : Inside text e) :
    Placed text i ((i, e) :: spans) where
  behind := List.forall_mem_cons.mpr ⟨Nat.le_refl i, (h.earlier (by omega)).behind⟩
  opens := List.forall_mem_cons.mpr ⟨hlt, h.opens⟩
  inside := List.forall_mem_cons.mpr ⟨⟨hi, he⟩, h.inside⟩
  apart := List.pairwise_cons.mpr ⟨h.behind, h.apart⟩

end Placed

theorem placed_of_quoteOffsetsFrom {spans : List (Nat × Nat)} (h : quoteOffsetsFrom text i = .ok spans) :
    Placed text i spans := by
  fun_induction quoteOffsetsFrom text i generalizing spans with
  | case1 i hi hmark ih => exact (ih h).earlier (Nat.le_add_right _ _)
  | case2 i hi hmark hend => cases h
  | case3 i hi hmark e hend hlt ih =>
    obtain ⟨rest, hrest, rfl⟩ := map_eq_ok.mp h
    have hquote := inside_of_getElem? (List.getElem?_eq_getElem hi) (isFirst_of_ofByte (by decide) hmark)
    exact (ih hrest).cons hlt hquote (inside_of_inQuote hend).2
  | case4 i hi hmark ih | case5 i hi hmark ih | case6 i hi hmark ih =>
    exact (ih h).earlier (Nat.le_add_right _ _)
  | case7 i hi =>
    cases h
    exact .nil text i

end Quotes

/-! ### Comparison symbols -/

section Comparisons

variable {extended : Bool} {text before body after rest : List Char} {i : Nat} {b : UInt8}

theorem comparisonOffsetsFrom_of_byte (h : (utf8 text)[i]? = some b) :
    comparisonOffsetsFrom extended text i =
      match Mark.ofByte b with
      | .escape => comparisonOffsetsFrom extended text (i + 2)
      | .quote =>
        (endFrom? .inQuote text (i + 1)).elim [] fun e => comparisonOffsetsFrom extended text (e + 1)
      | .opening =>
        (endFrom? .inGroup text (i + 1)).elim [] fun e => comparisonOffsetsFrom extended text (e + 1)
      | .closing | .neutral =>
        (CompareOp.atByte? extended b (utf8 text)[i + 1]?).elim (comparisonOffsetsFrom extended text (i + 1))
          fun op => (i, op) :: comparisonOffsetsFrom extended text (i + op.width) := by
  obtain ⟨hi, rfl⟩ := List.getElem?_eq_some_iff.mp h
  rw [comparisonOffsetsFrom, dif_pos hi]
  cases Mark.ofByte (utf8 text)[i] with
  | escape => rfl
  | quote | opening =>
    dsimp only
    split
    · next hend => rw [hend]; rfl
    · next e hend => rw [hend]; rfl
  | closing | neutral =>
    dsimp only
    split
    · next hop => rw [hop]; rfl
    · next op hop => rw [hop]; rfl

theorem comparisonOffsetsFrom_end (h : byteLength text ≤ i) : comparisonOffsetsFrom extended text i = [] := by
  rw [comparisonOffsetsFrom]
  exact dif_neg (Nat.not_lt.mpr h)

theorem CompareOp.atByte?_of_not_isFirst (hb : ¬b.IsUTF8FirstByte) (next : Option UInt8) :
    atByte? extended b next = none := by
  have hne (b' : UInt8) (hb' : b'.IsUTF8FirstByte) : b ≠ b' := not_isFirst_ne hb hb'
  simp [atByte?, hne 0x21 (by decide), hne 0x3C (by decide), hne 0x3D (by decide), hne 0x3E (by decide)]

theorem comparisonOffsetsFrom_within (h : (utf8 text)[i]? = some b) (hb : ¬b.IsUTF8FirstByte) :
    comparisonOffsetsFrom extended text i = comparisonOffsetsFrom extended text (i + 1) := by
  rw [comparisonOffsetsFrom_of_byte h, ofByte_of_not_isFirst hb, CompareOp.atByte?_of_not_isFirst hb]
  rfl

/-- At a character the bytes show the symbol that the characters show. -/
theorem CompareOp.atByte?_eq {c : Char} (htext : text = before ++ c :: rest) :
    atByte? extended (lead c) (utf8 text)[byteLength before + 1]? = atStart? extended (c :: rest) := by
  have hbang : lead c = 0x21 ↔ c = '!' := lead_eq_iff (by decide)
  have hlt : lead c = 0x3C ↔ c = '<' := lead_eq_iff (by decide)
  have heq : lead c = 0x3D ↔ c = '=' := lead_eq_iff (by decide)
  have hgt : lead c = 0x3E ↔ c = '>' := lead_eq_iff (by decide)
  by_cases hwide : c.utf8Size = 1
  · have hnext : (utf8 text)[byteLength before + 1]? = some 0x3D ↔ rest.head? = some '=' := by
      have hplace : byteLength before + 1 = byteLength (before ++ [c]) := by simp [hwide]
      have hsplit : text = (before ++ [c]) ++ rest := by simp [htext]
      rw [hplace]
      cases rest with
      | nil => simp [hsplit, byteLength]
      | cons d more =>
        have hd : lead d = 0x3D ↔ d = '=' := lead_eq_iff (by decide)
        rw [getElem?_of_eq hsplit]
        simp [hd]
    simp [atByte?, atStart?, hbang, hlt, heq, hgt, hnext]
  · -- the symbols are characters of one byte
    have hne {d : Char} (hd : d.utf8Size = 1) : c ≠ d := fun h => hwide (h ▸ hd)
    simp [atByte?, atStart?, hbang, hlt, heq, hgt, hne (d := '!') rfl, hne (d := '<') rfl,
      hne (d := '=') rfl, hne (d := '>') rfl]

theorem comparisonOffsetsFrom_plain {c : Char} (htext : text = before ++ c :: rest)
    (hc : Mark.ofChar c = .neutral ∨ Mark.ofChar c = .closing)
    (hop : CompareOp.atStart? extended (c :: rest) = none) :
    comparisonOffsetsFrom extended text (byteLength before) =
      comparisonOffsetsFrom extended text (byteLength (before ++ [c])) := by
  rw [comparisonOffsetsFrom_of_byte (getElem?_of_eq htext), ofByte_lead, CompareOp.atByte?_eq htext, hop,
    ← through_char (fun _ _ => comparisonOffsetsFrom_within) htext]
  rcases hc with hc | hc <;> rw [hc] <;> rfl

theorem comparisonOffsetsFrom_symbol {c : Char} {op : CompareOp} (htext : text = before ++ c :: rest)
    (hop : CompareOp.atStart? extended (c :: rest) = some op) :
    comparisonOffsetsFrom extended text (byteLength before) =
      (byteLength before, op) :: comparisonOffsetsFrom extended text (byteLength before + op.width) := by
  rw [comparisonOffsetsFrom_of_byte (getElem?_of_eq htext), ofByte_lead, CompareOp.atByte?_eq htext, hop,
    (CompareOp.atStart?_eq_some hop).1]
  rfl

theorem comparisonOffsetsFrom_escape {c : Char} (htext : text = before ++ '\\' :: c :: rest) :
    comparisonOffsetsFrom extended text (byteLength before) =
      comparisonOffsetsFrom extended text (byteLength (before ++ ['\\', c])) :=
  through_escape (fun _ _ => comparisonOffsetsFrom_within)
    (comparisonOffsetsFrom_of_byte (getElem?_of_eq htext)) htext

theorem comparisonOffsetsFrom_dangling (htext : text = before ++ ['\\']) :
    comparisonOffsetsFrom extended text (byteLength before) = [] := by
  rw [comparisonOffsetsFrom_of_byte (getElem?_of_eq htext), ofByte_lead]
  exact comparisonOffsetsFrom_end (byteLength_le_of_dangling htext)

/-- At an opening mark the scan goes on behind the span, if there is one. -/
theorem comparisonOffsetsFrom_of_opens {c : Char} {z : Zone} (htext : text = before ++ c :: rest)
    (h : Opens c z) :
    comparisonOffsetsFrom extended text (byteLength before) =
      (endFrom? z text (byteLength before + 1)).elim []
        fun e => comparisonOffsetsFrom extended text (e + 1) := by
  rw [comparisonOffsetsFrom_of_byte (getElem?_of_eq htext), ofByte_lead, ← h.step]
  rcases h.mark with hc | hc <;> rw [hc] <;> rfl

/-- The scan over characters passes over what shows no symbol. -/
theorem comparisonsFrom_over {front : List Char} (hhides : Hides comparing top front)
    (hrun : top.run front = top) (before rest : List Char) :
    comparisonsFrom extended top before.length 0 (front ++ rest) =
      comparisonsFrom extended top (before ++ front).length 0 rest := by
  rw [comparisonsFrom_append hhides, hrun, List.length_append]

/-- A symbol at the top is found, and the scan goes on behind it. -/
theorem exists_of_atStart? {c : Char} {op : CompareOp}
    (hop : CompareOp.atStart? extended (c :: rest) = some op) :
    ∃ after, c :: rest = op.symbol.toList ++ after ∧
      ∀ place, comparisonsFrom extended top place 0 (c :: rest) =
        (place, op) :: comparisonsFrom extended top (place + op.symbol.toList.length) 0 after := by
  obtain ⟨after, hrest⟩ : ∃ after, c :: rest = op.symbol.toList ++ after := by
    rcases (CompareOp.atStart?_eq_some hop).2 with hsymbol | ⟨after, hsymbol, rfl⟩
    · exact ⟨rest, by rw [hsymbol]; rfl⟩
    · exact ⟨after, by rw [hsymbol]; rfl⟩
  have hwidth : op.width - 1 + 1 = op.width := Nat.sub_add_cancel op.width_pos
  have hskip : rest.drop (op.width - 1) = after := by
    rw [← List.drop_succ_cons (a := c), hrest, hwidth, CompareOp.width, List.drop_left]
  refine ⟨after, hrest, fun place => ?_⟩
  rw [comparisonsFrom, if_pos rfl, hop]
  dsimp only
  rw [comparisonsFrom_skip, hskip, Nat.add_assoc, Nat.add_comm 1, hwidth]
  rfl

/-- The scan for comparison symbols finds those of the text from a character on that stand at the top. -/
theorem comparisonOffsetsFrom_eq (before : List Char) (htext : text = before ++ rest) :
    comparisonOffsetsFrom extended text (byteLength before) =
      (comparisonsFrom extended top before.length 0 rest).map fun found =>
        (byteLength (text.take found.1), found.2) := by
  induction rest using pieces_induction generalizing before with
  | nil =>
    rw [comparisonOffsetsFrom_end (by rw [htext, List.append_nil])]
    rfl
  | dangling =>
    have hhides : Hides comparing top ['\\'] := ⟨fun _ => rfl, trivial⟩
    rw [comparisonOffsetsFrom_dangling htext, comparisonsFrom_of_hides hhides]
    rfl
  | escape d rest ih =>
    have hescaped : top.step (Mark.ofChar '\\') ≠ top := by decide
    have hhides : Hides comparing top ['\\', d] := ⟨fun _ => rfl, fun hz => absurd hz hescaped, trivial⟩
    rw [comparisonOffsetsFrom_escape htext, ih _ (by simp [htext]), ← comparisonsFrom_over hhides rfl]
    rfl
  | unclosed c z rest h hunclosed =>
    have hhides : Hides comparing top (c :: rest) :=
      ⟨fun _ => h.not_comparing, h.step ▸ hides_of_unclosed h.ne_top hunclosed⟩
    rw [comparisonOffsetsFrom_of_opens htext h, h.endFrom?_eq_none htext hunclosed,
      comparisonsFrom_of_hides hhides]
    rfl
  | span c z inner after h hspan ih =>
    obtain ⟨e, hend, he⟩ := h.exists_endFrom? hspan htext
    have hhides : Hides comparing top (c :: inner) :=
      ⟨fun _ => h.not_comparing, h.step ▸ hspan.hides h.ne_top⟩
    have hrun : top.run (c :: inner) = top := by rw [Zone.run_cons, h.step, hspan.run]
    rw [comparisonOffsetsFrom_of_opens htext h, hend, Option.elim_some, he, ih _ (by simp [htext]),
      ← comparisonsFrom_over hhides hrun]
    rfl
  | closing rest ih =>
    have hhides : Hides comparing top [')'] := ⟨fun _ => rfl, trivial⟩
    rw [comparisonOffsetsFrom_plain htext (.inr rfl) (atStart?_of_not_comparing rfl rest),
      ih _ (by simp [htext]), ← comparisonsFrom_over hhides rfl]
    rfl
  | neutral c rest hc ih =>
    cases hop : CompareOp.atStart? extended (c :: rest) with
    | none =>
      have hstep : top.step (Mark.ofChar c) = top := by rw [hc]; rfl
      rw [comparisonOffsetsFrom_plain htext (.inl hc) hop, ih rest (Nat.le_refl _) _ (by simp [htext]),
        comparisonsFrom, if_pos rfl, hop, hstep, List.length_append]
      rfl
    | some op =>
      obtain ⟨after, hrest, hplaces⟩ := exists_of_atStart? hop
      have hwidth : byteLength op.symbol.toList = op.width := by cases op <;> rfl
      have hle : after.length ≤ rest.length := by
        have hlength := congrArg List.length hrest
        have hpos := op.width_pos
        rw [List.length_cons, List.length_append] at hlength
        rw [CompareOp.width] at hpos
        omega
      rw [comparisonOffsetsFrom_symbol htext hop, ← hwidth, ← byteLength_append,
        ih after hle _ (by rw [htext, hrest, List.append_assoc]), hplaces, List.map_cons, List.length_append,
        htext, List.take_left]

/-- A comparison symbol that the scan finds is a character of the text. -/
theorem inside_of_mem_comparisonOffsetsFrom {found : Nat × CompareOp}
    (h : found ∈ comparisonOffsetsFrom extended text i) : Inside text found.1 := by
  fun_induction comparisonOffsetsFrom extended text i with
  | case1 i hi hmark ih => exact ih h
  | case2 i hi hmark hend | case4 i hi hmark hend => cases h
  | case3 i hi hmark e hend hlt ih | case5 i hi hmark e hend hlt ih => exact ih h
  | case6 i hi hmark hop ih | case8 i hi hmark hop ih => exact ih h
  | case7 i hi hmark op hop hpos ih | case9 i hi hmark op hop hpos ih =>
    rcases List.mem_cons.mp h with rfl | hrest
    · refine inside_of_getElem? (List.getElem?_eq_getElem hi) ?_
      by_contra hb
      rw [CompareOp.atByte?_of_not_isFirst hb] at hop
      cases hop
    · exact ih hrest
  | case10 i hi => cases h

end Comparisons

end RowSearch.Query
