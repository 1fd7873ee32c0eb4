import RowSearch.Yaml.Node
/-!
# Mappings of plain lines

A document that is a list of lines `name: value`, where names and values are words, is read as the
mapping of these names to these values, one entry for each line and in the order of the lines. The tokens
of a line are its name, the colon and its value, and the next line starts in column zero, which is what
ends the value: a plain scalar goes on over the following line only further to the right.
-/

namespace RowSearch.Yaml

/-! ### Words -/

/-- The characters of names in lower case, truth values and whole numbers. -/
def wordChars : List Char :=
  "abcdefghijklmnopqrstuvwxyz0123456789_".toList

structure IsWord (text : List Char) : Prop where
  nonempty : text ≠ []
  mem_wordChars : ∀ c ∈ text, c ∈ wordChars

/-- At a word no scalar of its line is at its end. -/
theorem plainEnds_of_mem_wordChars {c : Char} (h : c ∈ wordChars) (rest : List Char) :
    plainEnds 0 (c :: rest) = false := by
  have hall : ∀ c ∈ wordChars, isGap c = false ∧ c ≠ '\n' ∧ c ≠ '#' ∧ c ≠ ':' := by decide
  obtain ⟨hgap, hline, hcomment, hcolon⟩ := hall c h
  simp [plainEnds, hgap, hline, hcomment, hcolon]

theorem clingingColon_zero (text : List Char) : clingingColon 0 text = false := by
  rw [clingingColon]
  split <;> rfl

theorem atMark_of_ne {c mark : Char} (h : c ≠ mark) (rest : List Char) :
    atMark mark (c :: rest) = false := by
  unfold atMark
  split
  · next heq =>
    cases heq
    simp [h]
  · rfl

/-- What starts with the character of a word is a plain scalar. -/
theorem scan_of_mem_wordChars {c : Char} (h : c ∈ wordChars) (lead : Bool) (p : Place)
    (rest : List Char) :
    scan 0 lead p (c :: rest) =
      if plainEnds 0 rest then put (.plain [c]) p (scan 0 false p.next rest)
      else scanPlain 0 p [c] p.next rest := by
  have hblank : ∀ c ∈ wordChars, c ≠ '\n' ∧ c ≠ ' ' ∧ c ≠ '\t' ∧ c ≠ '#' := by decide
  have hmark : ∀ c ∈ wordChars, c ≠ '-' ∧ c ≠ '.' ∧ c ≠ '?' ∧ c ≠ ':' := by decide
  have hflow : ∀ c ∈ wordChars, c ≠ '[' ∧ c ≠ ']' ∧ (c.toNat == 0x7B) = false ∧
      (c.toNat == 0x7D) = false ∧ c ≠ ',' := by decide
  have hquote : ∀ c ∈ wordChars, c ≠ '"' ∧ c ≠ '\'' ∧ isReserved c = false := by decide
  obtain ⟨hdash, hpoint, hquestion, hcolon⟩ := hmark c h
  have hmarks : (p.column = 0 && (atMark '-' (c :: rest) || atMark '.' (c :: rest))) = false := by
    simp [atMark_of_ne hdash, atMark_of_ne hpoint]
  rw [scan.eq_def]
  simp [hblank c h, hmarks, hflow c h, hdash, hquestion, hcolon, hquote c h, clingingColon_zero]

theorem scanPlain_word (start : Place) {text behind : List Char} (hne : text ≠ [])
    (hword : ∀ c ∈ text, c ∈ wordChars) (hends : plainEnds 0 behind = true) (held : List Char)
    (p : Place) :
    scanPlain 0 start held p (text ++ behind) =
      put (.plain (held.reverse ++ text)) start
        (scan 0 false ⟨p.line, p.column + text.length⟩ behind) := by
  induction text generalizing held p with
  | nil => exact absurd rfl hne
  | cons c text ih =>
    obtain ⟨hc, htext⟩ := List.forall_mem_cons.mp hword
    rw [List.cons_append, scanPlain, clingingColon_zero, if_neg Bool.false_ne_true]
    cases text with
    | nil => simp [hends, Place.next]
    | cons d text =>
      rw [List.cons_append, plainEnds_of_mem_wordChars (List.forall_mem_cons.mp htext).1,
        if_neg Bool.false_ne_true, ← List.cons_append, ih (List.cons_ne_nil d text) htext]
      simp [Place.next, Nat.add_assoc, Nat.add_comm 1]

/-- A word in front of something that ends it is one token. -/
theorem scan_word {text behind : List Char} (hword : IsWord text) (hends : plainEnds 0 behind = true)
    (lead : Bool) (p : Place) :
    scan 0 lead p (text ++ behind) =
      put (.plain text) p (scan 0 false ⟨p.line, p.column + text.length⟩ behind) := by
  obtain ⟨c, rest, rfl⟩ := List.exists_cons_of_ne_nil hword.nonempty
  obtain ⟨hc, hrest⟩ := List.forall_mem_cons.mp hword.mem_wordChars
  rw [List.cons_append, scan_of_mem_wordChars hc]
  cases rest with
  | nil => simp [hends, Place.next]
  | cons d rest =>
    rw [List.cons_append, plainEnds_of_mem_wordChars (List.forall_mem_cons.mp hrest).1,
      if_neg Bool.false_ne_true, ← List.cons_append,
      scanPlain_word p (List.cons_ne_nil d rest) hrest hends]
    simp [Place.next, Nat.add_assoc, Nat.add_comm 1]

/-! ### The tokens of lines -/

/-- The name and the value of a line. -/
abbrev Entry := List Char × List Char

def lineOf (entry : Entry) : List Char :=
  entry.1 ++ ':' :: ' ' :: (entry.2 ++ ['\n'])

def lineTokens (number : Nat) (entry : Entry) : List Placed :=
  [⟨.plain entry.1, ⟨number, 0⟩⟩, ⟨.colon, ⟨number, entry.1.length⟩⟩,
    ⟨.plain entry.2, ⟨number, entry.1.length + 2⟩⟩]

def linesTokens : Nat → List Entry → List Placed
  | _, [] => []
  | number, entry :: entries => lineTokens number entry ++ linesTokens (number + 1) entries

theorem scan_newline (flow : Nat) (lead : Bool) (p : Place) (rest : List Char) :
    scan flow lead p ('\n' :: rest) = scan flow true p.newline rest := by
  rw [scan.eq_def]
  rfl

theorem scan_space (flow : Nat) (lead : Bool) (p : Place) (rest : List Char) :
    scan flow lead p (' ' :: rest) = scan flow lead p.next rest := by
  rw [scan.eq_def]
  rfl

/-- A colon with a space behind it. -/
theorem scan_colon (flow : Nat) (lead : Bool) (p : Place) (rest : List Char) :
    scan flow lead p (':' :: ' ' :: rest) = put .colon p (scan flow false p.next (' ' :: rest)) := by
  have hend : atWordEnd (' ' :: rest) = true := rfl
  rw [scan.eq_def]
  simp [hend, atMark_of_ne]

def IsLine (entry : Entry) : Prop :=
  IsWord entry.1 ∧ IsWord entry.2

theorem scan_line {entry : Entry} (h : IsLine entry) (number : Nat)
    (behind : List Char) :
    scan 0 true ⟨number, 0⟩ (lineOf entry ++ behind) =
      (scan 0 true ⟨number + 1, 0⟩ behind).map (lineTokens number entry ++ ·) := by
  have hcolon (text : List Char) : plainEnds 0 (':' :: ' ' :: text) = true := rfl
  have hline (text : List Char) : plainEnds 0 ('\n' :: text) = true := rfl
  have hvalue (p : Place) : scan 0 false p (entry.2 ++ '\n' :: behind) =
      put (.plain entry.2) p (scan 0 true ⟨p.line + 1, 0⟩ behind) := by
    rw [scan_word h.2 (hline behind), scan_newline]
    rfl
  have htext : lineOf entry ++ behind = entry.1 ++ ':' :: ' ' :: (entry.2 ++ '\n' :: behind) := by
    simp [lineOf]
  rw [htext, scan_word h.1 (hcolon _), scan_colon, scan_space, hvalue]
  simp [put, lineTokens, Place.next, Function.comp_def]

theorem scan_lines {entries : List Entry} (h : ∀ entry ∈ entries, IsLine entry)
    (number : Nat) :
    scan 0 true ⟨number, 0⟩ (entries.flatMap lineOf) = some (linesTokens number entries) := by
  induction entries generalizing number with
  | nil =>
    rw [List.flatMap_nil, scan.eq_def]
    rfl
  | cons entry entries ih =>
    obtain ⟨hentry, hentries⟩ := List.forall_mem_cons.mp h
    rw [List.flatMap_cons, scan_line hentry, ih hentries]
    rfl

def lineChars : List Char :=
  ':' :: ' ' :: '\n' :: wordChars

theorem mem_lineChars_of_mem_lineOf {entry : Entry} (h : IsLine entry) {c : Char}
    (hc : c ∈ lineOf entry) : c ∈ lineChars := by
  have hword (hc : c ∈ wordChars) : c ∈ lineChars := by simp [lineChars, hc]
  have hchars : c ∈ entry.1 ∨ c = ':' ∨ c = ' ' ∨ c ∈ entry.2 ∨ c = '\n' := by
    simpa [lineOf] using hc
  rcases hchars with hname | rfl | rfl | hvalue | rfl
  · exact hword (h.1.mem_wordChars c hname)
  · decide
  · decide
  · exact hword (h.2.mem_wordChars c hvalue)
  · decide

/-- A text of such characters stays as it is before it is scanned. -/
theorem lineFeeds_eq_self {text : List Char} (h : ∀ c ∈ text, c ∈ lineChars) :
    lineFeeds text = text := by
  have hall : ∀ c ∈ lineChars, c ≠ '\r' ∧ c ≠ '\u0085' ∧ c ≠ '\u2028' ∧ c ≠ '\u2029' := by decide
  induction text with
  | nil => rfl
  | cons c text ih =>
    obtain ⟨hc, htext⟩ := List.forall_mem_cons.mp h
    obtain ⟨hreturn, hnext, hline, hparagraph⟩ := hall c hc
    simp [lineFeeds, hreturn, hnext, hline, hparagraph, ih htext]

theorem dropOrderMark_eq_self {text : List Char} (h : ∀ c ∈ text, c ∈ lineChars) :
    dropOrderMark text = text := by
  have hmark : '\uFEFF' ∉ lineChars := by decide
  unfold dropOrderMark
  split
  · exact absurd (h _ List.mem_cons_self) hmark
  · rfl

theorem tokens?_lines {entries : List Entry} (h : ∀ entry ∈ entries, IsLine entry) :
    tokens? (entries.flatMap lineOf) = some (linesTokens 0 entries) := by
  have hchars : ∀ c ∈ entries.flatMap lineOf, c ∈ lineChars := by
    intro c hc
    obtain ⟨entry, hentry, hc⟩ := List.mem_flatMap.mp hc
    exact mem_lineChars_of_mem_lineOf (h entry hentry) hc
  have hprintable : (entries.flatMap lineOf).all isPrintable = true := by
    have hall : ∀ c ∈ lineChars, isPrintable c = true := by decide
    exact List.all_eq_true.mpr fun c hc => hall c (hchars c hc)
  rw [tokens?, dropOrderMark_eq_self hchars, if_pos hprintable, lineFeeds_eq_self hchars, scan_lines h]

/-! ### The mapping of the lines -/

namespace Node

def ofLine (entry : Entry) : Node × Node :=
  (plain entry.1, plain entry.2)

/-- The next line ends the value of a line. -/
theorem scalarFrom_lines (least number next : Nat) (hleast : 0 < least) (node : Node)
    (entries : List Entry) :
    scalarFrom least number node (linesTokens next entries) = (node, linesTokens next entries) := by
  cases entries with
  | nil => rfl
  | cons entry entries =>
    have hcolumn : ¬ least ≤ 0 := by omega
    cases node <;> simp [linesTokens, lineTokens, scalarFrom, hcolumn]

theorem readValue_line (entry : Entry) (entries : List Entry)
    (number steps : Nat) :
    readValue 0 number (steps + 2)
        (⟨.plain entry.2, ⟨number, entry.1.length + 2⟩⟩ :: linesTokens (number + 1) entries) =
      some (plain entry.2, linesTokens (number + 1) entries) := by
  simp [readValue, readBlock, ofToken?, scalarFrom_lines]

theorem readEntries_lines {entries : List Entry} {steps : Nat}
    (hsteps : entries.length + 2 < steps) (number : Nat) :
    readEntries 0 steps (linesTokens number entries) = some (entries.map ofLine, []) := by
  induction entries generalizing steps number with
  | nil =>
    obtain ⟨steps, rfl⟩ := Nat.exists_eq_add_of_lt hsteps
    rfl
  | cons entry entries ih =>
    obtain ⟨steps, rfl⟩ : ∃ more, steps = more + 3 := ⟨steps - 3, by omega⟩
    have hrest : readEntries 0 (steps + 2) (linesTokens (number + 1) entries) =
        some (entries.map ofLine, []) := ih (by rw [List.length_cons] at hsteps; omega) (number + 1)
    simp [linesTokens, lineTokens, readEntries, isKey, ofToken?, readValue_line, hrest, ofLine]

theorem length_le_linesTokens (number : Nat) (entries : List Entry) :
    entries.length ≤ (linesTokens number entries).length := by
  induction entries generalizing number with
  | nil => exact Nat.zero_le _
  | cons entry entries ih =>
    have hrest := ih (number + 1)
    simp only [linesTokens, lineTokens, List.length_cons, List.length_append, List.length_nil]
    omega

/-- Where a block may start, the lines are one mapping. -/
theorem readBlock_lines (entry : Entry) (entries : List Entry)
    (steps : Nat) (hsteps : entries.length + 4 < steps) :
    readBlock true 0 steps (linesTokens 0 (entry :: entries)) =
      some (mapping ((entry :: entries).map ofLine), []) := by
  obtain ⟨steps, rfl⟩ : ∃ more, steps = more + 1 := ⟨steps - 1, by omega⟩
  have hentries : readEntries 0 steps (linesTokens 0 (entry :: entries)) =
      some ((entry :: entries).map ofLine, []) :=
    readEntries_lines (by rw [List.length_cons]; omega) 0
  simp only [linesTokens, lineTokens, List.cons_append, List.nil_append] at hentries ⊢
  simp [readBlock, isKey, ofToken?, hentries]

theorem ofTokens?_lines (entry : Entry)
    (entries : List Entry) :
    ofTokens? (linesTokens 0 (entry :: entries)) =
      some (some (mapping ((entry :: entries).map ofLine))) := by
  have hlength := length_le_linesTokens (0 + 1) entries
  have hblock := readBlock_lines entry entries
    (4 * ((linesTokens 0 (entry :: entries)).tail.length + 2))
    (by simp only [linesTokens, lineTokens, List.cons_append, List.nil_append, List.tail_cons,
          List.length_cons]
        omega)
  simp only [linesTokens, lineTokens, List.cons_append, List.nil_append, List.tail_cons,
    List.length_cons, Nat.zero_add] at hblock ⊢
  simp [ofTokens?, hblock]

end Node

theorem document?_lines {entry : Entry} {entries : List Entry}
    (h : ∀ line ∈ entry :: entries, IsLine line) :
    document? ((entry :: entries).flatMap lineOf) =
      some (some (.mapping ((entry :: entries).map Node.ofLine))) := by
  rw [document?, tokens?_lines h, Option.bind_some, Node.ofTokens?_lines]

/-- Without lines there is no node. -/
theorem document?_nil : document? [] = some none := by
  have htokens : tokens? [] = some [] := tokens?_lines (List.forall_mem_nil _)
  rw [document?, htokens]
  rfl

end RowSearch.Yaml
