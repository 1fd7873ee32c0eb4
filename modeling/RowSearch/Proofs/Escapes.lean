import RowSearch.Proofs.Measure
import RowSearch.Proofs.Unbroken
import RowSearch.Proofs.Visible
/-!
# Words with escapes

A word may hold any character behind a backslash. All scanners take an escaped character out of account,
so as far as they go such words come back from a query just as they were written. The normal form is
taken before any of them, and it knows quotes but no escapes: it makes a space of an escaped blank, drops
a space behind an escaped comparison symbol or behind an escaped blank, and trims an escaped blank at the
end. A row of words is read as it was written when the normal form finds nothing to do in it, and only
then.
-/

namespace RowSearch.Query

open Text (isBlank Blank Tight)
open Zone (top)

/-- A character that means nothing to a query, wherever it stands. -/
def Ordinary (c : Char) : Prop :=
  isBlank c = false ∧ c ∉ "\"()\\,=<>!".toList

instance (c : Char) : Decidable (Ordinary c) :=
  inferInstanceAs (Decidable (_ ∧ _))

/-- A text of ordinary characters, and of others with a backslash in front of each. -/
inductive Escaped : List Char → Prop
  | nil : Escaped []
  | escape (c : Char) {rest : List Char} : Escaped rest → Escaped ('\\' :: c :: rest)
  | plain {c : Char} {rest : List Char} : Ordinary c → Escaped rest → Escaped (c :: rest)

structure EscapedWord (word : List Char) : Prop extends Proper word where
  escaped : Escaped word

/-- In these words the normal form leaves every escape alone: their blanks are spaces and stand at the
end of none, and all but the last one end with something else than a comparison symbol. -/
structure Kept (words : List (List Char)) : Prop where
  spaces : ∀ word ∈ words, ∀ c ∈ word, isBlank c = true → c = ' '
  ends : ∀ word ∈ words, ∀ c, word.getLast? = some c → isBlank c = false
  symbols : ∀ word ∈ words.dropLast, ∀ c, word.getLast? = some c → isComparison c = false

def phrase (words : List (List Char)) : List Char :=
  [' '].intercalate words

/-! ### What the scanners see of a word -/

theorem Ordinary.neutral {c : Char} (h : Ordinary c) : Mark.ofChar c = .neutral := by
  rw [Mark.ofChar_eq_neutral]
  obtain ⟨-, hc⟩ := h
  simp at hc
  grind

theorem Ordinary.not_comparing {c : Char} (h : Ordinary c) : comparing c = false := by
  obtain ⟨-, hc⟩ := h
  simp at hc
  simp [comparing, isComparison, hc]

namespace Escaped

variable {c : Char} {word rest : List Char}

theorem run? (h : Escaped word) : top.run? word = some top := by
  induction h with
  | nil => rfl
  | escape c _ ih => rw [Zone.run?_escape rfl, ih]
  | plain hc _ ih =>
    rw [Zone.run?_cons, hc.neutral, Zone.step?_neutral]
    exact ih

/-- A word shows ordinary characters and backslashes. -/
theorem hides {p : Char → Bool} (hp : ∀ c, Ordinary c ∨ c = '\\' → p c = false)
    (h : Escaped word) : Hides p top word := by
  induction h with
  | nil => trivial
  | escape c _ ih => exact ⟨fun _ => hp _ (.inr rfl), fun hz => (nomatch hz), ih⟩
  | plain hc _ ih =>
    refine ⟨fun _ => hp _ (.inl hc), ?_⟩
    rw [hc.neutral]
    exact ih

theorem first (h : Escaped (c :: rest)) : isBlank c = false ∧ comparing c = false := by
  cases h with
  | escape => decide
  | plain hc => exact ⟨hc.1, hc.not_comparing⟩

theorem not_startsComparison (h : Escaped word) :
    startsComparison (word.dropWhile isBlank) = false := by
  cases word with
  | nil => rfl
  | cons c rest =>
    obtain ⟨hc, hcomparing⟩ := h.first
    rw [List.dropWhile_cons_of_neg (by simp [hc])]
    exact startsComparison_of_not_comparing hcomparing rest

end Escaped

namespace EscapedWord

variable {config : Config} {word : List Char}

theorem splitCall?_eq_none (h : EscapedWord word) : splitCall? word = none := by
  rw [Option.eq_none_iff_forall_ne_some]
  rintro ⟨f, inner⟩ hcall
  obtain ⟨rfl, -⟩ := splitCall?_eq_some.mp hcall
  have hhides : Hides (· == '(') top (f.key.toList ++ '(' :: (inner ++ [')'])) := by
    apply h.escaped.hides
    rintro c (hc | rfl)
    · have hne : c ≠ '(' := by
        rintro rfl
        exact hc.2 (by decide)
      simpa using hne
    · rfl
  obtain ⟨-, hopening⟩ := hides_append.mp hhides
  rw [Zone.run_eq_of_run? (Zone.run?_neutral rfl f.neutral_key)] at hopening
  cases hopening.1 rfl

theorem unquote?_eq_none (h : EscapedWord word) : unquote? word = none := by
  rw [Option.eq_none_iff_forall_ne_some]
  rintro body hbody
  obtain ⟨rfl, -⟩ := unquote?_eq_some.mp hbody
  cases h.escaped with
  | plain hc => exact hc.2 (by decide)

theorem ofToken (h : EscapedWord word) : Kind.ofToken config word = .ok .word := by
  apply Kind.ofToken_word h.toProper _ h.splitCall?_eq_none h.unquote?_eq_none
  · apply hasTopBlank_of_hides (balanced_of_run? h.escaped.run?)
    apply h.escaped.hides
    rintro c (hc | rfl)
    · exact hc.1
    · decide
  · apply h.escaped.hides
    rintro c (hc | rfl)
    · exact hc.not_comparing
    · decide

theorem reads (h : EscapedWord word) (hlimit : 1 ≤ heightLimit config)
    (inner : List Char → Except QueryError Built) :
    Reads config inner word (.term ⟨.word (String.ofList word), 1⟩) :=
  .word h.ofToken hlimit

/-- A word that does not end with a blank stands in a row as a whole. -/
theorem solid (h : EscapedWord word)
    (hlast : ∀ c, word.getLast? = some c → isBlank c = false) : Solid ' ' word where
  run := h.escaped.run?
  hides := by
    apply h.escaped.hides
    rintro c (hc | rfl)
    · simpa using ne_of_apply_ne isBlank (by rw [hc.1]; decide)
    · rfl
  first := by
    obtain ⟨c, rest, rfl⟩ := List.exists_cons_of_ne_nil h.ne_nil
    obtain ⟨hc, -⟩ := h.escaped.first
    exact ⟨c, rest, rfl, hc, ne_of_apply_ne isBlank (by rw [hc]; decide)⟩
  last := by
    have hc := hlast _ (List.getLast?_eq_some_getLast h.ne_nil)
    exact ⟨_, _, (List.dropLast_append_getLast h.ne_nil).symm, hc,
      ne_of_apply_ne isBlank (by rw [hc]; decide)⟩

end EscapedWord

/-! ### What the normal form does to a row of words -/

/-- Whether a blank would be dropped behind a character. -/
def sticks (c : Char) : Bool :=
  isBlank c || isComparison c

/-- A text with spaces for its blanks. -/
def spaced (text : List Char) : List Char :=
  text.map fun c => if isBlank c then ' ' else c

theorem spaced_eq_iff {text : List Char} :
    spaced text = text ↔ ∀ c ∈ text, isBlank c = true → c = ' ' := by
  induction text with
  | nil => simp [spaced]
  | cons c rest ih =>
    rw [spaced, List.map_cons, ← spaced, List.cons.injEq, ih, List.forall_mem_cons]
    grind

theorem length_spaced (text : List Char) : (spaced text).length = text.length :=
  List.length_map _

section Layout

variable {word : List Char} {words : List (List Char)}

/-- In a word the pass makes spaces of the blanks. -/
theorem tidyFrom_escaped (h : Escaped word) (glue : Bool) :
    tidyFrom top glue word = spaced word := by
  induction h generalizing glue with
  | nil => rfl
  | @escape c rest hrest ih =>
    have hpass : tidyFrom ⟨0, false, true⟩ false (c :: rest) = spaced (c :: rest) := by
      by_cases hc : isBlank c = true
      · rw [tidyFrom_space rfl hc hrest.not_startsComparison, spaced, List.map_cons, if_pos hc]
        exact congrArg (' ' :: ·) (ih true)
      · rw [tidyFrom_keep (.inr (by simpa using hc)), spaced, List.map_cons, if_neg hc]
        exact congrArg (c :: ·) (ih _)
    rw [tidyFrom_keep (.inr (by decide))]
    exact congrArg ('\\' :: ·) hpass
  | @plain c rest hc _ ih =>
    rw [tidyFrom_keep (.inr hc.1), hc.neutral, spaced, List.map_cons, if_neg (by simp [hc.1])]
    exact congrArg (c :: ·) (ih _)

theorem glueAfter_escaped (h : Escaped word) (glue : Bool) :
    glueAfter top glue word = (word.getLast?.map sticks).getD glue := by
  have hlast (c : Char) (rest : List Char) (glue : Bool) :
      ((c :: rest).getLast?.map sticks).getD glue = (rest.getLast?.map sticks).getD (sticks c) := by
    rw [List.getLast?_cons]
    cases rest.getLast? <;> rfl
  induction h generalizing glue with
  | nil => rfl
  | @escape c rest _ ih =>
    have hstep : glueAfter top glue ('\\' :: c :: rest) = glueAfter top (sticks c) rest := by
      show glueAfter top _ rest = _
      cases hc : isBlank c <;> simp [sticks, hc, top, Zone.step, Mark.ofChar]
    rw [hstep, ih (sticks c), List.getLast?_cons_cons, hlast]
  | @plain c rest hc _ ih =>
    have hstep : glueAfter top glue (c :: rest) = glueAfter top (sticks c) rest := by
      rw [glueAfter, hc.neutral, Zone.step_neutral]
      simp [sticks, hc.1, top]
      rfl
    rw [hstep, ih, hlast]

theorem phrase_cons (first next : List Char) (rest : List (List Char)) :
    phrase (first :: next :: rest) = first ++ ' ' :: phrase (next :: rest) := by
  simp [phrase, List.intercalate_cons_cons]

theorem exists_first_of_phrase (hne : words ≠ []) (h : ∀ word ∈ words, EscapedWord word) :
    ∃ c rest, phrase words = c :: rest ∧ isBlank c = false ∧ comparing c = false := by
  obtain ⟨word, rest, rfl⟩ := List.exists_cons_of_ne_nil hne
  have hword := h word List.mem_cons_self
  obtain ⟨c, tail, rfl⟩ := List.exists_cons_of_ne_nil hword.ne_nil
  cases rest with
  | nil => exact ⟨c, tail, by simp [phrase], hword.escaped.first⟩
  | cons next rest => exact ⟨c, _, phrase_cons _ _ _, hword.escaped.first⟩

theorem phrase_not_startsComparison (h : ∀ word ∈ words, EscapedWord word) :
    startsComparison ((phrase words).dropWhile isBlank) = false := by
  by_cases hne : words = []
  · subst hne
    rfl
  · obtain ⟨c, tail, hphrase, hblank, hcomparing⟩ := exists_first_of_phrase hne h
    rw [hphrase, List.dropWhile_cons_of_neg (by simp [hblank])]
    exact startsComparison_of_not_comparing hcomparing tail

/-- Behind a word the pass drops the space or keeps it. -/
theorem tidyFrom_phrase_cons {next : List Char} {last : Char} {rest : List (List Char)}
    (h : ∀ other ∈ word :: next :: rest, EscapedWord other) (hlast : word.getLast? = some last)
    (glue : Bool) :
    tidyFrom top glue (phrase (word :: next :: rest)) =
      spaced word ++ ((if sticks last then [] else [' ']) ++
        tidyFrom top true (phrase (next :: rest))) := by
  obtain ⟨hword, hrest⟩ := List.forall_mem_cons.mp h
  have hstart := phrase_not_startsComparison hrest
  have hstart' : startsComparison ((' ' :: phrase (next :: rest)).dropWhile isBlank) = false := by
    rwa [List.dropWhile_cons_of_pos (by decide)]
  have hgap : tidyFrom top (sticks last) (' ' :: phrase (next :: rest)) =
      (if sticks last then [] else [' ']) ++ tidyFrom top true (phrase (next :: rest)) := by
    cases sticks last with
    | true => exact tidyFrom_drop rfl (by decide) (.inl rfl)
    | false => exact tidyFrom_space rfl (by decide) hstart
  rw [phrase_cons, tidyFrom_append (apart_of_not_startsComparison hstart' word),
    tidyFrom_escaped hword.escaped, Zone.run_eq_of_run? hword.escaped.run?,
    glueAfter_escaped hword.escaped, hlast]
  exact congrArg (spaced word ++ ·) hgap

/-- The pass leaves a row of words as it is when all their blanks are spaces and it drops none behind a
word. -/
theorem tidyFrom_phrase_eq_iff (h : ∀ word ∈ words, EscapedWord word) (glue : Bool) :
    tidyFrom top glue (phrase words) = phrase words ↔
      (∀ word ∈ words, ∀ c ∈ word, isBlank c = true → c = ' ') ∧
        ∀ word ∈ words.dropLast, ∀ c, word.getLast? = some c → sticks c = false := by
  induction words generalizing glue with
  | nil => simp [phrase]
  | cons word rest ih =>
    obtain ⟨hword, hrest⟩ := List.forall_mem_cons.mp h
    cases rest with
    | nil => simp [phrase, tidyFrom_escaped hword.escaped, spaced_eq_iff]
    | cons next rest =>
      obtain ⟨last, hlast⟩ : ∃ last, word.getLast? = some last :=
        ⟨_, List.getLast?_eq_some_getLast hword.ne_nil⟩
      have hgap : (if sticks last then [] else [' ']) ++ tidyFrom top true (phrase (next :: rest)) =
          ' ' :: phrase (next :: rest) ↔
            sticks last = false ∧ tidyFrom top true (phrase (next :: rest)) = phrase (next :: rest) := by
        cases sticks last with
        | true =>
          -- nothing makes up for the space that is dropped
          have hle := length_tidyFrom_le top true (phrase (next :: rest))
          have hne (heq : tidyFrom top true (phrase (next :: rest)) = ' ' :: phrase (next :: rest)) :
              False := by
            have hlength := congrArg List.length heq
            rw [List.length_cons] at hlength
            omega
          simpa using hne
        | false => simp
      have happend : spaced word ++ ((if sticks last then [] else [' ']) ++
            tidyFrom top true (phrase (next :: rest))) = word ++ ' ' :: phrase (next :: rest) ↔
          spaced word = word ∧ (if sticks last then [] else [' ']) ++
            tidyFrom top true (phrase (next :: rest)) = ' ' :: phrase (next :: rest) := by
        constructor
        · exact fun heq => List.append_inj heq (length_spaced word)
        · rintro ⟨hspaced, heq⟩
          rw [hspaced, heq]
      rw [tidyFrom_phrase_cons h hlast, phrase_cons, happend, hgap, ih hrest, spaced_eq_iff]
      simp only [List.forall_mem_cons, List.dropLast_cons_cons, hlast, Option.some.injEq, forall_eq']
      tauto

theorem getLast?_phrase (hne : words ≠ []) (h : ∀ word ∈ words, EscapedWord word) :
    (phrase words).getLast? = (words.getLast hne).getLast? := by
  induction words with
  | nil => exact absurd rfl hne
  | cons word rest ih =>
    obtain ⟨-, hrest⟩ := List.forall_mem_cons.mp h
    cases rest with
    | nil => simp [phrase]
    | cons next rest =>
      have hlast := List.getLast?_eq_some_getLast (hrest _ (List.getLast_mem (List.cons_ne_nil _ _))).ne_nil
      rw [phrase_cons, List.getLast?_append, List.getLast?_cons, ih (List.cons_ne_nil _ _) hrest,
        List.getLast_cons (List.cons_ne_nil _ _), hlast]
      rfl

/-- A row of words is its own normal form when the normal form leaves its escapes alone. -/
theorem tidy_phrase_eq_iff (hne : words ≠ []) (h : ∀ word ∈ words, EscapedWord word) :
    tidy (phrase words) = phrase words ↔ Kept words := by
  have hlast := getLast?_phrase hne h
  constructor
  · intro htidy
    obtain ⟨hspaces, hsticks⟩ :=
      (tidyFrom_phrase_eq_iff h false).mp (tidyFrom_eq_self_of_tidy htidy)
    have htight : Tight (phrase words) := htidy ▸ Text.tight_trim _
    refine ⟨hspaces, fun word hword c hc => ?_, fun word hword c hc => ?_⟩
    · rw [← List.dropLast_append_getLast hne, List.mem_append, List.mem_singleton] at hword
      rcases hword with hword | rfl
      · exact (Bool.or_eq_false_iff.mp (hsticks word hword c hc)).1
      · exact htight.2 c (hlast.trans hc)
    · exact (Bool.or_eq_false_iff.mp (hsticks word hword c hc)).2
  · intro hkept
    obtain ⟨c, rest, hphrase, hc, -⟩ := exists_first_of_phrase hne h
    have htight : Tight (phrase words) := by
      constructor
      · intro d hd
        rw [hphrase] at hd
        cases hd
        exact hc
      · exact fun d hd => hkept.ends _ (List.getLast_mem hne) d (hlast.symm.trans hd)
    have hpass : tidyFrom top false (phrase words) = phrase words := by
      refine (tidyFrom_phrase_eq_iff h false).mpr ⟨hkept.spaces, fun word hword d hd => ?_⟩
      rw [sticks, hkept.ends word (List.dropLast_subset _ hword) d hd,
        hkept.symbols word hword d hd]
      rfl
    rw [tidy, hpass, Text.trim_eq_self htight]

end Layout

/-! ### Building -/

section Build

variable {config : Config} {words parts : List (List Char)}

theorem Splits.eq_phrase {z : Zone} {text : List Char} (h : Splits [' '] z text parts) :
    text = phrase parts := by
  induction h with
  | last => simp [phrase]
  | @next z first rest segments _ hrest ih =>
    obtain ⟨second, others, rfl⟩ := List.exists_cons_of_ne_nil hrest.ne_nil
    rw [phrase_cons, ← ih, List.append_assoc]
    rfl

theorem phrase_trim_sublist (parts : List (List Char)) :
    (phrase (parts.map Text.trim)).Sublist (phrase parts) := by
  induction parts with
  | nil => exact .slnil
  | cons first rest ih =>
    cases rest with
    | nil => simpa [phrase] using Text.trim_sublist first
    | cons next rest =>
      rw [List.map_cons, List.map_cons, phrase_cons, phrase_cons, ← List.map_cons]
      exact (Text.trim_sublist first).append (.cons_cons ' ' ih)

/-- A row that comes back as its tokens had nothing that the normal form could take away. -/
theorem tidy_phrase_of_tokens (h : tokens (phrase parts) = .ok parts) :
    tidy (phrase parts) = phrase parts := by
  rcases segments_of_tokens h with ⟨htidy, rfl⟩ | ⟨-, segments, hsegments, hparts⟩
  · exact htidy
  · have hphrase : tidy (phrase parts) = phrase segments := hsegments.splits.eq_phrase
    have hshorter : (tidy (phrase parts)).length ≤ (phrase parts).length :=
      (Text.trim_sublist _).length_le.trans (length_tidyFrom_le _ _ _)
    have hsublist : (phrase parts).Sublist (tidy (phrase parts)) := by
      rw [hphrase]
      conv_lhs => rw [hparts]
      exact phrase_trim_sublist segments
    exact (hsublist.eq_of_length_le hshorter).symm

theorem Reads.eq_word {inner : List Char → Except QueryError Built} {token : List Char}
    {item : Pending} {term : Built} {text : String} (h : Reads config inner token item)
    (hitem : item = .term term) (hnode : term.node = .word text) : text = String.ofList token := by
  cases h <;> cases hitem <;> cases hnode
  rfl

theorem eq_words_of_reads {inner : List Char → Except QueryError Built} {terms : List Built}
    (hreads : List.Forall₂ (Reads config inner) parts (terms.map .term))
    (hnodes : terms.map (·.node) = words.map fun word => .word (String.ofList word)) :
    parts = words := by
  induction terms generalizing parts words with
  | nil =>
    cases hreads
    exact (List.map_eq_nil_iff.mp hnodes.symm).symm
  | cons term rest ih =>
    cases hreads with
    | cons hread hrest =>
      cases words with
      | nil => cases hnodes
      | cons word words =>
        obtain ⟨hnode, hnodes⟩ := List.cons.inj hnodes
        have hword := hread.eq_word rfl hnode
        rw [ih hrest hnodes, String.ofList_injective hword]

/-- A row of words is built to the words as they were written when the normal form leaves their escapes
alone, and only then. -/
theorem build_phrase_iff (config : Config) (words : List (List Char)) (hne : words ≠ [])
    (h : ∀ word ∈ words, EscapedWord word) (hlimit : 2 ≤ heightLimit config) :
    build config (phrase words) =
        .ok (.root (words.map fun word => .word (String.ofList word))) ↔ Kept words := by
  rw [build, map_eq_ok]
  constructor
  · rintro ⟨built, hbuilt, hnode⟩
    obtain ⟨parts, items, terms, hparts, hreads, hfold, rfl, -⟩ := buildFrom_eq_ok.mp hbuilt
    have hnodes : terms.map (·.node) = words.map fun word => .word (String.ofList word) :=
      Node.root.inj hnode
    have hterms : ∀ term ∈ terms, term.node.kind.nests = false := by
      intro term hterm
      have hmem := List.mem_map_of_mem (f := (·.node)) hterm
      rw [hnodes] at hmem
      obtain ⟨word, -, hword⟩ := List.mem_map.mp hmem
      rw [← hword]
      rfl
    obtain rfl := (fold_eq_ok_iff_of_no_operator hterms).mp hfold
    obtain rfl := eq_words_of_reads hreads hnodes
    exact (tidy_phrase_eq_iff hne h).mp (tidy_phrase_of_tokens hparts)
  · intro hkept
    have htokens : tokens (phrase words) = .ok words :=
      tokens_of_tidy ((tidy_phrase_eq_iff hne h).mpr hkept) hne fun word hword =>
        (h word hword).solid (hkept.ends word hword)
    let terms : List Built := words.map fun word => ⟨.word (String.ofList word), 1⟩
    have hheight : tallest terms ≤ 1 := by
      rw [tallest_le_iff]
      simp [terms]
    have hreads : List.Forall₂ (Reads config (buildFrom config config.maxDepth.toNat)) words
        (terms.map .term) := by
      rw [List.map_map, List.forall₂_map_right_iff, List.forall₂_same]
      exact fun word hword => (h word hword).reads (by omega) _
    refine ⟨rootOf terms, buildFrom_eq_ok.mpr ⟨words, _, terms, htokens, hreads, fold_terms _, rfl, ?_⟩, ?_⟩
    · omega
    · simp [rootOf, terms]

/-- A word with an escape is no keyword. -/
theorem EscapedWord.of_mem {word : List Char} (h : Escaped word) (hmem : '\\' ∈ word) :
    EscapedWord word :=
  { Proper.of_mem hmem (by decide) with escaped := h }

/-- A quote, a parenthesis, a space, symbols, a comma, a backslash and a keyword, each escaped. -/
theorem build_phrase_of_escapes :
    let words := ["\\\"\\(x".toList, "a\\ \\=\\,".toList, "\\\\".toList, "\\NOT".toList,
      "b\\<".toList]
    words ≠ [] ∧ (∀ word ∈ words, EscapedWord word) ∧ 2 ≤ heightLimit {} ∧ Kept words ∧
      build {} (phrase words) = .ok (.root [.word "\\\"\\(x", .word "a\\ \\=\\,",
        .word "\\\\", .word "\\NOT", .word "b\\<"]) := by
  intro words
  have hwords : ∀ word ∈ words, EscapedWord word := by
    simp only [words, List.forall_mem_cons]
    refine ⟨.of_mem ?_ (by decide), .of_mem ?_ (by decide), .of_mem ?_ (by decide),
      .of_mem ?_ (by decide), .of_mem ?_ (by decide), by simp⟩
    · exact .escape '"' (.escape '(' (.plain (by decide) .nil))
    · exact .plain (by decide) (.escape ' ' (.escape '=' (.escape ',' .nil)))
    · exact .escape '\\' .nil
    · exact .escape 'N' (.plain (by decide) (.plain (by decide) .nil))
    · exact .plain (by decide) (.escape '<' .nil)
  have hkept : Kept words := by
    refine ⟨by decide, ?_, ?_⟩
    · simp [words]
      decide
    · simp [words]
      decide
  have hlimit : 2 ≤ heightLimit {} := by decide
  exact ⟨by decide, hwords, hlimit, hkept,
    (build_phrase_iff {} words (by decide) hwords hlimit).mpr hkept⟩

/-- Behind an escaped symbol and behind an escaped space the space between two words is lost, and an
escaped tab does not stay a tab. -/
theorem build_phrase_of_lost_escapes :
    (∀ word ∈ ["a\\=".toList, "a\\ ".toList, "a\\\tb".toList, "b".toList], EscapedWord word) ∧
      2 ≤ heightLimit {} ∧
      build {} (phrase ["a\\=".toList, "b".toList]) = .ok (.root [.word "a\\=b"]) ∧
      build {} (phrase ["a\\ ".toList, "b".toList]) = .ok (.root [.word "a\\ b"]) ∧
      build {} (phrase ["a\\\tb".toList]) = .ok (.root [.word "a\\ b"]) := by
  refine ⟨?_, by decide, by decide +kernel, by decide +kernel, by decide +kernel⟩
  simp only [List.forall_mem_cons]
  refine ⟨.of_mem ?_ (by decide), .of_mem ?_ (by decide), .of_mem ?_ (by decide), ?_, by simp⟩
  · exact .plain (by decide) (.escape '=' .nil)
  · exact .plain (by decide) (.escape ' ' .nil)
  · exact .plain (by decide) (.escape '\t' (.plain (by decide) .nil))
  · exact { Proper.of_mem (List.mem_singleton_self 'b') (by decide) with
      escaped := .plain (by decide) .nil }

end Build

end RowSearch.Query
