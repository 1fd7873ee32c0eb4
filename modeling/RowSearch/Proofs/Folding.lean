import RowSearch.Proofs.Expression
import RowSearch.Query.Eval
/-!
# Matching without regard to case

Without regard to case a pattern and a text are both lower-cased, each as a whole, and then matched. That
keeps nearly all matches, but not all, as two characters are special. The dotted capital I becomes two
characters, which is one too many for a `_` that stood for it. A capital sigma becomes one of two letters,
and which one depends on the letters around it, in the pattern and in the text.

An alignment lays the characters of a pattern over parts of the text. Lower-casing maps each part to what
the lower-case form of its character covers, unless the character is a `_` over a dotted I or a sigma
that is at the end of a word on one side only. So the match is kept along every alignment without these.
-/

namespace RowSearch

/-! ### Lower-casing in context -/

namespace Text

/-- Whether the last character that case does not ignore is a letter with case. -/
def endsCased (text : List Char) : Bool :=
  startsCased text.reverse

/-- Whether a capital sigma between two texts is at the end of a word. -/
def isFinal (before after : List Char) : Bool :=
  endsCased before && !startsCased after

/-- The lower-case form that a part of a text has between what stands in front of it and behind it. -/
def lowerBetween (before : List Char) : (part after : List Char) → List Char
  | [], _ => []
  | c :: rest, after =>
    lowerChar (endsCased before) c (rest ++ after) ++ lowerBetween (before ++ [c]) rest after

theorem endsCased_concat (before : List Char) (c : Char) :
    endsCased (before ++ [c]) = if isCaseIgnorable c then endsCased before else isCased c := by
  by_cases hc : isCaseIgnorable c = true <;> simp [endsCased, startsCased, hc]

theorem lowerFrom_append (before part after : List Char) :
    lowerFrom (endsCased before) (part ++ after) =
      lowerBetween before part after ++ lowerFrom (endsCased (before ++ part)) after := by
  induction part generalizing before with
  | nil => simp [lowerBetween]
  | cons c rest ih =>
    rw [List.cons_append, lowerFrom, ← endsCased_concat, ih, lowerBetween]
    simp

theorem lowerBetween_append (before x y after : List Char) :
    lowerBetween before (x ++ y) after =
      lowerBetween before x (y ++ after) ++ lowerBetween (before ++ x) y after := by
  induction x generalizing before with
  | nil => simp [lowerBetween]
  | cons c rest ih => simp [lowerBetween, ih]

theorem lowercase_eq (text : List Char) : lowercase text = lowerBetween [] text [] := by
  have h := lowerFrom_append [] text []
  rwa [lowerFrom, List.append_nil, List.append_nil] at h

/-- The lower-case form of a text is made of those of its parts. -/
theorem lowercase_append (before part after : List Char) :
    lowercase (before ++ part ++ after) =
      lowerBetween [] before (part ++ after) ++ lowerBetween before part after ++
        lowerBetween (before ++ part) after [] := by
  rw [lowercase_eq, lowerBetween_append, lowerBetween_append]
  simp

/-! ### Single characters -/

section Chars

variable {b b' : Bool} {c : Char} {x y : List Char}

theorem lowerChar_sigma (before after : List Char) :
    lowerChar (endsCased before) 'Σ' after = if isFinal before after then ['ς'] else ['σ'] := rfl

/-- Only a capital sigma looks at its neighbours. -/
theorem lowerChar_congr (h : c ≠ 'Σ') : lowerChar b c x = lowerChar b' c y := by
  rw [lowerChar, lowerChar, if_neg h, if_neg h]

/-- Only the dotted capital I becomes more than one character. -/
theorem exists_lowerChar (h : c ≠ 'İ') : ∃ d, lowerChar b c x = [d] := by
  rw [lowerChar, if_neg h]
  split
  · split <;> exact ⟨_, rfl⟩
  · exact ⟨_, rfl⟩

theorem lowerIn_or_le {runs : List CaseRun} (h : ∀ run ∈ runs, 0x60 ≤ run.lower) (n : Nat) :
    lowerIn runs n = n ∨ 0x60 ≤ lowerIn runs n := by
  induction runs with
  | nil => exact .inl rfl
  | cons run rest ih =>
    obtain ⟨hrun, hrest⟩ := List.forall_mem_cons.mp h
    rw [lowerIn]
    split_ifs
    · exact .inl rfl
    · right
      omega
    · exact .inl rfl
    · exact ih hrest

theorem le_lower : ∀ run ∈ caseRuns, 0x60 ≤ run.lower := by
  decide +kernel

end Chars

end Text

open Text (lowercase lowerFrom lowerChar lowerBetween endsCased isFinal)

namespace Wildcard

/-! ### Wildcards -/

section Wildcards

variable {b : Bool} {c : Char} {after : List Char}

theorem not_isWildcard_ofNat {n : Nat} (h : 0x60 ≤ n) : isWildcard (Char.ofNat n) = false := by
  have hvalue : (Char.ofNat n).toNat = n ∨ (Char.ofNat n).toNat = 0 := by
    by_cases hvalid : n.isValidChar
    · exact .inl (congrArg Char.toNat (dif_pos hvalid))
    · exact .inr (congrArg Char.toNat (dif_neg hvalid))
  have hne {c : Char} (hpos : 0 < c.toNat) (hc : c.toNat < 0x60) : Char.ofNat n ≠ c := by
    rintro rfl
    omega
  have hrun : Char.ofNat n ≠ '*' := hne (by decide) (by decide)
  have hone : Char.ofNat n ≠ '_' := hne (by decide) (by decide)
  simp [isWildcard, hrun, hone]

/-- No wildcard comes out of another character. -/
theorem not_isWildcard_of_mem_lowerChar (hc : isWildcard c = false) :
    ∀ d ∈ lowerChar b c after, isWildcard d = false := by
  rw [lowerChar]
  split_ifs
  · exact List.forall_mem_singleton.mpr rfl
  · exact List.forall_mem_singleton.mpr rfl
  · exact List.forall_mem_cons.mpr ⟨rfl, List.forall_mem_singleton.mpr rfl⟩
  · intro d hd
    rw [List.mem_singleton] at hd
    subst hd
    rcases Text.lowerIn_or_le Text.le_lower c.toNat with heq | hle
    · rwa [heq, Char.ofNat_toNat]
    · exact not_isWildcard_ofNat hle

theorem not_isWildcard_of_mem_lowerFrom {text : List Char} (h : ∀ c ∈ text, isWildcard c = false)
    (b : Bool) : ∀ d ∈ lowerFrom b text, isWildcard d = false := by
  induction text generalizing b with
  | nil => exact List.forall_mem_nil _
  | cons c rest ih =>
    obtain ⟨hc, hrest⟩ := List.forall_mem_cons.mp h
    rw [lowerFrom]
    exact List.forall_mem_append.mpr ⟨not_isWildcard_of_mem_lowerChar hc, ih hrest _⟩

/-- Lower-casing makes no pattern of a plain text. -/
theorem hasWildcards_lowercase {text : List Char} (h : hasWildcards text = false) :
    hasWildcards (lowercase text) = false := by
  have hnone : ∀ c ∈ text, isWildcard c = false := by simpa [hasWildcards] using h
  have hlower : ∀ d ∈ lowercase text, isWildcard d = false := not_isWildcard_of_mem_lowerFrom hnone false
  simpa [hasWildcards] using hlower

end Wildcards

/-! ### Alignments -/

/-- A character of a pattern over a part of a text. -/
structure Step where
  char : Char
  part : List Char

/-- A pattern laid over a text, or over a part of it when it floats: each character of the pattern takes
what lies under it. -/
structure Alignment (anchoring : Anchoring) (pattern text : List Char) where
  before : List Char
  steps : List Step
  after : List Char
  pattern_eq : pattern = steps.map (·.char)
  text_eq : text = before ++ steps.flatMap (·.part) ++ after
  takes : ∀ step ∈ steps, (Piece.ofChar step.char).Takes step.part
  whole : anchoring = .anchored → before = [] ∧ after = []

/-- In some steps with these characters and this text in front of them, and this text behind them, no
`_` lies over a dotted capital I, and each capital sigma is at the end of a word in the pattern just if
it is in the text. -/
def StableFrom (front before after : List Char) : List Step → Prop
  | [] => True
  | step :: rest =>
    (step.char = '_' → step.part ≠ ['İ']) ∧
      (step.char = 'Σ' →
        isFinal front (rest.map (·.char)) = isFinal before (rest.flatMap (·.part) ++ after)) ∧
      StableFrom (front ++ [step.char]) (before ++ step.part) after rest

instance decidableStableFrom (front before after : List Char) :
    (steps : List Step) → Decidable (StableFrom front before after steps)
  | [] => .isTrue trivial
  | step :: rest =>
    have := decidableStableFrom (front ++ [step.char]) (before ++ step.part) after rest
    inferInstanceAs (Decidable (_ ∧ _ ∧ _))

/-- Lower-casing does not change what lies over what. -/
def Alignment.Stable {anchoring : Anchoring} {pattern text : List Char}
    (a : Alignment anchoring pattern text) : Prop :=
  StableFrom [] a.before a.after a.steps

/-- Neither of the two special characters can make a difference. -/
def Simple (pattern text : List Char) : Prop :=
  'Σ' ∉ pattern ∧ ('_' ∉ pattern ∨ 'İ' ∉ text)

/-- A match of a pattern in a text, if there is one, does not depend on the case of a special character. -/
def Foldable (anchoring : Anchoring) (pattern text : List Char) : Prop :=
  (∃ a : Alignment anchoring pattern text, a.Stable) ∨ Simple pattern text

section Alignments

variable {anchoring : Anchoring} {pattern text : List Char} {steps : List Step}

theorem covers_append {p q x y : List Char} (h : Covers p x) (hmore : Covers q y) :
    Covers (p ++ q) (x ++ y) := by
  induction h with
  | nil => exact hmore
  | anyRun run _ ih =>
    rw [List.append_assoc]
    exact .anyRun run ih
  | anyOne c _ ih => exact .anyOne c ih
  | exactly hrun hone _ ih => exact .exactly hrun hone ih

/-- Every pattern covers itself as a text. -/
theorem covers_refl (pattern : List Char) : Covers pattern pattern := by
  induction pattern with
  | nil => exact .nil
  | cons c rest ih =>
    by_cases hrun : c = '*'
    · subst hrun
      exact .anyRun ['*'] ih
    · by_cases hone : c = '_'
      · subst hone
        exact .anyOne '_' ih
      · exact .exactly hrun hone ih

theorem covers_anyRun (text : List Char) : Covers ['*'] text := by
  have h := Covers.anyRun text .nil
  rwa [List.append_nil] at h

theorem exists_steps_of_covers {part : List Char} (h : Covers pattern part) :
    ∃ steps : List Step, pattern = steps.map (·.char) ∧ part = steps.flatMap (·.part) ∧
      ∀ step ∈ steps, (Piece.ofChar step.char).Takes step.part := by
  induction h with
  | nil => exact ⟨[], rfl, rfl, by simp⟩
  | anyRun run _ ih =>
    obtain ⟨steps, rfl, rfl, htakes⟩ := ih
    exact ⟨⟨'*', run⟩ :: steps, rfl, rfl, List.forall_mem_cons.mpr ⟨trivial, htakes⟩⟩
  | anyOne c _ ih =>
    obtain ⟨steps, rfl, rfl, htakes⟩ := ih
    exact ⟨⟨'_', [c]⟩ :: steps, rfl, rfl, List.forall_mem_cons.mpr ⟨⟨c, rfl⟩, htakes⟩⟩
  | @exactly c _ _ hrun hone _ ih =>
    obtain ⟨steps, rfl, rfl, htakes⟩ := ih
    refine ⟨⟨c, [c]⟩ :: steps, rfl, rfl, List.forall_mem_cons.mpr ⟨?_, htakes⟩⟩
    rw [Piece.ofChar_of_ne hrun hone]
    rfl

/-- What a pattern matches it can be laid over. -/
theorem nonempty_alignment (h : CoversAt anchoring pattern text) :
    Nonempty (Alignment anchoring pattern text) := by
  cases anchoring with
  | anchored =>
    obtain ⟨steps, hpattern, htext, htakes⟩ := exists_steps_of_covers h
    exact ⟨⟨[], steps, [], hpattern, by simpa using htext, htakes, fun _ => ⟨rfl, rfl⟩⟩⟩
  | floating =>
    obtain ⟨part, ⟨before, after, rfl⟩, hpart⟩ := h
    obtain ⟨steps, hpattern, rfl, htakes⟩ := exists_steps_of_covers hpart
    exact ⟨⟨before, steps, after, hpattern, rfl, htakes, fun h => nomatch h⟩⟩

theorem stableFrom_of_forall {front before after : List Char}
    (h : ∀ step ∈ steps, step.char ≠ 'Σ' ∧ (step.char = '_' → step.part ≠ ['İ'])) :
    StableFrom front before after steps := by
  induction steps generalizing front before with
  | nil => trivial
  | cons step rest ih =>
    obtain ⟨⟨hsigma, hone⟩, hrest⟩ := List.forall_mem_cons.mp h
    exact ⟨hone, fun heq => absurd heq hsigma, ih hrest⟩

theorem Simple.stable (h : Simple pattern text) (a : Alignment anchoring pattern text) :
    a.Stable := by
  obtain ⟨hsigma, hdotted⟩ := h
  rw [a.pattern_eq] at hsigma hdotted
  apply stableFrom_of_forall
  intro step hstep
  have hmem : step.char ∈ a.steps.map (·.char) := List.mem_map_of_mem hstep
  refine ⟨fun heq => hsigma (heq ▸ hmem), fun heq hpart => ?_⟩
  rcases hdotted with hnone | hnone
  · exact hnone (heq ▸ hmem)
  · apply hnone
    rw [a.text_eq]
    have hdot : 'İ' ∈ a.steps.flatMap (·.part) :=
      List.mem_flatMap.mpr ⟨step, hstep, by rw [hpart]; exact List.mem_singleton_self _⟩
    simp [hdot]

/-- In lower case a character of a pattern takes what it took. -/
theorem covers_lowerChar {c : Char} {part front before rest after : List Char}
    (htakes : (Piece.ofChar c).Takes part) (hone : c = '_' → part ≠ ['İ'])
    (hsigma : c = 'Σ' → isFinal front rest = isFinal before after) :
    Covers (lowerChar (endsCased front) c rest) (lowerBetween before part after) := by
  by_cases hrun : c = '*'
  · subst hrun
    exact covers_anyRun _
  · by_cases hplain : c = '_'
    · subst hplain
      obtain ⟨d, rfl⟩ := htakes
      obtain ⟨e, he⟩ := Text.exists_lowerChar (b := endsCased before) (x := after)
        fun heq : d = 'İ' => hone rfl (congrArg (fun d => [d]) heq)
      have hlower : lowerBetween before [d] after = [e] := by simpa [lowerBetween] using he
      rw [hlower]
      exact .anyOne e .nil
    · rw [Piece.ofChar_of_ne hrun hplain] at htakes
      obtain rfl : part = [c] := htakes
      have hlower : lowerBetween before [c] after = lowerChar (endsCased front) c rest := by
        by_cases heq : c = 'Σ'
        · subst heq
          simp [lowerBetween, Text.lowerChar_sigma, hsigma rfl]
        · simpa [lowerBetween] using Text.lowerChar_congr heq
      rw [hlower]
      exact covers_refl _

theorem covers_lowerBetween {front before after : List Char}
    (htakes : ∀ step ∈ steps, (Piece.ofChar step.char).Takes step.part)
    (hstable : StableFrom front before after steps) :
    Covers (lowerBetween front (steps.map (·.char)) [])
      (lowerBetween before (steps.flatMap (·.part)) after) := by
  induction steps generalizing front before with
  | nil => exact .nil
  | cons step rest ih =>
    obtain ⟨hfirst, hrest⟩ := List.forall_mem_cons.mp htakes
    obtain ⟨hone, hsigma, hstable⟩ := hstable
    rw [List.map_cons, lowerBetween, List.append_nil, List.flatMap_cons, Text.lowerBetween_append]
    exact covers_append (covers_lowerChar hfirst hone hsigma) (ih hrest hstable)

/-- Along a stable alignment the pattern matches the text, also in lower case. -/
theorem Alignment.Stable.coversAt {a : Alignment anchoring pattern text} (h : a.Stable) :
    CoversAt anchoring (lowercase pattern) (lowercase text) := by
  have hcovers := covers_lowerBetween a.takes h
  rw [← a.pattern_eq, ← Text.lowercase_eq] at hcovers
  have hlower := Text.lowercase_append a.before (a.steps.flatMap (·.part)) a.after
  rw [← a.text_eq] at hlower
  cases anchoring with
  | anchored =>
    obtain ⟨hbefore, hafter⟩ := a.whole rfl
    rw [hbefore, hafter] at hlower hcovers
    rw [hlower]
    simpa [lowerBetween, CoversAt] using hcovers
  | floating => exact ⟨_, ⟨_, _, hlower.symm⟩, hcovers⟩

theorem Foldable.coversAt (h : Foldable anchoring pattern text)
    (hcovers : CoversAt anchoring pattern text) :
    CoversAt anchoring (lowercase pattern) (lowercase text) := by
  rcases h with ⟨a, ha⟩ | hsimple
  · exact ha.coversAt
  · obtain ⟨a⟩ := nonempty_alignment hcovers
    exact (hsimple.stable a).coversAt

end Alignments

end Wildcard

/-! ### Matching -/

namespace Query

open Wildcard

/-- Without regard to case a matcher finds what it finds with regard to it, for patterns that it takes as
patterns in either form and that no special character gets in the way of. What it does not take as a
pattern it finds in any case, where a whole text is compared. -/
structure KeepsMatches (matcher : Matcher Id) (takes : List Char → Anchoring → Prop)
    (config : Config) : Prop where
  truthy : ∀ (row : Row) (pattern : String), takes pattern.toList .floating →
    takes (lowercase pattern.toList) .floating →
    Foldable .floating pattern.toList row.raw.toList →
    truthy matcher { config with caseSensitive := true } row (.text pattern) = true →
    truthy matcher { config with caseSensitive := false } row (.text pattern) = true
  equals : ∀ left right : Value,
    (takes right.display.toList .anchored →
      takes (lowercase right.display.toList) .anchored ∧
        Foldable .anchored right.display.toList left.display.toList) →
    equals matcher { config with caseSensitive := true } left right = true →
    equals matcher { config with caseSensitive := false } left right = true

/-- A way of matching that decides what patterns cover, and compares what it does not take for one. -/
theorem keepsMatches {found : List Char → Anchoring → List Char → Bool}
    {takes : List Char → Anchoring → Prop} (config : Config)
    (hfound : ∀ pattern anchoring text, takes pattern anchoring →
      (found pattern anchoring text = true ↔ CoversAt anchoring pattern text))
    (hplain : ∀ pattern anchoring text, ¬takes pattern anchoring →
      found pattern anchoring text = matchesPlain pattern anchoring text) :
    KeepsMatches found takes config where
  truthy row pattern htakes hlower hfold h := by
    have hcovers := (hfound _ _ _ htakes).mp h
    exact (hfound _ _ _ hlower).mpr (hfold.coversAt hcovers)
  equals left right hfold h := by
    by_cases htakes : takes right.display.toList .anchored
    · obtain ⟨hlower, hfold⟩ := hfold htakes
      have hcovers := (hfound _ _ _ htakes).mp h
      exact (hfound _ _ _ hlower).mpr (hfold.coversAt hcovers)
    · have hmatch : matchesPlain right.display.toList .anchored left.display.toList = true :=
        (hplain _ _ _ htakes).symm.trans h
      have hequal : left.display.toList = right.display.toList := by simpa [matchesPlain] using hmatch
      have hself : found (lowercase right.display.toList) .anchored
          (lowercase right.display.toList) = true := by
        by_cases hlower : takes (lowercase right.display.toList) .anchored
        · exact (hfound _ _ _ hlower).mpr (covers_refl _)
        · rw [hplain _ _ _ hlower]
          simp [matchesPlain]
      show found _ .anchored (lowercase left.display.toList) = true
      rw [hequal]
      exact hself

/-- Lower-casing keeps the matches of every pattern that an engine takes in both forms, if the engine works
as documented and no special character gets in the way. A pattern without wildcards is taken in both. -/
theorem lowercase_keeps_matches (engine : Engine) (hengine : engine.Documented) (config : Config) :
    KeepsMatches (plainMatcher engine) engine.Takes config ∧
      ∀ pattern anchoring, hasWildcards pattern = false →
        engine.Takes pattern anchoring ∧ engine.Takes (lowercase pattern) anchoring := by
  constructor
  · apply keepsMatches
    · exact fun pattern anchoring text htakes => hengine.matchesPattern_iff text htakes
    · exact fun pattern anchoring text hrefused => Engine.matchesPattern_of_not_takes hrefused text
  · exact fun pattern anchoring hplain => ⟨.inl hplain, .inl (hasWildcards_lowercase hplain)⟩

/-- Whether a row with a searchable text and nothing else matches a pattern. -/
def foundIn (raw pattern : String) (caseSensitive : Bool) : Bool :=
  truthy plainMatcher { caseSensitive } (Row.ofList [(rawName, .text raw)]) (.text pattern)

/-- A `_` over a letter, a sigma at the end of a word in the pattern and in the text, and a dotted I that
`*` takes. -/
theorem lowercase_keeps_matches_of_final_sigma :
    Engine.tables.Documented ∧ Engine.tables.Takes "Α_ΟΣ*".toList .floating ∧
      Engine.tables.Takes (lowercase "Α_ΟΣ*".toList) .floating ∧
      Foldable .floating "Α_ΟΣ*".toList "x ΑΦΟΣ İ".toList ∧
      foundIn "x ΑΦΟΣ İ" "Α_ΟΣ*" true = true ∧ foundIn "x ΑΦΟΣ İ" "Α_ΟΣ*" false = true := by
  have htakes : Engine.tables.Takes "Α_ΟΣ*".toList .floating := Engine.takes_tables (by decide) _
  have hlower : Engine.tables.Takes (lowercase "Α_ΟΣ*".toList) .floating :=
    Engine.takes_tables (by decide +kernel) _
  have hfold : Foldable .floating "Α_ΟΣ*".toList "x ΑΦΟΣ İ".toList := by
    let a : Alignment .floating "Α_ΟΣ*".toList "x ΑΦΟΣ İ".toList :=
      { before := ['x', ' ']
        steps := [⟨'Α', ['Α']⟩, ⟨'_', ['Φ']⟩, ⟨'Ο', ['Ο']⟩, ⟨'Σ', ['Σ']⟩, ⟨'*', [' ', 'İ']⟩]
        after := []
        pattern_eq := by decide
        text_eq := by decide
        takes := by simp [Piece.ofChar, Piece.Takes]
        whole := fun h => nomatch h }
    have hstable : StableFrom [] a.before a.after a.steps := by decide +kernel
    exact .inl ⟨a, hstable⟩
  have hsensitive : foundIn "x ΑΦΟΣ İ" "Α_ΟΣ*" true = true := by decide +kernel
  have hraw : (Row.ofList [(rawName, .text "x ΑΦΟΣ İ")]).raw = "x ΑΦΟΣ İ" := by decide +kernel
  obtain ⟨hkeeps, -⟩ := lowercase_keeps_matches Engine.tables Engine.documented_tables {}
  refine ⟨Engine.documented_tables, htakes, hlower, hfold, hsensitive,
    hkeeps.truthy _ "Α_ΟΣ*" htakes hlower ?_ hsensitive⟩
  rw [hraw]
  exact hfold

/-- A `_` that stood for a dotted I, and a sigma that is at the end of a word in the pattern only. -/
theorem lowercase_loses_matches :
    (foundIn "aİb" "a_b" true = true ∧ foundIn "aİb" "a_b" false = false) ∧
      (foundIn "ΑΣΑ" "ΑΣ" true = true ∧ foundIn "ΑΣΑ" "ΑΣ" false = false) ∧
      equals plainMatcher { caseSensitive := true } (.text "İ") (.text "_") = true ∧
      equals plainMatcher { caseSensitive := false } (.text "İ") (.text "_") = false := by
  refine ⟨by decide +kernel, by decide +kernel, ?_, ?_⟩
  · show matchesPattern ['_'] .anchored ['İ'] = true
    decide
  · show matchesPattern ['_'] .anchored ['i', '\u0307'] = false
    decide

end Query

end RowSearch
