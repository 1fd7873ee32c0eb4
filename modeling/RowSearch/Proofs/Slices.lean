import RowSearch.Proofs.Offsets
/-!
# Slices at the offsets that are found

Normalizing a query and splitting it at separators, done on bytes: the offsets of a scan say where a text
is cut, and a slice that is out of place leaves no result at all, not even an error. Both have a result
for every text, the one that is found character by character.

The scan for separators is behind the whole of a span, of an escaped character or of a separator in one
step. Each of them is a text that the scan over characters carries along. What has been read of a segment
stands between the start of the segment and the scan, so the slice at its end is the whole segment.
-/

namespace RowSearch.Query

open Zone (top inQuote inGroup)

/-! ### Computations with slices -/

/-- A computation that may fail with an error, and has no result when a slice is out of place. -/
abbrev Checked : Type → Type :=
  ExceptT QueryError Option

section Checked

variable {α β : Type}

/-- The computation with all slices in place. -/
def total (x : Except QueryError α) : Checked α :=
  ExceptT.mk (some x)

theorem slice_bind (a : α) (f : α → Checked β) : (liftM (some a) : Checked α) >>= f = f a := rfl

theorem total_bind {x : Except QueryError α} {f : α → Checked β} {g : α → Except QueryError β}
    (h : ∀ a, f a = total (g a)) : total x >>= f = total (x >>= g) := by
  cases x with
  | error e => rfl
  | ok a => exact h a

theorem lift_bind (x : Except QueryError α) (f : α → Except QueryError β) {g : α → Checked β}
    (h : ∀ a, g a = total (f a)) : (liftM x : Checked α) >>= g = total (x >>= f) :=
  total_bind h

theorem total_map (x : Except QueryError α) (f : α → β) :
    (do return f (← total x) : Checked β) = total (x.map f) := by
  cases x <;> rfl

theorem total_mapM {f : α → Checked β} {g : α → Except QueryError β} (h : ∀ a, f a = total (g a))
    (xs : List α) : xs.mapM f = total (xs.mapM g) := by
  induction xs with
  | nil => rfl
  | cons x xs ih =>
    rw [List.mapM_cons, List.mapM_cons, h, ih]
    exact total_bind fun _ => total_bind fun _ => rfl

end Checked

namespace Sliced

/-! ### Definitions -/

/-- The normal form of a text from an offset on, where the next quoted span comes. What stands between
spans is squeezed and tightened, and the spans are copied with their quotes. -/
def normalizeFrom (text : List Char) (cursor : Nat) : List (Nat × Nat) → Option (List Char)
  | [] => do
    let bare ← slice? text cursor (byteLength text)
    return tighten (Text.squeeze bare)
  | (opening, closing) :: spans => do
    let bare ← slice? text cursor opening
    let quoted ← slice? text opening (closing + 1)
    let rest ← normalizeFrom text (closing + 1) spans
    return tighten (Text.squeeze bare) ++ (quoted ++ rest)

def normalize (text : List Char) : Checked (List Char) := do
  let spans ← quoteOffsets text
  let out ← normalizeFrom text 0 spans
  return Text.trim out

/-- The segments of a text from an offset on, for a segment that started at another. -/
def segmentsFrom (separator text : List Char) (hne : separator ≠ []) (start i : Nat) :
    Checked (List (List Char)) :=
  if hi : i < (utf8 text).length then
    match Mark.ofByte (utf8 text)[i] with
    | .escape => segmentsFrom separator text hne start (i + 2)
    | .quote =>
      match hend : endFrom? .inQuote text (i + 1) with
      | none => throw .mismatchedQuotes
      | some e =>
        have := (inside_of_inQuote hend).1
        segmentsFrom separator text hne start (e + 1)
    | .opening =>
      match hend : endFrom? .inGroup text (i + 1) with
      | none => throw .mismatchedParenthesis
      | some e =>
        have := (inside_of_inGroup hend).1
        segmentsFrom separator text hne start (e + 1)
    | .closing => throw .mismatchedParenthesis
    | .neutral =>
      if (utf8 separator).isPrefixOf ((utf8 text).drop i) then do
        have := byteLength_pos hne
        let part ← slice? text start i
        let parts ← segmentsFrom separator text hne (i + byteLength separator) (i + byteLength separator)
        return Text.trim part :: parts
      else segmentsFrom separator text hne start (i + 1)
  else do
    let part ← slice? text start (byteLength text)
    return [Text.trim part]
termination_by (utf8 text).length - i

def splitAt (separator text : List Char) : Checked (List (List Char)) :=
  let body := trimSeparators separator text
  if body = [] then return []
  else if hne : separator = [] then return [body]
  else segmentsFrom separator body hne 0 0

end Sliced

/-! ### Normal forms -/

section Normal

variable {text before rest : List Char} {segments : List Segment}

theorem quoteOffsets_eq (text : List Char) : quoteOffsets text = (Segment.cut text).map (quotedOffsets 0) :=
  quoteOffsetsFrom_eq [] rfl

/-- Every slice between the quotes is a segment, with the quotes if it is a quoted one. -/
theorem Sliced.normalizeFrom_eq (before : List Char) (h : Spans rest segments)
    (htext : text = before ++ rest) :
    normalizeFrom text (byteLength before) (quotedOffsets (byteLength before) segments) =
      some (segments.flatMap fun segment => segment.normal.source) := by
  induction h generalizing before with
  | last rest =>
    rw [quotedOffsets, quotedOffsets, normalizeFrom, htext, slice?_rest]
    simp [Segment.normal, Segment.source]
  | @next first body after tail hbody _ ih =>
    have hquote : '"'.utf8Size = 1 := rfl
    have hfirst : text = before ++ first ++ ('"' :: (body ++ '"' :: after)) := by simp [htext]
    have hspan : text = before ++ first ++ ('"' :: (body ++ ['"'])) ++ after := by simp [htext]
    have hopening : byteLength before + byteLength first = byteLength (before ++ first) := by simp
    have hbehind : byteLength (before ++ first) + 1 + byteLength body + 1 =
        byteLength (before ++ first ++ '"' :: (body ++ ['"'])) := by
      simp [hquote]
      omega
    have hnext : byteLength (before ++ first) + byteLength body + 2 =
        byteLength (before ++ first ++ '"' :: (body ++ ['"'])) := by
      rw [← hbehind]
      omega
    have hbare : slice? text (byteLength before) (byteLength (before ++ first)) = some first := by
      rw [hfirst, slice?_append]
    have hquoted : slice? text (byteLength (before ++ first))
        (byteLength (before ++ first ++ '"' :: (body ++ ['"']))) = some ('"' :: (body ++ ['"'])) := by
      rw [hspan, slice?_append]
    rw [quotedOffsets, quotedOffsets, normalizeFrom, hopening, hbehind, hnext, hbare, hquoted, ih _ hspan]
    simp [Segment.normal, Segment.source]

theorem Sliced.normalize_eq (text : List Char) : normalize text = total (Query.normalize text) := by
  rw [normalize, Query.normalize, quoteOffsets_eq, Segment.cut]
  cases hcut : Segment.cutFrom false text with
  | error e => rfl
  | ok segments =>
    obtain ⟨first, tail, rfl, hcuts⟩ := Segment.exists_cuts hcut
    have hslices : normalizeFrom text 0 (quotedOffsets 0 (.bare first :: tail)) = some _ :=
      normalizeFrom_eq [] (spans_of_cuts hcuts) rfl
    show (ExceptT.lift (normalizeFrom text 0 _) : Checked _) >>= (fun out => pure (Text.trim out)) = _
    rw [Segment.ofText, hslices]
    rfl

end Normal

/-! ### The scan over characters -/

section Segments

variable {separator : List Char} {z : Zone}

def joinHead (text : List Char) : List (List Char) → List (List Char)
  | [] => []
  | first :: rest => (text ++ first) :: rest

theorem map_joinHead_nil {x : Except QueryError (List (List Char))} : x.map (joinHead []) = x := by
  rcases x with e | (_ | ⟨first, rest⟩) <;> rfl

theorem map_joinHead (a b : List Char) (x : Except QueryError (List (List Char))) :
    (x.map (joinHead b)).map (joinHead a) = x.map (joinHead (a ++ b)) := by
  rcases x with e | (_ | ⟨first, rest⟩)
  · rfl
  · rfl
  · simp [Except.map, joinHead]

theorem map_extendHead (c : Char) (x : Except QueryError (List (List Char))) :
    x.map (extendHead c) = x.map (joinHead [c]) := by
  rcases x with e | (_ | ⟨first, rest⟩) <;> rfl

theorem segmentsFrom_skip (z : Zone) (skip : Nat) (text : List Char) :
    segmentsFrom separator z skip text = segmentsFrom separator z 0 (text.drop skip) := by
  induction skip generalizing text with
  | zero => rfl
  | succ skip ih =>
    cases text with
    | nil => rw [List.drop_nil, segmentsFrom, segmentsFrom]
    | cons c rest => rw [segmentsFrom, ih, List.drop_succ_cons]

/-- At a separator the scan starts a new segment. -/
theorem segmentsFrom_separator {c : Char} {rest : List Char} (hc : Mark.ofChar c = .neutral)
    (hcut : separator.isPrefixOf (c :: rest) = true) :
    segmentsFrom separator top 0 (c :: rest) =
      (segmentsFrom separator top 0 (rest.drop (separator.length - 1))).map ([] :: ·) := by
  rw [segmentsFrom_cons, if_neg (by simp [hc]), if_pos ⟨rfl, hc, hcut⟩, segmentsFrom_skip]

/-- The scan carries a character along that is no cut and closes nothing. -/
theorem segmentsFrom_keep {c : Char} {rest : List Char} (hclosing : ¬(z = top ∧ Mark.ofChar c = .closing))
    (hcut : ¬(z = top ∧ Mark.ofChar c = .neutral ∧ separator.isPrefixOf (c :: rest) = true)) :
    segmentsFrom separator z 0 (c :: rest) =
      (segmentsFrom separator (z.step (Mark.ofChar c)) 0 rest).map (joinHead [c]) := by
  rw [segmentsFrom_cons, if_neg hclosing, if_neg hcut, map_extendHead]

/-- The scan carries a text along that never comes to the top. -/
theorem segmentsFrom_hidden {x : List Char} (h : Hides (fun _ => true) z x) (y : List Char) :
    segmentsFrom separator z 0 (x ++ y) = (segmentsFrom separator (z.run x) 0 y).map (joinHead x) := by
  induction x generalizing z with
  | nil => exact map_joinHead_nil.symm
  | cons c x ih =>
    have hne : z ≠ top := fun hz => nomatch h.1 hz
    rw [List.cons_append, segmentsFrom_keep (fun hc => hne hc.1) (fun hc => hne hc.1), ih h.2, map_joinHead]
    rfl

/-- The scan carries a mark along with the text behind it, up to where that comes to the top. -/
theorem segmentsFrom_marked {c : Char} {inner : List Char} (hneutral : Mark.ofChar c ≠ .neutral)
    (hclosing : Mark.ofChar c ≠ .closing) (hinner : Hides (fun _ => true) (top.step (Mark.ofChar c)) inner)
    (y : List Char) :
    segmentsFrom separator top 0 (c :: (inner ++ y)) =
      (segmentsFrom separator ((top.step (Mark.ofChar c)).run inner) 0 y).map (joinHead (c :: inner)) := by
  rw [segmentsFrom_keep (fun hc => hclosing hc.2) (fun hc => hneutral hc.2.1), segmentsFrom_hidden hinner,
    map_joinHead]
  rfl

def unclosedError (z : Zone) : QueryError :=
  if z.quoted then .mismatchedQuotes else .mismatchedParenthesis

theorem run_of_unclosed_quote {e : Bool} {rest : List Char}
    (h : (⟨0, true, e⟩ : Zone).closing? (marks rest) = none) :
    ∃ e', (⟨0, true, e⟩ : Zone).run rest = ⟨0, true, e'⟩ := by
  induction rest generalizing e with
  | nil => exact ⟨e, rfl⟩
  | cons c rest ih =>
    rw [Zone.closing?_cons] at h
    split at h
    · cases h
    · next hne =>
      have hrest := Option.map_eq_none_iff.mp h
      obtain ⟨e', hstep⟩ : ∃ e', (⟨0, true, e⟩ : Zone).step (Mark.ofChar c) = ⟨0, true, e'⟩ := by
        generalize Mark.ofChar c = m at hne
        cases e <;> cases m <;> first | exact ⟨_, rfl⟩ | exact absurd rfl hne
      rw [hstep] at hrest
      rw [Zone.run_cons, hstep]
      exact ih hrest

theorem depth_pos_of_unclosed {rest : List Char} (hdepth : 0 < z.depth)
    (h : z.closing? (marks rest) = none) : 0 < (z.run rest).depth := by
  induction rest generalizing z with
  | nil => exact hdepth
  | cons c rest ih =>
    rw [Zone.closing?_cons] at h
    split at h
    · cases h
    · next hne =>
      refine ih ?_ (Option.map_eq_none_iff.mp h)
      obtain ⟨d, q, e⟩ := z
      generalize Mark.ofChar c = m at hne
      cases e <;> cases m <;> cases q <;> simp [Zone.step, top] at hne hdepth ⊢ <;> omega

theorem segmentsFrom_of_unclosed {rest : List Char} (hz : z = inQuote ∨ z = inGroup)
    (h : z.closing? (marks rest) = none) : segmentsFrom separator z 0 rest = .error (unclosedError z) := by
  have hne := (Zone.of_opens hz).2
  have hhidden : segmentsFrom separator z 0 (rest ++ []) = _ :=
    segmentsFrom_hidden (hides_of_unclosed hne h) []
  rw [List.append_nil] at hhidden
  rcases hz with rfl | rfl
  · obtain ⟨e, hrun⟩ := run_of_unclosed_quote h
    rw [hhidden, inQuote, hrun, segmentsFrom]
    rfl
  · have hdepth := depth_pos_of_unclosed Nat.one_pos h
    rw [hhidden, segmentsFrom, if_pos hdepth]
    rfl

end Segments

/-! ### Segments -/

section Segments

variable {separator text before part rest : List Char} {hne : separator ≠ []} {start i : Nat} {b : UInt8}

theorem Sliced.segmentsFrom_of_byte (h : (utf8 text)[i]? = some b) :
    segmentsFrom separator text hne start i =
      match Mark.ofByte b with
      | .escape => segmentsFrom separator text hne start (i + 2)
      | .quote => (endFrom? .inQuote text (i + 1)).elim (throw .mismatchedQuotes) fun e =>
        segmentsFrom separator text hne start (e + 1)
      | .opening => (endFrom? .inGroup text (i + 1)).elim (throw .mismatchedParenthesis) fun e =>
        segmentsFrom separator text hne start (e + 1)
      | .closing => throw .mismatchedParenthesis
      | .neutral =>
        if (utf8 separator).isPrefixOf ((utf8 text).drop i) then do
          let part ← slice? text start i
          let parts ← segmentsFrom separator text hne (i + byteLength separator) (i + byteLength separator)
          return Text.trim part :: parts
        else segmentsFrom separator text hne start (i + 1) := by
  obtain ⟨hi, rfl⟩ := List.getElem?_eq_some_iff.mp h
  rw [segmentsFrom, dif_pos hi]
  cases Mark.ofByte (utf8 text)[i] with
  | escape | closing | neutral => rfl
  | quote | opening =>
    dsimp only
    split
    · next hend => rw [hend]; rfl
    · next e hend => rw [hend]; rfl

theorem Sliced.segmentsFrom_behind (hi : byteLength text ≤ i) :
    segmentsFrom separator text hne start i = do
      let part ← slice? text start (byteLength text)
      return [Text.trim part] := by
  rw [segmentsFrom]
  exact dif_neg (Nat.not_lt.mpr hi)

/-- Behind the end of the text the last segment is what has been read of it. -/
theorem Sliced.segmentsFrom_end (htext : text = before ++ part) (hi : byteLength text ≤ i) :
    segmentsFrom separator text hne (byteLength before) i = total (.ok [Text.trim part]) := by
  rw [segmentsFrom_behind hi, htext, slice?_rest]
  rfl

/-- A separator is found where it starts in the text. -/
theorem isPrefixOf_utf8 (htext : text = before ++ rest) :
    (utf8 separator).isPrefixOf ((utf8 text).drop (byteLength before)) = separator.isPrefixOf rest := by
  rw [htext, utf8_append, byteLength, List.drop_left, Bool.eq_iff_iff, List.isPrefixOf_iff_prefix,
    List.isPrefixOf_iff_prefix, utf8_prefix_iff]

/-- No separator is found within a character. -/
theorem isPrefixOf_utf8_within (hne : separator ≠ []) (h : (utf8 text)[i]? = some b)
    (hb : ¬b.IsUTF8FirstByte) : (utf8 separator).isPrefixOf ((utf8 text).drop i) = false := by
  obtain ⟨c, rest, rfl⟩ := List.exists_cons_of_ne_nil hne
  obtain ⟨hi, hbyte⟩ := List.getElem?_eq_some_iff.mp h
  have hlead : lead c ≠ b := fun heq => hb (heq ▸ isFirst_lead c)
  rw [List.drop_eq_getElem_cons hi, hbyte, utf8_cons_eq, List.isPrefixOf, beq_false_of_ne hlead,
    Bool.false_and]

theorem Sliced.segmentsFrom_within (h : (utf8 text)[i]? = some b) (hb : ¬b.IsUTF8FirstByte) :
    segmentsFrom separator text hne start i = segmentsFrom separator text hne start (i + 1) := by
  rw [segmentsFrom_of_byte h, ofByte_of_not_isFirst hb, isPrefixOf_utf8_within hne h hb]
  rfl

theorem Sliced.segmentsFrom_plain {c : Char} (htext : text = before ++ c :: rest)
    (hc : Mark.ofChar c = .neutral) (hcut : ¬separator.isPrefixOf (c :: rest) = true) :
    segmentsFrom separator text hne start (byteLength before) =
      segmentsFrom separator text hne start (byteLength (before ++ [c])) := by
  rw [segmentsFrom_of_byte (getElem?_of_eq htext), ofByte_lead, hc, isPrefixOf_utf8 htext,
    ← through_char (fun _ _ => segmentsFrom_within) htext]
  exact if_neg hcut

theorem Sliced.segmentsFrom_escape {c : Char} (htext : text = before ++ '\\' :: c :: rest) :
    segmentsFrom separator text hne start (byteLength before) =
      segmentsFrom separator text hne start (byteLength (before ++ ['\\', c])) :=
  through_escape (fun _ _ => segmentsFrom_within) (segmentsFrom_of_byte (getElem?_of_eq htext)) htext

/-- At an opening mark the scan goes on behind the span, and it fails if there is none. -/
theorem Sliced.segmentsFrom_of_opens {c : Char} {z : Zone} (htext : text = before ++ c :: rest)
    (h : Opens c z) :
    segmentsFrom separator text hne start (byteLength before) =
      (endFrom? z text (byteLength before + 1)).elim (throw (unclosedError z)) fun e =>
        segmentsFrom separator text hne start (e + 1) := by
  rw [segmentsFrom_of_byte (getElem?_of_eq htext), ofByte_lead, ← h.step]
  rcases h.mark with hc | hc <;> rw [hc] <;> rfl

theorem Sliced.segmentsFrom_dangling (htext : text = before ++ part ++ ['\\']) :
    segmentsFrom separator text hne (byteLength before) (byteLength (before ++ part)) =
      total (.ok [Text.trim (part ++ ['\\'])]) := by
  have hend := byteLength_le_of_dangling htext
  rw [segmentsFrom_of_byte (getElem?_of_eq htext), ofByte_lead]
  rw [List.append_assoc] at htext
  exact segmentsFrom_end htext hend

/-- At a separator a segment is cut off, and the next one starts behind it. -/
theorem Sliced.segmentsFrom_cut {c : Char} (htext : text = before ++ part ++ c :: rest)
    (hc : Mark.ofChar c = .neutral) (hcut : separator.isPrefixOf (c :: rest) = true) :
    segmentsFrom separator text hne (byteLength before) (byteLength (before ++ part)) = do
      let parts ← segmentsFrom separator text hne (byteLength (before ++ part ++ separator))
        (byteLength (before ++ part ++ separator))
      return Text.trim part :: parts := by
  have hslice : slice? text (byteLength before) (byteLength (before ++ part)) = some part := by
    rw [htext, slice?_append]
  rw [segmentsFrom_of_byte (getElem?_of_eq htext), ofByte_lead, hc, isPrefixOf_utf8 htext,
    byteLength_append (before ++ part)]
  dsimp only
  rw [if_pos hcut, hslice]
  rfl

/-- The scan over bytes finds the segments that the scan over characters finds, when it has read a part of
the first one. -/
theorem Sliced.segmentsFrom_eq (before part : List Char) (htext : text = before ++ part ++ rest) :
    segmentsFrom separator text hne (byteLength before) (byteLength (before ++ part)) =
      total (((Query.segmentsFrom separator top 0 rest).map (joinHead part)).map
        fun segments => segments.map Text.trim) := by
  induction rest using pieces_induction generalizing before part with
  | nil =>
    rw [List.append_nil] at htext
    rw [segmentsFrom_end htext (by rw [htext]), Query.segmentsFrom]
    simp [Except.map, joinHead, top]
  | dangling =>
    have hchars : Query.segmentsFrom separator top 0 ['\\'] = _ :=
      segmentsFrom_keep (by decide) fun h => absurd h.2.1 (by decide)
    rw [segmentsFrom_dangling htext, hchars]
    rfl
  | escape d rest ih =>
    have hescaped : top.step (Mark.ofChar '\\') ≠ top := by decide
    have hinner : Hides (fun _ => true) (top.step (Mark.ofChar '\\')) [d] :=
      ⟨fun hz => absurd hz hescaped, trivial⟩
    have hchars : Query.segmentsFrom separator top 0 ('\\' :: d :: rest) =
        (Query.segmentsFrom separator top 0 rest).map (joinHead ['\\', d]) :=
      segmentsFrom_marked (by decide) (by decide) hinner rest
    rw [segmentsFrom_escape htext, List.append_assoc, ih _ _ (by simp [htext]), hchars, map_joinHead]
  | unclosed c z rest h hunclosed =>
    have hchars : Query.segmentsFrom separator (top.step (Mark.ofChar c)) 0 rest =
        .error (unclosedError z) := by
      rw [h.step, segmentsFrom_of_unclosed h.zone hunclosed]
    rw [segmentsFrom_of_opens htext h, h.endFrom?_eq_none htext hunclosed,
      segmentsFrom_keep (fun hc => h.ne_closing hc.2) (fun hc => h.ne_neutral hc.2.1), hchars]
    rfl
  | span c z inner after h hspan ih =>
    obtain ⟨e, hend, he⟩ := h.exists_endFrom? hspan htext
    have hinner : Hides (fun _ => true) (top.step (Mark.ofChar c)) inner := h.step ▸ hspan.hides h.ne_top
    rw [segmentsFrom_of_opens htext h, hend, Option.elim_some, he, List.append_assoc,
      ih _ _ (by simp [htext]), segmentsFrom_marked h.ne_neutral h.ne_closing hinner, h.step, hspan.run,
      map_joinHead]
  | closing rest ih =>
    have hchars : Query.segmentsFrom separator top 0 (')' :: rest) = .error .mismatchedParenthesis := by
      rw [segmentsFrom_cons, if_pos ⟨rfl, rfl⟩]
    rw [segmentsFrom_of_byte (getElem?_of_eq htext), ofByte_lead, hchars]
    rfl
  | neutral c rest hc ih =>
    by_cases hcut : separator.isPrefixOf (c :: rest) = true
    · have hafter := drop_separator hne hcut
      have hle : (rest.drop (separator.length - 1)).length ≤ rest.length := by
        rw [List.length_drop]
        omega
      have hnext := ih _ hle (before ++ part ++ separator) []
        (by rw [htext, hafter, List.append_nil, List.append_assoc _ separator])
      rw [List.append_nil, map_joinHead_nil] at hnext
      rw [segmentsFrom_cut htext hc hcut, hnext, segmentsFrom_separator hc hcut]
      cases Query.segmentsFrom separator top 0 (rest.drop (separator.length - 1)) with
      | error e => rfl
      | ok segments => simp [Except.map, joinHead, total]
    · have hstep : top.step (Mark.ofChar c) = top := by rw [hc]; rfl
      rw [segmentsFrom_plain htext hc hcut, List.append_assoc,
        ih rest (Nat.le_refl _) _ _ (by simp [htext]), segmentsFrom_keep (by simp [hc]) (fun h => hcut h.2.2),
        hstep, map_joinHead]

theorem Sliced.splitAt_eq (separator text : List Char) :
    splitAt separator text = total (Query.splitAt separator text) := by
  rw [splitAt, Query.splitAt]
  split
  · rfl
  · split
    · rfl
    · next hne =>
      have h : segmentsFrom separator (trimSeparators separator text) hne 0 0 = _ :=
        segmentsFrom_eq [] [] rfl
      rw [map_joinHead_nil] at h
      exact h

end Segments

end RowSearch.Query
