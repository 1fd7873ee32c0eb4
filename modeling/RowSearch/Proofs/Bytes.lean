import RowSearch.Proofs.Partner
/-!
# Bytes and characters

The marks of a query are characters of one byte, and no byte of a longer character is a mark. So a scan
over bytes that steps one byte behind a backslash may come out within a character, but there it goes
through what is left of that character without an effect, and it is at the next character before it
finds anything. The searches that count in bytes find the same places as searches that take a whole
character behind a backslash.

An offset is a boundary when it is the end of the text or the place of the first byte of a character. A
slice is only there between two boundaries. The boundaries of a text are the ends of the texts that it
starts with, so the proofs speak of a text in front of an offset instead of the offset.
-/

namespace RowSearch.Query

open Zone (top inQuote inGroup)

/-! ### The bytes of a text -/

theorem utf8_cons (c : Char) (rest : List Char) :
    utf8 (c :: rest) = String.utf8EncodeChar c ++ utf8 rest := rfl

theorem utf8_append (a b : List Char) : utf8 (a ++ b) = utf8 a ++ utf8 b :=
  List.flatMap_append

def byteLength (text : List Char) : Nat :=
  (utf8 text).length

@[simp] theorem byteLength_nil : byteLength [] = 0 := rfl

@[simp] theorem byteLength_cons (c : Char) (rest : List Char) :
    byteLength (c :: rest) = c.utf8Size + byteLength rest := by
  rw [byteLength, utf8_cons, List.length_append, String.length_utf8EncodeChar, byteLength]

@[simp] theorem byteLength_append (a b : List Char) :
    byteLength (a ++ b) = byteLength a + byteLength b := by
  rw [byteLength, utf8_append, List.length_append, byteLength, byteLength]

theorem byteLength_pos {text : List Char} (h : text ≠ []) : 0 < byteLength text := by
  obtain ⟨c, rest, rfl⟩ := List.exists_cons_of_ne_nil h
  rw [byteLength_cons]
  exact Nat.add_pos_left c.utf8Size_pos _

theorem byteLength_eq_zero {text : List Char} : byteLength text = 0 ↔ text = [] := by
  constructor
  · intro h
    by_contra hne
    exact absurd h (Nat.ne_of_gt (byteLength_pos hne))
  · intro h
    rw [h, byteLength_nil]

def lead (c : Char) : UInt8 :=
  (String.utf8EncodeChar c).head String.utf8EncodeChar_ne_nil

theorem utf8EncodeChar_eq (c : Char) :
    String.utf8EncodeChar c = lead c :: (String.utf8EncodeChar c).tail :=
  (List.cons_head_tail _).symm

theorem utf8_cons_eq (c : Char) (rest : List Char) :
    utf8 (c :: rest) = lead c :: ((String.utf8EncodeChar c).tail ++ utf8 rest) := by
  conv_lhs => rw [utf8_cons, utf8EncodeChar_eq]
  rfl

theorem utf8Size_eq (c : Char) : c.utf8Size = (String.utf8EncodeChar c).tail.length + 1 := by
  rw [← String.length_utf8EncodeChar, utf8EncodeChar_eq, List.length_cons]
  rfl

theorem isFirst_lead (c : Char) : (lead c).IsUTF8FirstByte := by
  rw [lead, List.head_eq_getElem]
  exact UInt8.isUTF8FirstByte_getElem_utf8EncodeChar.mpr rfl

theorem not_isFirst_of_mem_tail {c : Char} {b : UInt8} (h : b ∈ (String.utf8EncodeChar c).tail) :
    ¬b.IsUTF8FirstByte := by
  obtain ⟨i, hi, rfl⟩ := List.getElem_of_mem h
  rw [List.getElem_tail, UInt8.isUTF8FirstByte_getElem_utf8EncodeChar]
  exact Nat.succ_ne_zero i

/-- A byte below 0x80 comes first in one character only, the one with the same number. -/
theorem lead_eq_iff {c : Char} {b : UInt8} (hb : b.toNat < 0x80) :
    lead c = b ↔ c = Char.ofUInt8 b := by
  have hchar : c = Char.ofUInt8 b ↔ c.val.toNat = b.toNat := by
    rw [Char.ext_iff, ← UInt32.toNat_inj]
    rfl
  rw [hchar, ← UInt8.toNat_inj]
  simp only [lead, String.utf8EncodeChar]
  split_ifs <;> simp only [List.head_cons, UInt8.toNat_ofNat'] <;> omega

/-- A byte within a character is none of the bytes below 0x80. -/
theorem not_isFirst_ne {b b' : UInt8} (hb : ¬b.IsUTF8FirstByte) (hb' : b'.IsUTF8FirstByte) : b ≠ b' := by
  rintro rfl
  exact hb hb'

theorem ofByte_lead (c : Char) : Mark.ofByte (lead c) = Mark.ofChar c := by
  simp only [Mark.ofByte, Mark.ofChar, lead_eq_iff (b := 0x5C) (by decide),
    lead_eq_iff (b := 0x22) (by decide), lead_eq_iff (b := 0x28) (by decide),
    lead_eq_iff (b := 0x29) (by decide)]
  rfl

theorem ofByte_of_not_isFirst {b : UInt8} (hb : ¬b.IsUTF8FirstByte) : Mark.ofByte b = .neutral := by
  rw [Mark.ofByte, if_neg (not_isFirst_ne hb (by decide)), if_neg (not_isFirst_ne hb (by decide)),
    if_neg (not_isFirst_ne hb (by decide)), if_neg (not_isFirst_ne hb (by decide))]

/-- Equal bytes start with equal characters. -/
theorem eq_of_utf8EncodeChar_append {c d : Char} {x y : List UInt8}
    (h : String.utf8EncodeChar c ++ x = String.utf8EncodeChar d ++ y) : c = d := by
  have hbytes : (String.utf8EncodeChar c).toByteArray ++ x.toByteArray =
      (String.utf8EncodeChar d).toByteArray ++ y.toByteArray := by
    rw [← List.toByteArray_append, ← List.toByteArray_append, h]
  have hdecode := ByteArray.utf8DecodeChar?_utf8EncodeChar_append (b := x.toByteArray) (c := c)
  rw [hbytes, ByteArray.utf8DecodeChar?_utf8EncodeChar_append] at hdecode
  exact (Option.some.inj hdecode).symm

/-- A text starts with another one just when its bytes start with those of the other. -/
theorem utf8_prefix_iff {a b : List Char} : utf8 a <+: utf8 b ↔ a <+: b := by
  constructor
  · intro h
    induction a generalizing b with
    | nil => exact List.nil_prefix
    | cons c a ih =>
      obtain ⟨x, hx⟩ := h
      cases b with
      | nil =>
        rw [utf8_cons_eq] at hx
        cases hx
      | cons d b =>
        rw [utf8_cons, utf8_cons, List.append_assoc] at hx
        cases eq_of_utf8EncodeChar_append hx
        exact List.cons_prefix_cons.mpr ⟨rfl, ih ⟨x, List.append_cancel_left hx⟩⟩
  · intro h
    obtain ⟨x, rfl⟩ := h
    exact ⟨utf8 x, (utf8_append a x).symm⟩

/-! ### Boundaries -/

/-- Whether an offset is the end of a text or the place of the first byte of a character. -/
def isBoundary (text : List Char) (i : Nat) : Bool :=
  match (utf8 text)[i]? with
  | some b => b.IsUTF8FirstByte
  | none => i = byteLength text

theorem getElem?_utf8 (before : List Char) (c : Char) (rest : List Char) :
    (utf8 (before ++ c :: rest))[byteLength before]? = some (lead c) := by
  rw [utf8_append, byteLength, List.getElem?_append_right (Nat.le_refl _), Nat.sub_self,
    utf8_cons_eq]
  rfl

theorem isBoundary_append (before after : List Char) :
    isBoundary (before ++ after) (byteLength before) = true := by
  rw [isBoundary]
  cases after with
  | nil => simp [byteLength]
  | cons c rest =>
    rw [getElem?_utf8]
    exact decide_eq_true (isFirst_lead c)

/-- Behind the first character the boundaries are those of the rest. -/
theorem isBoundary_cons (c : Char) (rest : List Char) (k : Nat) :
    isBoundary (c :: rest) (c.utf8Size + k) = isBoundary rest k := by
  have hbyte : (utf8 (c :: rest))[c.utf8Size + k]? = (utf8 rest)[k]? := by
    rw [utf8_cons, ← String.length_utf8EncodeChar, List.getElem?_append_right (Nat.le_add_right _ _),
      Nat.add_sub_cancel_left]
  rw [isBoundary, isBoundary, hbyte, byteLength_cons]
  simp

/-- No byte within a character is at a boundary. -/
theorem not_isBoundary_within {c : Char} {rest : List Char} {i : Nat} (hne : i ≠ 0)
    (hi : i < c.utf8Size) : isBoundary (c :: rest) i = false := by
  rw [← String.length_utf8EncodeChar] at hi
  rw [isBoundary, utf8_cons, List.getElem?_append_left hi, List.getElem?_eq_getElem hi]
  exact decide_eq_false (mt UInt8.isUTF8FirstByte_getElem_utf8EncodeChar.mp hne)

theorem isBoundary_iff {text : List Char} {i : Nat} :
    isBoundary text i = true ↔ ∃ before after, text = before ++ after ∧ i = byteLength before := by
  constructor
  · intro h
    induction text generalizing i with
    | nil => exact ⟨[], [], rfl, of_decide_eq_true h⟩
    | cons c rest ih =>
      by_cases hzero : i = 0
      · exact ⟨[], c :: rest, rfl, hzero⟩
      · by_cases hwithin : i < c.utf8Size
        · rw [not_isBoundary_within hzero hwithin] at h
          cases h
        · obtain ⟨k, rfl⟩ := Nat.exists_eq_add_of_le (Nat.le_of_not_lt hwithin)
          rw [isBoundary_cons] at h
          obtain ⟨before, after, rfl, rfl⟩ := ih h
          exact ⟨c :: before, after, rfl, (byteLength_cons c before).symm⟩
  · intro h
    obtain ⟨before, after, rfl, rfl⟩ := h
    exact isBoundary_append before after

section Within

variable {text before rest : List Char} {c : Char}

theorem getElem?_of_eq (htext : text = before ++ c :: rest) :
    (utf8 text)[byteLength before]? = some (lead c) := by
  rw [htext, getElem?_utf8]

theorem getElem?_within (htext : text = before ++ c :: rest) {k : Nat} (hk : k + 1 < c.utf8Size) :
    ∃ b, (utf8 text)[byteLength before + 1 + k]? = some b ∧ ¬b.IsUTF8FirstByte := by
  rw [utf8Size_eq, Nat.add_lt_add_iff_right] at hk
  refine ⟨(String.utf8EncodeChar c).tail[k], ?_, not_isFirst_of_mem_tail (List.getElem_mem hk)⟩
  have hle : (utf8 before).length ≤ byteLength before + 1 + k := by
    rw [byteLength]
    omega
  have hsub : byteLength before + 1 + k - (utf8 before).length = k + 1 := by
    rw [byteLength]
    omega
  rw [htext, utf8_append, List.getElem?_append_right hle, hsub, utf8_cons_eq, List.getElem?_cons_succ,
    List.getElem?_append_left hk, List.getElem?_eq_getElem hk]

/-- A scan that takes no notice of the bytes within characters is at the end of a character when it has
gone one byte into it. -/
theorem through_char {α : Type} {f : Nat → α}
    (hwithin : ∀ i b, (utf8 text)[i]? = some b → ¬b.IsUTF8FirstByte → f i = f (i + 1))
    (htext : text = before ++ c :: rest) : f (byteLength before + 1) = f (byteLength (before ++ [c])) := by
  have hbytes : ∀ k, k < c.utf8Size → f (byteLength before + 1) = f (byteLength before + 1 + k) := by
    intro k
    induction k with
    | zero => exact fun _ => rfl
    | succ k ih =>
      intro hk
      obtain ⟨b, hbyte, hb⟩ := getElem?_within htext hk
      rw [ih (by omega), hwithin _ b hbyte hb, Nat.add_assoc]
  have hpos := c.utf8Size_pos
  have hend : byteLength (before ++ [c]) = byteLength before + 1 + (c.utf8Size - 1) := by
    rw [byteLength_append, byteLength_cons, byteLength_nil]
    omega
  rw [hend]
  exact hbytes _ (by omega)

/-- A scan that steps over one byte behind a backslash is behind the next character when that one is over. -/
theorem through_escape {α : Type} {f : Nat → α}
    (hwithin : ∀ i b, (utf8 text)[i]? = some b → ¬b.IsUTF8FirstByte → f i = f (i + 1))
    (hescape : f (byteLength before) = f (byteLength before + 2))
    (htext : text = before ++ '\\' :: c :: rest) :
    f (byteLength before) = f (byteLength (before ++ ['\\', c])) := by
  have hnext : text = (before ++ ['\\']) ++ c :: rest := by rw [htext, List.append_assoc]; rfl
  have hstep := through_char hwithin hnext
  rw [List.append_assoc, byteLength_append] at hstep
  rw [hescape]
  exact hstep

/-- Two bytes on from a backslash that comes last a scan is behind the end. -/
theorem byteLength_le_of_dangling (htext : text = before ++ ['\\']) :
    byteLength text ≤ byteLength before + 2 := by
  have hescape : byteLength ['\\'] = 1 := rfl
  rw [htext, byteLength_append, hescape]
  exact Nat.le_succ _

end Within

/-! ### Slices -/

/-- The text between two offsets. There is none when the offsets are in the wrong order, or one of them
is no boundary of the text. -/
def slice? (text : List Char) (start stop : Nat) : Option (List Char) :=
  if start ≤ stop ∧ isBoundary text start ∧ isBoundary text stop then
    (((utf8 text).take stop).drop start).toByteArray.utf8Decode?.map Array.toList
  else none

theorem slice?_append (before part after : List Char) :
    slice? (before ++ part ++ after) (byteLength before) (byteLength (before ++ part)) = some part := by
  have hstart : isBoundary (before ++ part ++ after) (byteLength before) = true := by
    rw [List.append_assoc]
    exact isBoundary_append _ _
  have hbytes : (((utf8 (before ++ part ++ after)).take (byteLength (before ++ part))).drop
      (byteLength before)) = utf8 part := by
    rw [byteLength, byteLength, utf8_append (before ++ part), List.take_left, utf8_append, List.drop_left]
  rw [slice?, if_pos ⟨by simp, hstart, isBoundary_append _ _⟩, hbytes]
  show (List.utf8Encode part).utf8Decode?.map Array.toList = some part
  rw [List.utf8Decode?_utf8Encode]
  rfl

theorem slice?_front (part after : List Char) : slice? (part ++ after) 0 (byteLength part) = some part :=
  slice?_append [] part after

theorem slice?_rest (before after : List Char) :
    slice? (before ++ after) (byteLength before) (byteLength (before ++ after)) = some after := by
  have h := slice?_append before after []
  rwa [List.append_nil] at h

/-! ### Searches over whole characters -/

/-- The offset of the quote that ends a quoted span, for the text behind the opening quote and the offset
where it starts. A backslash takes the character behind it along, however many bytes that has. -/
def quoteEndByChars? (offset : Nat) : List Char → Option Nat
  | [] | ['\\'] => none
  | '\\' :: c :: rest => quoteEndByChars? (offset + 1 + c.utf8Size) rest
  | '"' :: _ => some offset
  | c :: rest => quoteEndByChars? (offset + c.utf8Size) rest

/-- The offset of the parenthesis that closes a group, for the text behind the opening parenthesis and the
offset where it starts; `inner` groups are open within the group, and a quote is open or not. -/
def groupEndByChars? (inner : Nat) (quoted : Bool) (offset : Nat) : List Char → Option Nat
  | [] | ['\\'] => none
  | '\\' :: c :: rest => groupEndByChars? inner quoted (offset + 1 + c.utf8Size) rest
  | '"' :: rest => groupEndByChars? inner (!quoted) (offset + 1) rest
  | c :: rest =>
    if quoted = false ∧ c = '(' then groupEndByChars? (inner + 1) false (offset + 1) rest
    else if quoted = false ∧ c = ')' then
      if inner = 0 then some offset else groupEndByChars? (inner - 1) false (offset + 1) rest
    else groupEndByChars? inner quoted (offset + c.utf8Size) rest

namespace Zone

/-- The offset of the first character that brings a scan to the top, for a text that starts at an offset. -/
def closingOffset? (z : Zone) (offset : Nat) (text : List Char) : Option Nat :=
  (z.closing? (marks text)).map fun n => offset + byteLength (text.take n)

variable {z : Zone}

theorem closingOffset?_cons (z : Zone) (offset : Nat) (c : Char) (rest : List Char) :
    z.closingOffset? offset (c :: rest) =
      if z.step (Mark.ofChar c) = top then some offset
      else (z.step (Mark.ofChar c)).closingOffset? (offset + c.utf8Size) rest := by
  rw [closingOffset?, closing?_cons]
  split
  · rfl
  · rw [closingOffset?, Option.map_map]
    refine Option.map_congr fun n _ => ?_
    rw [Function.comp_apply, List.take_succ_cons, byteLength_cons, Nat.add_assoc]

theorem closingOffset?_escape (hz : z.escaped = false) (hne : z ≠ top) (offset : Nat) (c : Char)
    (rest : List Char) :
    z.closingOffset? offset ('\\' :: c :: rest) = z.closingOffset? (offset + 1 + c.utf8Size) rest := by
  obtain ⟨d, q, e⟩ := z
  cases hz
  have hescape : (⟨d, q, false⟩ : Zone).step (Mark.ofChar '\\') = ⟨d, q, true⟩ := rfl
  have hnext : (⟨d, q, true⟩ : Zone).step (Mark.ofChar c) = ⟨d, q, false⟩ := rfl
  rw [closingOffset?_cons, hescape, if_neg (by simp [top]), closingOffset?_cons, hnext, if_neg hne]
  rfl

theorem closingOffset?_dangling (hz : z.escaped = false) (offset : Nat) :
    z.closingOffset? offset ['\\'] = none := by
  obtain ⟨d, q, e⟩ := z
  cases hz
  have hescape : (⟨d, q, false⟩ : Zone).step (Mark.ofChar '\\') = ⟨d, q, true⟩ := rfl
  rw [closingOffset?_cons, hescape, if_neg (by simp [top])]
  rfl

end Zone

/-- What is read by itself is no backslash, as a backslash comes with a character or is the end. -/
theorem ne_escape_of_alone {c : Char} {rest : List Char} (hend : c = '\\' → rest = [] → False)
    (hpair : ∀ d more, c = '\\' → rest = d :: more → False) : c ≠ '\\' := by
  intro hc
  cases rest with
  | nil => exact hend hc rfl
  | cons d more => exact hpair d more hc rfl

theorem quoteEndByChars?_eq (offset : Nat) (text : List Char) :
    quoteEndByChars? offset text = inQuote.closingOffset? offset text := by
  fun_induction quoteEndByChars? offset text with
  | case1 => rfl
  | case2 => exact (Zone.closingOffset?_dangling rfl _).symm
  | case3 offset c rest ih => rw [ih, Zone.closingOffset?_escape rfl (by decide)]
  | case4 => rfl
  | case5 offset c rest hend hpair hquote ih =>
    have hescape := ne_escape_of_alone hend hpair
    rw [ih, Zone.closingOffset?_cons, inQuote, Zone.step_quoted hescape hquote, if_neg (by decide)]

theorem groupEndByChars?_eq (inner : Nat) (quoted : Bool) (offset : Nat) (text : List Char) :
    groupEndByChars? inner quoted offset text =
      (⟨inner + 1, quoted, false⟩ : Zone).closingOffset? offset text := by
  fun_induction groupEndByChars? inner quoted offset text with
  | case1 => rfl
  | case2 => exact (Zone.closingOffset?_dangling rfl _).symm
  | case3 inner quoted offset c rest ih => rw [ih, Zone.closingOffset?_escape rfl (by simp [top])]
  | case4 inner quoted offset rest ih =>
    rw [ih, Zone.closingOffset?_cons]
    rfl
  | case5 inner quoted offset c rest hend hpair hquote h ih =>
    obtain ⟨rfl, rfl⟩ := h
    rw [ih, Zone.closingOffset?_cons]
    rfl
  | case6 quoted offset c rest hend hpair hquote hopening h =>
    obtain ⟨rfl, rfl⟩ := h
    rfl
  | case7 inner quoted offset c rest hend hpair hquote hopening h hinner ih =>
    obtain ⟨rfl, rfl⟩ := h
    obtain ⟨k, rfl⟩ := Nat.exists_eq_succ_of_ne_zero hinner
    rw [ih, Zone.closingOffset?_cons]
    rfl
  | case8 inner quoted offset c rest hend hpair hquote hopening hclosing ih =>
    have hescape := ne_escape_of_alone hend hpair
    have hstep : (⟨inner + 1, quoted, false⟩ : Zone).step (Mark.ofChar c) = ⟨inner + 1, quoted, false⟩ := by
      cases quoted with
      | true => exact Zone.step_quoted hescape hquote
      | false =>
        have hneutral : Mark.ofChar c = .neutral :=
          Mark.ofChar_eq_neutral.mpr ⟨hescape, hquote, by simpa using hopening, by simpa using hclosing⟩
        rw [hneutral]
        rfl
    rw [ih, Zone.closingOffset?_cons, hstep, if_neg (by simp [top])]

/-! ### Searches over bytes -/

namespace Zone

variable {z : Zone}

/-- A search goes through the bytes within a character without an effect. -/
theorem closing?_within (hz : z.escaped = false) (hne : z ≠ top) {bytes : List UInt8}
    (h : ∀ b ∈ bytes, ¬b.IsUTF8FirstByte) (more : List Mark) :
    z.closing? (bytes.map Mark.ofByte ++ more) = (z.closing? more).map (bytes.length + ·) := by
  induction bytes with
  | nil => simp
  | cons b bytes ih =>
    obtain ⟨hb, hrest⟩ := List.forall_mem_cons.mp h
    rw [List.map_cons, List.cons_append, closing?, ofByte_of_not_isFirst hb, step_neutral,
      settle_of_not_escaped hz, if_neg hne, ih hrest, Option.map_map]
    refine Option.map_congr fun n _ => ?_
    rw [Function.comp_apply, List.length_cons]
    omega

/-- A character of more than one byte leaves no backslash behind. -/
theorem tail_eq_nil_or_not_escaped (z : Zone) (c : Char) :
    (String.utf8EncodeChar c).tail = [] ∨ (z.step (Mark.ofChar c)).escaped = false := by
  cases hc : Mark.ofChar c with
  | neutral => exact .inr (by rw [step_neutral, settle_escaped])
  | escape => exact .inl (Mark.ofChar_eq_escape.mp hc ▸ rfl)
  | quote => exact .inl (Mark.ofChar_eq_quote.mp hc ▸ rfl)
  | opening => exact .inl (Mark.ofChar_eq_opening.mp hc ▸ rfl)
  | closing => exact .inl (Mark.ofChar_eq_closing.mp hc ▸ rfl)

theorem closing?_utf8 (z : Zone) (offset : Nat) (text : List Char) :
    (z.closing? ((utf8 text).map Mark.ofByte)).map (offset + ·) = z.closingOffset? offset text := by
  induction text generalizing z offset with
  | nil => rfl
  | cons c rest ih =>
    rw [closingOffset?_cons, utf8_cons_eq, List.map_cons, List.map_append, ofByte_lead, closing?]
    split
    · rfl
    · next hne =>
      have hwithin : (z.step (Mark.ofChar c)).closing?
          ((String.utf8EncodeChar c).tail.map Mark.ofByte ++ (utf8 rest).map Mark.ofByte) =
            ((z.step (Mark.ofChar c)).closing? ((utf8 rest).map Mark.ofByte)).map
              ((String.utf8EncodeChar c).tail.length + ·) := by
        rcases tail_eq_nil_or_not_escaped z c with hnil | hescaped
        · rw [hnil]
          simp
        · exact closing?_within hescaped hne (fun _ => not_isFirst_of_mem_tail) _
      rw [hwithin, ← ih, Option.map_map, Option.map_map, utf8Size_eq]
      refine Option.map_congr fun n _ => ?_
      simp only [Function.comp_apply]
      omega

end Zone

section EndFrom

variable {z : Zone} {text : List Char} {start offset e : Nat}

/-- From a character on, the search over bytes finds what the search over characters finds. -/
theorem endFrom?_eq (hz : z.escaped = false) (hne : z ≠ top) (before : List Char) (c : Char)
    (rest : List Char) :
    endFrom? z (before ++ c :: rest) (byteLength before + 1) =
      z.closingOffset? (byteLength before + c.utf8Size) rest := by
  have hdrop : (utf8 (before ++ c :: rest)).drop (byteLength before + 1) =
      (String.utf8EncodeChar c).tail ++ utf8 rest := by
    rw [utf8_append, byteLength, List.drop_append, utf8_cons_eq]
    simp
  rw [endFrom?, hdrop, List.map_append, Zone.closing?_within hz hne (fun _ => not_isFirst_of_mem_tail),
    ← Zone.closing?_utf8, Option.map_map, utf8Size_eq]
  refine Option.map_congr fun n _ => ?_
  simp only [Function.comp_apply]
  omega

/-- A search from a character on ends at the character that brings it to the top. -/
theorem endFrom?_of_closing (hz : z.escaped = false) (hne : z ≠ top) {before body after : List Char}
    {c d : Char} (htext : text = before ++ c :: (body ++ d :: after))
    (h : z.closing? (marks (body ++ d :: after)) = some body.length) :
    endFrom? z text (byteLength before + 1) = some (byteLength (before ++ c :: body)) := by
  rw [htext, endFrom?_eq hz hne, Zone.closingOffset?, h, Option.map_some, List.take_left, byteLength_append,
    byteLength_cons, Nat.add_assoc]

theorem endFrom?_of_unclosed (hz : z.escaped = false) (hne : z ≠ top) {before rest : List Char} {c : Char}
    (htext : text = before ++ c :: rest) (h : z.closing? (marks rest) = none) :
    endFrom? z text (byteLength before + 1) = none := by
  rw [htext, endFrom?_eq hz hne, Zone.closingOffset?, h]
  rfl

theorem endFrom?_end (z : Zone) (text : List Char) : endFrom? z text (byteLength text + 1) = none := by
  rw [endFrom?, byteLength, List.drop_of_length_le (Nat.le_succ _)]
  rfl

/-- What a search over characters finds that starts behind the character at an offset. -/
def atChar? (find? : Nat → List Char → Option Nat) (text : List Char) (start : Nat) : Option Nat :=
  match slice? text start (byteLength text) with
  | some (c :: rest) => find? (start + c.utf8Size) rest
  | _ => none

theorem endFrom?_eq_atChar? (hz : z.escaped = false) (hne : z ≠ top) {find? : Nat → List Char → Option Nat}
    (hfind : ∀ offset text, find? offset text = z.closingOffset? offset text)
    (hstart : isBoundary text start = true) : endFrom? z text (start + 1) = atChar? find? text start := by
  obtain ⟨before, after, rfl, rfl⟩ := isBoundary_iff.mp hstart
  rw [atChar?, slice?_rest]
  cases after with
  | nil =>
    rw [List.append_nil]
    exact endFrom?_end z before
  | cons c rest =>
    rw [endFrom?_eq hz hne]
    exact (hfind _ _).symm

theorem endFrom?_inQuote_eq_atChar? (hstart : isBoundary text start = true) :
    endFrom? inQuote text (start + 1) = atChar? quoteEndByChars? text start :=
  endFrom?_eq_atChar? rfl (by decide) quoteEndByChars?_eq hstart

theorem endFrom?_inGroup_eq_atChar? (hstart : isBoundary text start = true) :
    endFrom? inGroup text (start + 1) = atChar? (groupEndByChars? 0 false) text start :=
  endFrom?_eq_atChar? rfl (by decide) (groupEndByChars?_eq 0 false) hstart

/-! ### Where the searches end -/

def Inside (text : List Char) (i : Nat) : Prop :=
  i < byteLength text ∧ isBoundary text i = true

theorem inside_of_getElem? {b : UInt8} (h : (utf8 text)[e]? = some b) (hb : b.IsUTF8FirstByte) :
    Inside text e := by
  obtain ⟨hlt, -⟩ := List.getElem?_eq_some_iff.mp h
  refine ⟨hlt, ?_⟩
  rw [isBoundary, h]
  exact decide_eq_true hb

theorem inside_of_inQuote (h : endFrom? inQuote text offset = some e) : offset ≤ e ∧ Inside text e := by
  obtain ⟨hle, hbyte, -⟩ := (endFrom?_eq_some finds_quote).mp h
  exact ⟨hle, inside_of_getElem? hbyte (by decide)⟩

theorem inside_of_inGroup (h : endFrom? inGroup text offset = some e) : offset ≤ e ∧ Inside text e := by
  obtain ⟨hle, hbyte, -⟩ := (endFrom?_eq_some finds_group).mp h
  exact ⟨hle, inside_of_getElem? hbyte (by decide)⟩

end EndFrom

end RowSearch.Query
