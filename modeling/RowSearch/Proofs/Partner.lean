import RowSearch.Proofs.Atoms
/-!
# The partner of a quote and of a parenthesis

The searches that count in bytes find what the grammar of bytes says: the end of a quote is the next
quote that no backslash takes out of account, and the end of a group is the parenthesis up to which
quotes and parentheses come in pairs. There is at most one such place, and when there is none the
searches find none, wherever they start. Only behind the last machine word there is no word to go on
from, and a search that starts there goes on at the front of the text.

A scan sees no more of a byte than of the character with the same number. So bytes are read as such
characters here, and what is known of runs over characters holds for them.
-/

namespace RowSearch.Query

open Zone (top inQuote inGroup)

/-! ### Bytes between partners -/

/-- The bytes between a pair of quotes: a backslash comes with the byte behind it, and no other byte is a
quote. -/
inductive QuoteBytes : List UInt8 → Prop
  | nil : QuoteBytes []
  | escape (b : UInt8) {rest : List UInt8} : QuoteBytes rest → QuoteBytes (0x5C :: b :: rest)
  | plain {b : UInt8} {rest : List UInt8} :
    b ≠ 0x5C → b ≠ 0x22 → QuoteBytes rest → QuoteBytes (b :: rest)

/-- The bytes between a pair of parentheses: a backslash comes with the byte behind it, a quote with the
one that ends its span, an opening parenthesis with the one that closes its group, and every other byte
stands alone. -/
inductive GroupBytes : List UInt8 → Prop
  | nil : GroupBytes []
  | escape (b : UInt8) {rest : List UInt8} : GroupBytes rest → GroupBytes (0x5C :: b :: rest)
  | quoted {body rest : List UInt8} :
    QuoteBytes body → GroupBytes rest → GroupBytes (0x22 :: (body ++ 0x22 :: rest))
  | group {body rest : List UInt8} :
    GroupBytes body → GroupBytes rest → GroupBytes (0x28 :: (body ++ 0x29 :: rest))
  | plain {b : UInt8} {rest : List UInt8} :
    b ≠ 0x5C → b ≠ 0x22 → b ≠ 0x28 → b ≠ 0x29 → GroupBytes rest → GroupBytes (b :: rest)

theorem ofUInt8_injective {b b' : UInt8} (h : Char.ofUInt8 b = Char.ofUInt8 b') : b = b' := by
  have hval : b.toUInt32 = b'.toUInt32 := congrArg Char.val h
  exact UInt8.toUInt32_inj.mp hval

theorem ofByte_eq (b : UInt8) : Mark.ofByte b = Mark.ofChar (Char.ofUInt8 b) := by
  have hiff (b' : UInt8) : Char.ofUInt8 b = Char.ofUInt8 b' ↔ b = b' :=
    ⟨ofUInt8_injective, congrArg Char.ofUInt8⟩
  have hescape := hiff 0x5C
  have hquote := hiff 0x22
  have hopening := hiff 0x28
  have hclosing := hiff 0x29
  simp only [Mark.ofByte, Mark.ofChar, ← hescape, ← hquote, ← hopening, ← hclosing]
  rfl

theorem marks_map_ofUInt8 (bytes : List UInt8) :
    marks (bytes.map Char.ofUInt8) = bytes.map Mark.ofByte := by
  rw [marks, List.map_map]
  exact List.map_congr_left fun b _ => (ofByte_eq b).symm

theorem quoteBytes_of_map {bytes : List UInt8} (h : QuoteBody (bytes.map Char.ofUInt8)) :
    QuoteBytes bytes := by
  generalize htext : bytes.map Char.ofUInt8 = text at h
  induction h generalizing bytes with
  | nil =>
    rw [List.map_eq_nil_iff.mp htext]
    exact .nil
  | escape c _ ih =>
    obtain ⟨b, bytes, rfl, hb, htext⟩ := List.map_eq_cons_iff.mp htext
    obtain ⟨d, rest, rfl, -, hrest⟩ := List.map_eq_cons_iff.mp htext
    obtain rfl : b = 0x5C := ofUInt8_injective hb
    exact .escape d (ih hrest)
  | plain hescape hquote _ ih =>
    obtain ⟨b, rest, rfl, rfl, hrest⟩ := List.map_eq_cons_iff.mp htext
    refine .plain ?_ ?_ (ih hrest)
    · rintro rfl
      exact hescape rfl
    · rintro rfl
      exact hquote rfl

theorem QuoteBytes.map {bytes : List UInt8} (h : QuoteBytes bytes) :
    QuoteBody (bytes.map Char.ofUInt8) := by
  induction h with
  | nil => exact .nil
  | escape b _ ih => exact .escape _ ih
  | plain hescape hquote _ ih =>
    exact .plain (fun heq => hescape (ofUInt8_injective heq)) (fun heq => hquote (ofUInt8_injective heq)) ih

theorem groupBytes_of_map {bytes : List UInt8} (h : Atoms (bytes.map Char.ofUInt8)) :
    GroupBytes bytes := by
  generalize htext : bytes.map Char.ofUInt8 = text at h
  induction h generalizing bytes with
  | nil =>
    rw [List.map_eq_nil_iff.mp htext]
    exact .nil
  | escape c _ ih =>
    obtain ⟨b, bytes, rfl, hb, htext⟩ := List.map_eq_cons_iff.mp htext
    obtain ⟨d, rest, rfl, -, hrest⟩ := List.map_eq_cons_iff.mp htext
    obtain rfl : b = 0x5C := ofUInt8_injective hb
    exact .escape d (ih hrest)
  | quoted hbody _ ih =>
    obtain ⟨b, bytes, rfl, hb, htext⟩ := List.map_eq_cons_iff.mp htext
    obtain ⟨body, tail, rfl, rfl, htail⟩ := List.map_eq_append_iff.mp htext
    obtain ⟨b', rest, rfl, hb', hrest⟩ := List.map_eq_cons_iff.mp htail
    obtain rfl : b = 0x22 := ofUInt8_injective hb
    obtain rfl : b' = 0x22 := ofUInt8_injective hb'
    exact .quoted (quoteBytes_of_map hbody) (ih hrest)
  | group _ _ ihbody ihrest =>
    obtain ⟨b, bytes, rfl, hb, htext⟩ := List.map_eq_cons_iff.mp htext
    obtain ⟨body, tail, rfl, hbody, htail⟩ := List.map_eq_append_iff.mp htext
    obtain ⟨b', rest, rfl, hb', hrest⟩ := List.map_eq_cons_iff.mp htail
    obtain rfl : b = 0x28 := ofUInt8_injective hb
    obtain rfl : b' = 0x29 := ofUInt8_injective hb'
    exact .group (ihbody hbody) (ihrest hrest)
  | plain hescape hquote hopening hclosing _ ih =>
    obtain ⟨b, rest, rfl, rfl, hrest⟩ := List.map_eq_cons_iff.mp htext
    refine .plain ?_ ?_ ?_ ?_ (ih hrest)
    · rintro rfl
      exact hescape rfl
    · rintro rfl
      exact hquote rfl
    · rintro rfl
      exact hopening rfl
    · rintro rfl
      exact hclosing rfl

theorem GroupBytes.map {bytes : List UInt8} (h : GroupBytes bytes) :
    Atoms (bytes.map Char.ofUInt8) := by
  induction h with
  | nil => exact .nil
  | escape b _ ih => exact .escape _ ih
  | quoted hbody _ ih =>
    rw [List.map_cons, List.map_append, List.map_cons]
    exact .quoted hbody.map ih
  | group _ _ ihbody ihrest =>
    rw [List.map_cons, List.map_append, List.map_cons]
    exact .group ihbody ihrest
  | plain hescape hquote hopening hclosing _ ih =>
    exact .plain (fun heq => hescape (ofUInt8_injective heq)) (fun heq => hquote (ofUInt8_injective heq))
      (fun heq => hopening (ofUInt8_injective heq)) (fun heq => hclosing (ofUInt8_injective heq)) ih

/-! ### What the searches find -/

section Search

variable {z : Zone} {closing : UInt8} {Body : List UInt8 → Prop}

/-- A search that starts in a zone finds the next byte that closes bytes of a kind. -/
def Finds (z : Zone) (closing : UInt8) (Body : List UInt8 → Prop) : Prop :=
  ∀ bytes n, z.closing? (bytes.map Mark.ofByte) = some n ↔
    ∃ body rest, bytes = body ++ closing :: rest ∧ body.length = n ∧ Body body

theorem finds_quote : Finds inQuote 0x22 QuoteBytes := by
  intro bytes n
  rw [← marks_map_ofUInt8]
  refine quoteLength?_eq_some.trans ?_
  constructor
  · intro h
    obtain ⟨body, rest, htext, rfl, hbody⟩ := h
    obtain ⟨body, tail, rfl, rfl, htail⟩ := List.map_eq_append_iff.mp htext
    obtain ⟨b, rest, rfl, hb, -⟩ := List.map_eq_cons_iff.mp htail
    obtain rfl : b = 0x22 := ofUInt8_injective hb
    exact ⟨body, rest, rfl, (List.length_map _).symm, quoteBytes_of_map hbody⟩
  · intro h
    obtain ⟨body, rest, rfl, rfl, hbody⟩ := h
    exact ⟨_, _, List.map_append, List.length_map _, hbody.map⟩

theorem finds_group : Finds inGroup 0x29 GroupBytes := by
  intro bytes n
  rw [← marks_map_ofUInt8]
  refine groupLength?_eq_some.trans ?_
  constructor
  · intro h
    obtain ⟨body, rest, htext, rfl, hrun⟩ := h
    obtain ⟨body, tail, rfl, rfl, htail⟩ := List.map_eq_append_iff.mp htext
    obtain ⟨b, rest, rfl, hb, -⟩ := List.map_eq_cons_iff.mp htail
    obtain rfl : b = 0x29 := ofUInt8_injective hb
    exact ⟨body, rest, rfl, (List.length_map _).symm, groupBytes_of_map (atoms_of_run? hrun)⟩
  · intro h
    obtain ⟨body, rest, rfl, rfl, hbody⟩ := h
    exact ⟨_, _, List.map_append, List.length_map _, hbody.map.run?⟩

/-- A byte at an offset behind a start cuts what stands behind the start in two. -/
theorem exists_append_cons_iff {bytes : List UInt8} {start e : Nat} {closing : UInt8} :
    (∃ body rest, bytes.drop start = body ++ closing :: rest ∧ start + body.length = e ∧ Body body) ↔
      start ≤ e ∧ bytes[e]? = some closing ∧ Body ((bytes.take e).drop start) := by
  constructor
  · intro h
    obtain ⟨body, rest, hdrop, rfl, hbody⟩ := h
    refine ⟨Nat.le_add_right _ _, ?_, ?_⟩
    · rw [← List.getElem?_drop, hdrop]
      simp
    · rw [← List.take_drop, hdrop, List.take_left]
      exact hbody
  · intro h
    obtain ⟨hle, hclosing, hbody⟩ := h
    obtain ⟨n, rfl⟩ := Nat.exists_eq_add_of_le hle
    rw [← List.getElem?_drop] at hclosing
    rw [← List.take_drop] at hbody
    obtain ⟨hlt, hget⟩ := List.getElem?_eq_some_iff.mp hclosing
    refine ⟨(bytes.drop start).take n, (bytes.drop start).drop (n + 1), ?_, ?_, hbody⟩
    · rw [← hget, ← List.drop_eq_getElem_cons hlt, List.take_append_drop]
    · rw [List.length_take_of_le (Nat.le_of_lt hlt)]

theorem endFrom?_eq_some (h : Finds z closing Body) {text : List Char} {offset e : Nat} :
    endFrom? z text offset = some e ↔
      offset ≤ e ∧ (utf8 text)[e]? = some closing ∧ Body (((utf8 text).take e).drop offset) := by
  rw [endFrom?, Option.map_eq_some_iff, ← exists_append_cons_iff]
  constructor
  · intro hfound
    obtain ⟨n, hn, rfl⟩ := hfound
    obtain ⟨body, rest, hbytes, rfl, hbody⟩ := (h _ _).mp hn
    exact ⟨body, rest, hbytes, rfl, hbody⟩
  · intro hends
    obtain ⟨body, rest, hbytes, rfl, hbody⟩ := hends
    exact ⟨body.length, (h _ _).mpr ⟨body, rest, hbytes, rfl, hbody⟩, rfl⟩

end Search

/-! ### Starts that are machine words -/

theorem toNat_add_one {start : UInt64} (h : start.toNat + 1 < UInt64.size) :
    (start + 1).toNat = start.toNat + 1 := by
  rw [UInt64.toNat_add]
  exact Nat.mod_eq_of_lt h

/-- Where a count of bytes and the next one are words, there is no difference between counts and words. -/
theorem toNat_coe_add_one {start : Nat} (h : start + 1 < UInt64.size) :
    ((start : UInt64) + 1).toNat = start + 1 := by
  have hword : (start : UInt64).toNat = start := UInt64.toNat_ofNat_of_lt (Nat.lt_of_succ_lt h)
  rw [toNat_add_one (by rwa [hword]), hword]

end RowSearch.Query
