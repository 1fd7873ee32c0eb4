import RowSearch.Proofs.Slices
/-!
# No slice out of place

The two sides of a comparison, the text between quotes and the arguments of a call are slices of a token.
Here the whole of building a tree is done with slices, at the offsets that are found on the way. It has the
same result as building without them for every text, so no slice is out of place at any level of any tree.

A span ends with its token or before it. Where it ends with it, its end is the offset of the last byte, and
what stands between the ends is the slice between two boundaries.
-/

namespace RowSearch.Query

open Zone (inQuote inGroup)

namespace Sliced

/-! ### Definitions -/

def splitComparison? (extended : Bool) (token : List Char) :
    Option (Option (List Char × CompareOp × List Char)) :=
  match comparisonOffsets extended token with
  | [(offset, op)] => do
    let key ← slice? token 0 offset
    let value ← slice? token (offset + op.width) (byteLength token)
    return some (key, op, value)
  | _ => return none

def unquote? (token : List Char) : Option (Option (List Char)) :=
  if byteLength token < 2 ∨ token.head? ≠ some '"' then return none
  else if endFrom? .inQuote token 1 = some (byteLength token - 1) then do
    let body ← slice? token 1 (byteLength token - 1)
    return some body
  else return none

def offsetOf? (c : Char) (text : List Char) : Option Nat :=
  if c ∈ text then some (byteLength (text.takeWhile (· ≠ c))) else none

def splitCall? (token : List Char) : Option (Option (Function × List Char)) :=
  if token.getLast? ≠ some ')' then return none
  else match offsetOf? '(' token with
  | none => return none
  | some opening => do
    let key ← slice? token 0 opening
    match Function.ofKey? key with
    | none => return none
    | some f =>
      if endFrom? .inGroup token (opening + 1) = some (byteLength token - 1) then do
        let inner ← slice? token (opening + 1) (byteLength token - 1)
        return some (f, inner)
      else return none

variable (config : Config)

def claims (token : List Char) : Kind → Option Bool
  | .comparison => do return (← splitComparison? config.extendedOperators token).isSome
  | .call => do return (← splitCall? token).isSome
  | .quoted => do return (← unquote? token).isSome
  | k => return k.claims config token

def ofToken (token : List Char) : Checked Kind := do
  let found : Option (Option Kind) := Kind.order.findM? (claims config token)
  match ← found with
  | some k => return k
  | none => throw (.noTypeFound (String.ofList token))

def pending (inner : List Char → Checked Built) (token : List Char) : Checked Pending := do
  let limit := heightLimit config
  let unclaimed := QueryError.noTypeFound (String.ofList token)
  match ← ofToken config token with
  | .root => throw unclaimed
  | .empty => return .term (← Built.within limit .empty 1)
  | .not => return .not
  | .logic =>
    match LogicOp.ofToken? token with
    | some op => return .logic op
    | none => throw unclaimed
  | .comparison =>
    match ← splitComparison? config.extendedOperators token with
    | some (key, op, value) =>
      let key ← inner key
      let value ← inner value
      return .term (← Built.within limit (.comparison op key.node value.node)
        (max key.height value.height + 1))
    | none => throw unclaimed
  | .call =>
    match ← splitCall? token with
    | some (function, text) =>
      let args ← (← splitAt [','] text).mapM inner
      function.checkArity args.length
      return .term (← Built.within limit (.call function (args.map (·.node))) (tallest args + 1))
    | none => throw unclaimed
  | .quoted =>
    match ← unquote? token with
    | some text => return .term (← Built.within limit (.quoted (String.ofList text)) 1)
    | none => throw unclaimed
  | .word => return .term (← Built.within limit (.word (String.ofList token)) 1)

def tokens (text : List Char) : Checked (List (List Char)) := do
  match ← splitAt [' '] (← normalize text) with
  | [] => return [[]]
  | parts => return parts

def buildFrom : (levels : Nat) → List Char → Checked Built
  | 0, _ => throw (.tooDeep config.maxDepth.toNat)
  | levels + 1, text => do
    let items ← (← tokens text).mapM (pending config (buildFrom levels))
    let terms ← fold (heightLimit config) items
    Built.within (heightLimit config) (.root (terms.map (·.node))) (tallest terms + 1)

def build (text : List Char) : Checked Node := do
  return (← buildFrom config (config.maxDepth.toNat + 1) text).node

end Sliced

/-! ### The parts of a token -/

section Parts

variable {extended : Bool} {token : List Char}

theorem comparisonOffsets_eq (extended : Bool) (token : List Char) :
    comparisonOffsets extended token =
      (comparisons extended token).map fun found => (byteLength (token.take found.1), found.2) :=
  comparisonOffsetsFrom_eq [] rfl

theorem Sliced.splitComparison?_eq (extended : Bool) (token : List Char) :
    splitComparison? extended token = some (Query.splitComparison? extended token) := by
  rw [splitComparison?, comparisonOffsets_eq]
  rcases hcomparisons : comparisons extended token with _ | ⟨⟨place, op⟩, _ | ⟨second, others⟩⟩
  · rw [Query.splitComparison?, hcomparisons]
    rfl
  · have hparts : Query.splitComparison? extended token =
        some (token.take place, op, token.drop (place + op.width)) := by
      rw [Query.splitComparison?, hcomparisons]
    have hwidth : op.width = byteLength op.symbol.toList := by cases op <;> rfl
    rw [List.map_cons, List.map_nil]
    dsimp only
    generalize token.take place = key at hparts ⊢
    generalize token.drop (place + op.width) = value at hparts
    rw [hparts]
    have htoken := (splitComparison?_eq_some hparts).1
    have hkey : slice? token 0 (byteLength key) = some key := by
      rw [htoken, List.append_assoc, slice?_front]
    have hvalue : slice? token (byteLength key + op.width) (byteLength token) = some value := by
      rw [htoken, hwidth, ← byteLength_append, slice?_rest]
    rw [hkey, hvalue]
    rfl
  · rw [Query.splitComparison?, hcomparisons]
    rfl

/-- Whether a span ends with the token: then what stands between its ends is known, and otherwise the end
of the span, if there is one, is in front of the end of the token. -/
theorem ends_last_cases {z : Zone} (before : List Char) {rest : List Char} {c : Char}
    (hz : z = inQuote ∨ z = inGroup) (htoken : token = before ++ c :: rest) :
    (endFrom? z token (byteLength before + 1) = some (byteLength token - 1) ∧
        ∃ body d, rest = body ++ [d] ∧ z.closing? (marks rest) = some body.length ∧ d.utf8Size = 1) ∨
      (endFrom? z token (byteLength before + 1) ≠ some (byteLength token - 1) ∧
        ∀ n, z.closing? (marks rest) = some n → n + 1 ≠ rest.length) := by
  obtain ⟨hescaped, hne⟩ := Zone.of_opens hz
  cases hclosing : z.closing? (marks rest) with
  | none =>
    rw [endFrom?_of_unclosed hescaped hne htoken hclosing]
    exact .inr ⟨nofun, nofun⟩
  | some n =>
    obtain ⟨body, d, after, rfl, rfl, hd, -⟩ := exists_of_closing? hz hclosing
    have hlast : byteLength (before ++ c :: body) = byteLength token - 1 ↔ after = [] := by
      rw [htoken, ← byteLength_eq_zero]
      simp only [byteLength_append, byteLength_cons, hd]
      omega
    rw [endFrom?_of_closing hescaped hne htoken hclosing]
    by_cases hafter : after = []
    · cases hafter
      exact .inl ⟨congrArg some (hlast.mpr rfl), body, d, rfl, rfl, hd⟩
    · refine .inr ⟨fun hend => hafter (hlast.mp (Option.some.inj hend)), ?_⟩
      rintro n ⟨⟩
      have hpos := List.length_pos_of_ne_nil hafter
      rw [List.length_append, List.length_cons]
      omega

/-- The slice between the ends of a span that ends with the token. -/
theorem slice?_between (before : List Char) {body : List Char} {c d : Char} (hc : c.utf8Size = 1)
    (hd : d.utf8Size = 1) (htoken : token = before ++ c :: (body ++ [d])) :
    slice? token (byteLength before + 1) (byteLength token - 1) = some body := by
  have hstart : byteLength before + 1 = byteLength (before ++ [c]) := by simp [hc]
  have hstop : byteLength token - 1 = byteLength (before ++ [c] ++ body) := by
    rw [htoken]
    simp only [byteLength_append, byteLength_cons, byteLength_nil, hd]
    omega
  have hsplit : token = before ++ [c] ++ body ++ [d] := by simp [htoken]
  rw [hstart, hstop, hsplit, slice?_append]

theorem Sliced.unquote?_of_quote (rest : List Char) :
    unquote? ('"' :: rest) = some (Query.unquote? ('"' :: rest)) := by
  rcases ends_last_cases [] (.inl rfl) (Eq.refl ('"' :: rest)) with
    ⟨hend, body, d, rfl, hlength, hd⟩ | ⟨hend, hlength⟩
  · rw [byteLength_nil] at hend
    have hquoted : ¬(byteLength ('"' :: (body ++ [d])) < 2 ∨ ('"' :: (body ++ [d])).head? ≠ some '"') := by
      have hquote : '"'.utf8Size = 1 := rfl
      rw [not_or, List.head?_cons, not_not, byteLength_cons, byteLength_append, byteLength_cons, hquote, hd]
      exact ⟨by omega, rfl⟩
    have hbody : slice? ('"' :: (body ++ [d])) 1 (byteLength ('"' :: (body ++ [d])) - 1) = some body :=
      slice?_between [] rfl hd rfl
    have hmodel : Query.unquote? ('"' :: (body ++ [d])) = some body := by
      have hquoteLength : quoteLength? (body ++ [d]) = some body.length := hlength
      rw [Query.unquote?, hquoteLength]
      simp
    rw [unquote?, if_neg hquoted, if_pos hend, hbody, hmodel]
    rfl
  · rw [byteLength_nil] at hend
    have hmodel : Query.unquote? ('"' :: rest) = none := by
      rw [Query.unquote?]
      split
      · next n hn => exact if_neg (hlength n hn)
      · rfl
    rw [unquote?, if_neg hend, hmodel, ite_self]
    rfl

theorem Sliced.unquote?_eq (token : List Char) : unquote? token = some (Query.unquote? token) := by
  rcases token with _ | ⟨c, rest⟩
  · rfl
  · by_cases hc : c = '"'
    · rw [hc, unquote?_of_quote]
    · have hhead : (c :: rest).head? ≠ some '"' := by simpa using hc
      have hmodel : Query.unquote? (c :: rest) = none := by
        rw [Query.unquote?]
        exact fun _ h => hc (List.cons.inj h).1
      rw [unquote?, if_pos (.inr hhead), hmodel]
      rfl

/-- A call ends with a parenthesis and has one in front of its arguments. -/
theorem ends_of_splitCall? {call : Function × List Char} (h : Query.splitCall? token = some call) :
    token.getLast? = some ')' ∧ '(' ∈ token := by
  obtain ⟨rfl, -⟩ := splitCall?_eq_some.mp h
  refine ⟨?_, by simp⟩
  rw [← List.cons_append, ← List.append_assoc, List.getLast?_concat]

/-- The call that a token is whose first parenthesis is behind a key. -/
theorem splitCall?_of_key {key inner : List Char} (hkey : '(' ∉ key) :
    splitCall? (key ++ '(' :: inner) =
      match Function.ofKey? key, groupLength? inner with
      | some f, some n => if n + 1 = inner.length then some (f, inner.take n) else none
      | _, _ => none := by
  have hne : ∀ c ∈ key, decide (c ≠ '(') = true := by
    intro c hc
    rw [decide_eq_true_eq]
    rintro rfl
    exact hkey hc
  rewrite [splitCall?, List.dropWhile_append_of_pos hne, List.takeWhile_append_of_pos hne,
    List.dropWhile_cons_of_neg (by decide), List.takeWhile_cons_of_neg (by decide), List.append_nil]
  rfl

theorem offsetOf?_append {c : Char} {key rest : List Char} (hkey : c ∉ key) :
    Sliced.offsetOf? c (key ++ c :: rest) = some (byteLength key) := by
  have hne : ∀ d ∈ key, decide (d ≠ c) = true := by
    intro d hd
    rw [decide_eq_true_eq]
    rintro rfl
    exact hkey hd
  rw [Sliced.offsetOf?, if_pos (by simp), List.takeWhile_append_of_pos hne,
    List.takeWhile_cons_of_neg (by simp), List.append_nil]

theorem Sliced.splitCall?_of_key {key inner : List Char} (hkey : '(' ∉ key)
    (hlast : (key ++ '(' :: inner).getLast? = some ')') :
    splitCall? (key ++ '(' :: inner) = some (Query.splitCall? (key ++ '(' :: inner)) := by
  rw [splitCall?, if_neg (not_not.mpr hlast), offsetOf?_append hkey, Query.splitCall?_of_key hkey]
  dsimp only
  rw [slice?_front, Option.bind_eq_bind, Option.bind_some]
  cases Function.ofKey? key with
  | none => rfl
  | some f =>
    dsimp only
    rcases ends_last_cases key (.inr rfl) (Eq.refl (key ++ '(' :: inner)) with
      ⟨hend, body, d, rfl, hlength, hd⟩ | ⟨hend, hlength⟩
    · have hgroup : groupLength? (body ++ [d]) = some body.length := hlength
      have hbody : slice? (key ++ '(' :: (body ++ [d])) (byteLength key + 1)
          (byteLength (key ++ '(' :: (body ++ [d])) - 1) = some body := slice?_between key rfl hd rfl
      rw [if_pos hend, hbody, hgroup]
      simp
    · rw [if_neg hend]
      cases hgroup : groupLength? inner with
      | none => rfl
      | some n =>
        dsimp only
        rw [if_neg (hlength n hgroup)]
        rfl

theorem Sliced.splitCall?_eq (token : List Char) : splitCall? token = some (Query.splitCall? token) := by
  by_cases hparentheses : token.getLast? = some ')' ∧ '(' ∈ token
  · obtain ⟨hlast, hmem⟩ := hparentheses
    obtain ⟨key, inner, rfl, hkey⟩ := List.eq_append_cons_of_mem hmem
    exact splitCall?_of_key hkey hlast
  · have hmodel : Query.splitCall? token = none := by
      by_contra hne
      obtain ⟨call, hcall⟩ := Option.ne_none_iff_exists'.mp hne
      exact hparentheses (ends_of_splitCall? hcall)
    rw [splitCall?, hmodel]
    by_cases hlast : token.getLast? = some ')'
    · have hopening : offsetOf? '(' token = none := if_neg fun hmem => hparentheses ⟨hlast, hmem⟩
      rw [if_neg (not_not.mpr hlast), hopening]
      rfl
    · rw [if_pos hlast]
      rfl

end Parts

/-! ### Trees -/

section Trees

variable (config : Config)

theorem Sliced.claims_eq (token : List Char) (k : Kind) :
    claims config token k = some (k.claims config token) := by
  cases k with
  | comparison => rw [claims, splitComparison?_eq]; rfl
  | call => rw [claims, splitCall?_eq]; rfl
  | quoted => rw [claims, unquote?_eq]; rfl
  | root | empty | not | logic | word => rfl

theorem Sliced.ofToken_eq (token : List Char) : ofToken config token = total (Kind.ofToken config token) := by
  have hfound : Kind.order.findM? (claims config token) =
      some (Kind.order.find? (Kind.claims config token)) := by
    rw [funext (claims_eq config token)]
    exact List.findM?_pure _ _
  rw [ofToken, hfound, Kind.ofToken, slice_bind]
  cases Kind.order.find? (Kind.claims config token) with
  | none => rfl
  | some k => rfl

theorem Sliced.pending_eq {inner : List Char → Checked Built} {inner' : List Char → Except QueryError Built}
    (h : ∀ text, inner text = total (inner' text)) (token : List Char) :
    pending config inner token = total (Query.pending config inner' token) := by
  have hterm (node : Node) (height : Nat) :
      (do return .term (← Built.within (heightLimit config) node height) : Checked Pending) =
        total do return .term (← Built.within (heightLimit config) node height) :=
    lift_bind _ _ fun _ => rfl
  rw [pending, Query.pending, ofToken_eq]
  refine total_bind fun k => ?_
  cases k with
  | root | not => rfl
  | empty | word => exact hterm _ _
  | logic =>
    dsimp only
    cases LogicOp.ofToken? token with
    | none => rfl
    | some op => rfl
  | comparison =>
    dsimp only
    rw [splitComparison?_eq, slice_bind]
    cases Query.splitComparison? config.extendedOperators token with
    | none => rfl
    | some parts =>
      obtain ⟨key, op, value⟩ := parts
      dsimp only
      rw [h]
      refine total_bind fun key => ?_
      rw [h]
      exact total_bind fun value => hterm _ _
  | call =>
    dsimp only
    rw [splitCall?_eq, slice_bind]
    cases Query.splitCall? token with
    | none => rfl
    | some call =>
      obtain ⟨function, text⟩ := call
      dsimp only
      rw [splitAt_eq]
      refine total_bind fun parts => ?_
      rw [total_mapM h]
      exact total_bind fun args => lift_bind _ _ fun _ => hterm _ _
  | quoted =>
    dsimp only
    rw [unquote?_eq, slice_bind]
    cases Query.unquote? token with
    | none => rfl
    | some text => exact hterm _ _

theorem Sliced.tokens_eq (text : List Char) : tokens text = total (Query.tokens text) := by
  rw [tokens, Query.tokens, normalize_eq]
  refine total_bind fun normal => ?_
  rw [splitAt_eq]
  refine total_bind fun parts => ?_
  cases parts <;> rfl

theorem Sliced.buildFrom_eq (levels : Nat) (text : List Char) :
    buildFrom config levels text = total (Query.buildFrom config levels text) := by
  induction levels generalizing text with
  | zero => rfl
  | succ levels ih =>
    rw [buildFrom, Query.buildFrom, tokens_eq]
    refine total_bind fun parts => ?_
    rw [total_mapM (pending_eq config ih)]
    exact total_bind fun items => lift_bind _ _ fun terms => rfl

theorem Sliced.build_eq (text : List Char) : build config text = total (Query.build config text) := by
  rw [build, Query.build, buildFrom_eq]
  exact total_map _ _

end Trees

/-! ### The guarantee -/

/-- What holds of a text, whatever it is and wherever a scan of it starts. -/
structure ByteSafe (text : List Char) : Prop where
  /-- From behind a boundary on the searches over bytes find what the searches over whole characters find. -/
  quote_by_chars : ∀ start, isBoundary text start = true →
    endFrom? .inQuote text (start + 1) = atChar? quoteEndByChars? text start
  group_by_chars : ∀ start, isBoundary text start = true →
    endFrom? .inGroup text (start + 1) = atChar? (groupEndByChars? 0 false) text start
  /-- So they do where starts are machine words, as long as there is a word behind the start. -/
  word_by_chars : ∀ start : Nat, start + 1 < UInt64.size → isBoundary text start = true →
    quoteEnd? text start = atChar? quoteEndByChars? text start ∧
      groupEnd? text start = atChar? (groupEndByChars? 0 false) text start
  /-- The spans and the symbols that are found are those of the scans over characters. -/
  spans_eq : quoteOffsets text = (Segment.cut text).map (quotedOffsets 0)
  comparisons_eq : ∀ extended, comparisonOffsets extended text =
    (comparisons extended text).map fun found => (byteLength (text.take found.1), found.2)
  /-- The offsets that are found are those of characters of the text, and those of spans ascend. -/
  quote_inside : ∀ offset e, endFrom? .inQuote text offset = some e → offset ≤ e ∧ Inside text e
  group_inside : ∀ offset e, endFrom? .inGroup text offset = some e → offset ≤ e ∧ Inside text e
  word_inside : ∀ (start : UInt64) (e : Nat),
    quoteEnd? text start = some e ∨ groupEnd? text start = some e →
    (start + 1).toNat ≤ e ∧ Inside text e
  spans_placed : ∀ spans, quoteOffsets text = .ok spans → Placed text 0 spans
  comparisons_inside : ∀ extended, ∀ found ∈ comparisonOffsets extended text, Inside text found.1
  /-- All slices are in place, and what comes of them is what comes of the scans over characters. -/
  normalize : Sliced.normalize text = total (normalize text)
  splitAt : ∀ separator, Sliced.splitAt separator text = total (splitAt separator text)
  splitComparison : ∀ extended,
    Sliced.splitComparison? extended text = some (splitComparison? extended text)
  unquote : Sliced.unquote? text = some (unquote? text)
  splitCall : Sliced.splitCall? text = some (splitCall? text)
  build : ∀ config, Sliced.build config text = total (build config text)

/-- Every text can be scanned by its bytes and sliced at the offsets that are found: no slice that is taken
when a tree is built, for itself or within the tree of a query around it, is out of place. -/
theorem byteSafe (text : List Char) : ByteSafe text where
  quote_by_chars _ := endFrom?_inQuote_eq_atChar?
  group_by_chars _ := endFrom?_inGroup_eq_atChar?
  word_by_chars start hword hstart := by
    rw [quoteEnd?, groupEnd?, toNat_coe_add_one hword]
    exact ⟨endFrom?_inQuote_eq_atChar? hstart, endFrom?_inGroup_eq_atChar? hstart⟩
  spans_eq := quoteOffsets_eq text
  comparisons_eq extended := comparisonOffsets_eq extended text
  quote_inside _ _ := inside_of_inQuote
  group_inside _ _ := inside_of_inGroup
  word_inside _ _ h := h.elim inside_of_inQuote inside_of_inGroup
  spans_placed _ := placed_of_quoteOffsetsFrom
  comparisons_inside _ _ := inside_of_mem_comparisonOffsetsFrom
  normalize := Sliced.normalize_eq text
  splitAt separator := Sliced.splitAt_eq separator text
  splitComparison extended := Sliced.splitComparison?_eq extended text
  unquote := Sliced.unquote?_eq text
  splitCall := Sliced.splitCall?_eq text
  build config := Sliced.build_eq config text

/-- Behind the backslash there is a character of two bytes, so a search comes to the offset 3, where no
slice can end, and still finds the quote behind it. -/
theorem byteSafe_wide_characters :
    let text := "\"\\é\" (a=\"日\")".toList
    (isBoundary text 0 = true ∧ isBoundary text 6 = true ∧ slice? text 0 3 = none) ∧
      (quoteEnd? text 0 = atChar? quoteEndByChars? text 0 ∧ quoteEnd? text 0 = some 4) ∧
      (groupEnd? text 6 = atChar? (groupEndByChars? 0 false) text 6 ∧ groupEnd? text 6 = some 14) ∧
      Inside text 4 ∧ quoteOffsets text = .ok [(0, 4), (9, 13)] ∧ Placed text 0 [(0, 4), (9, 13)] := by
  intro text
  have hspans : quoteOffsets text = .ok [(0, 4), (9, 13)] := by
    rw [quoteOffsets_eq]
    rfl
  exact ⟨by decide, ⟨((byteSafe text).word_by_chars 0 (by decide) (by decide)).1, by decide⟩,
    ⟨((byteSafe text).word_by_chars 6 (by decide) (by decide)).2, by decide⟩,
    ((byteSafe text).word_inside 0 4 (.inl (by decide))).2, hspans, (byteSafe text).spans_placed _ hspans⟩

end RowSearch.Query
