import Mathlib.Data.List.Dedup
import RowSearch.Proofs.Asking
import RowSearch.Proofs.Folding
import RowSearch.Proofs.Influence
import RowSearch.Proofs.Notation
import RowSearch.Proofs.Sharing
/-!
# The patterns of a search

What a row says is never taken for a pattern. A pattern is the text of a value that a tree has computed,
and such a text is one that stands in the tree, or empty: columns are read on the left of comparisons and
by `abs` only, and neither hands their texts on. Truth values and numbers are turned into patterns too,
but the way they are written has no wildcards. So a cache that is used for one search only holds patterns
of its tree, however many rows are tested and in whatever order the tests go to it.
-/

namespace RowSearch

open Query
open Relation (ReflTransGen)
open Wildcard (Anchoring Engine Finder PatternCache hasWildcards isWildcard)

/-! ### Texts without wildcards -/

section Plain

def valueChars : List Char :=
  "0123456789-.truefalseNaNInfinity".toList

/-- Folding case makes no wildcards of the characters of values. -/
theorem hasWildcards_fold (config : Config) {text : List Char} (h : ∀ c ∈ text, c ∈ valueChars) :
    hasWildcards (config.fold text) = false := by
  have hvalues : ∀ c ∈ valueChars, isWildcard c = false := by decide
  have hplain : hasWildcards text = false := by
    rw [hasWildcards, List.any_eq_false]
    intro c hc
    rw [hvalues c (h c hc)]
    exact Bool.false_ne_true
  rw [Config.fold]
  split
  · exact hplain
  · exact Wildcard.hasWildcards_lowercase hplain

end Plain

namespace Number

theorem mem_valueChars_of_magnitude (m : Nat) (e : Int) : ∀ c ∈ magnitude m e, c ∈ valueChars := by
  have hnumeral : ∀ c ∈ numeralChars, c ∈ valueChars := by decide
  exact fun c hc => hnumeral c (mem_numeralChars_of_magnitude m e c hc)

theorem mem_valueChars_of_written (x : Float) : ∀ c ∈ (written x).toList, c ∈ valueChars := by
  rw [written]
  split
  · decide
  · decide
  · decide
  · decide
  · rw [String.toList_ofList]
    exact mem_valueChars_of_magnitude _ _
  · rw [String.toList_ofList]
    exact List.forall_mem_cons.mpr ⟨by decide, mem_valueChars_of_magnitude _ _⟩

end Number

theorem hasWildcards_display {config : Config} {value : Value} (h : ∀ s, value ≠ .text s) :
    hasWildcards (config.fold value.display.toList) = false := by
  apply hasWildcards_fold
  cases value with
  | bool b => cases b <;> decide
  | number x => exact Number.mem_valueChars_of_written x
  | text s => exact absurd rfl (h s)

/-! ### The leaves of a tree -/

namespace Query.Node

def leafText? : Node → Option String
  | quoted text => some text
  | word text => some text
  | _ => none

/-- The texts of the words and quoted texts of a tree, in order. -/
def leaves (tree : Node) : List String :=
  tree.preorder.filterMap fun entry => entry.2.leafText?

theorem mem_leaves {tree : Node} {text : String} :
    text ∈ tree.leaves ↔ ∃ node, tree.Has node ∧ node.leafText? = some text := by
  rw [leaves, List.mem_filterMap]
  constructor
  · intro h
    obtain ⟨⟨depth, node⟩, hmem, htext⟩ := h
    exact ⟨node, ⟨depth, hmem⟩, htext⟩
  · intro h
    obtain ⟨node, ⟨depth, hmem⟩, htext⟩ := h
    exact ⟨(depth, node), hmem, htext⟩

theorem leaves_of_child {tree child : Node} (hchild : child ∈ tree.children) :
    child.leaves ⊆ tree.leaves := by
  intro text htext
  obtain ⟨node, hnode, hleaf⟩ := mem_leaves.mp htext
  exact mem_leaves.mpr ⟨node, hnode.of_child hchild, hleaf⟩

end Query.Node

/-! ### What an evaluation asks for -/

section Ask

/-- A pattern has no wildcards, or it is one of some texts, in the form in which texts are compared. -/
def Known (config : Config) (texts : List String) (pattern : List Char) : Prop :=
  hasWildcards pattern = true → pattern ∈ texts.map fun text => config.fold text.toList

/-- A value is no text, or one of some texts, or empty. -/
def Harmless (texts : List String) : Value → Prop
  | .text s => s = "" ∨ s ∈ texts
  | .bool _ | .number _ => True

variable {config : Config} {row : Row} {texts : List String}

theorem known_of_harmless {value : Value} (h : Harmless texts value) :
    Known config texts (config.fold value.display.toList) := by
  intro hwild
  cases value with
  | text s =>
    rcases h with rfl | hmem
    · have hempty : hasWildcards (config.fold "".toList) = false :=
        hasWildcards_fold config fun c hc => nomatch hc
      exact absurd hwild (ne_true_of_eq_false hempty)
    · exact List.mem_map.mpr ⟨s, hmem, rfl⟩
  | bool b => exact absurd hwild (ne_true_of_eq_false (hasWildcards_display fun s => nofun))
  | number x => exact absurd hwild (ne_true_of_eq_false (hasWildcards_display fun s => nofun))

theorem asks_truthy {value : Value} (h : Harmless texts value) :
    (truthy Asking.matcher config row value).Asks (Known config texts) fun _ => True := by
  cases value with
  | bool b => exact .pure trivial
  | number x => exact .pure trivial
  | text s => exact .matcher (known_of_harmless h) _ _

theorem asks_compareBy (op : CompareOp) (left : Value) {right : Value} (h : Harmless texts right) :
    (compareBy Asking.matcher config op left right).Asks (Known config texts) fun _ => True := by
  cases op with
  | eq => exact .matcher (known_of_harmless h) _ _
  | ne => exact (Asking.Asks.matcher (known_of_harmless h) _ _).bind fun _ _ => .pure trivial
  | lt | gt | le | ge => exact .pure trivial

theorem harmless_apply {f : Function} {values : List Value}
    (h : f.columnArgs = false → ∀ value ∈ values, Harmless texts value) :
    Harmless texts (f.apply values) := by
  cases f with
  | abs =>
    match values with
    | [] | [_] | _ :: _ :: _ => trivial
  | group =>
    match values with
    | [] | _ :: _ :: _ => exact .inl rfl
    | [value] => exact h rfl value (List.mem_singleton_self _)

mutual

/-- Every pattern that the value of a tree asks for is known from its leaves, and so is the value. -/
theorem asks_eval (tree : Node) (h : tree.leaves ⊆ texts) :
    (tree.eval Asking.matcher config row).Asks (Known config texts) (Harmless texts) := by
  have hchild {child : Node} (hmem : child ∈ tree.children) : child.leaves ⊆ texts :=
    List.Subset.trans (Node.leaves_of_child hmem) h
  match tree with
  | .root [only] =>
    simp only [Node.eval]
    exact asks_eval only (hchild List.mem_cons_self)
  | .root [] =>
    simp only [Node.eval]
    exact (asks_allTrue [] nofun).bind fun _ _ => .pure trivial
  | .root (first :: second :: rest) =>
    simp only [Node.eval]
    refine (asks_allTrue (first :: second :: rest) fun _ hmem => hchild hmem).bind fun _ _ => ?_
    exact .pure trivial
  | .empty =>
    simp only [Node.eval]
    exact .pure (.inl rfl)
  | .quoted text | .word text =>
    simp only [Node.eval]
    exact .pure (.inr (h List.mem_cons_self))
  | .not operand =>
    simp only [Node.eval]
    refine (asks_eval operand (hchild List.mem_cons_self)).bind fun value hvalue => ?_
    exact (asks_truthy hvalue).bind fun _ _ => .pure trivial
  | .logic .and left right =>
    simp only [Node.eval]
    refine (asks_eval left (hchild List.mem_cons_self)).bind fun value hvalue => ?_
    refine (asks_truthy hvalue).bind fun found _ => ?_
    cases found with
    | false => exact .pure trivial
    | true =>
      refine (asks_eval right (hchild (List.mem_cons_of_mem _ List.mem_cons_self))).bind ?_
      exact fun value hvalue => (asks_truthy hvalue).bind fun _ _ => .pure trivial
  | .logic .or left right =>
    simp only [Node.eval]
    refine (asks_eval left (hchild List.mem_cons_self)).bind fun value hvalue => ?_
    refine (asks_truthy hvalue).bind fun found _ => ?_
    cases found with
    | false =>
      refine (asks_eval right (hchild (List.mem_cons_of_mem _ List.mem_cons_self))).bind ?_
      exact fun value hvalue => (asks_truthy hvalue).bind fun _ _ => .pure trivial
    | true => exact .pure trivial
  | .comparison op key value =>
    simp only [Node.eval]
    -- the left side may be a column, but only the right side is taken for a pattern
    have hrest (left : Value) : (do
        let right ← value.eval Asking.matcher config row
        return .bool (← compareBy Asking.matcher config op left right) : Asking Value).Asks
          (Known config texts) (Harmless texts) := by
      refine (asks_eval value (hchild (List.mem_cons_of_mem _ List.mem_cons_self))).bind ?_
      exact fun right hright => (asks_compareBy op left hright).bind fun _ _ => .pure trivial
    cases column? row key with
    | none => exact (asks_eval key (hchild List.mem_cons_self)).bind fun left _ => hrest left
    | some found => exact hrest found
  | .call f args =>
    simp only [Node.eval]
    refine (asks_evalAll f.columnArgs args fun _ hmem => hchild hmem).bind fun values hvalues => ?_
    exact .pure (harmless_apply hvalues)

theorem asks_allTrue (terms : List Node) (h : ∀ term ∈ terms, term.leaves ⊆ texts) :
    (Node.allTrue Asking.matcher config row terms).Asks (Known config texts) fun _ => True := by
  match terms with
  | [] =>
    simp only [Node.allTrue]
    exact .pure trivial
  | first :: rest =>
    obtain ⟨hfirst, hrest⟩ := List.forall_mem_cons.mp h
    simp only [Node.allTrue]
    refine (asks_eval first hfirst).bind fun value hvalue => ?_
    refine (asks_truthy hvalue).bind fun found _ => ?_
    cases found with
    | false => exact .pure trivial
    | true => exact asks_allTrue rest hrest

theorem asks_evalAll (columns : Bool) (args : List Node) (h : ∀ arg ∈ args, arg.leaves ⊆ texts) :
    (Node.evalAll Asking.matcher config row columns args).Asks (Known config texts)
      fun values => columns = false → ∀ value ∈ values, Harmless texts value := by
  match args with
  | [] =>
    simp only [Node.evalAll]
    exact .pure fun _ _ hmem => nomatch hmem
  | first :: rest =>
    obtain ⟨hfirst, hrest⟩ := List.forall_mem_cons.mp h
    simp only [Node.evalAll]
    have hvalues (value : Value) (hvalue : columns = false → Harmless texts value) : (do
        return value :: (← Node.evalAll Asking.matcher config row columns rest) :
          Asking (List Value)).Asks (Known config texts)
            fun values => columns = false → ∀ value ∈ values, Harmless texts value :=
      (asks_evalAll columns rest hrest).bind fun values hvalues => .pure fun hcolumns =>
        List.forall_mem_cons.mpr ⟨hvalue hcolumns, hvalues hcolumns⟩
    cases hfound : if columns = true then column? row first else none with
    | none => exact (asks_eval first hfirst).bind fun value hvalue => hvalues value fun _ => hvalue
    | some found =>
      refine hvalues found fun hcolumns => ?_
      rw [hcolumns, if_neg Bool.false_ne_true] at hfound
      cases hfound

end

/-- Every pattern that a test asks for is known from the leaves of the search. -/
theorem asks_testBy (search : Search) (row : Row) :
    (search.testBy Asking.matcher row).Asks (Known search.config search.root.leaves) fun _ => True := by
  rw [Search.testBy]
  split
  · exact .pure trivial
  · refine Asking.Asks.bind (Q := fun _ => True) ?_ fun _ _ => .pure trivial
    exact (asks_eval search.root (List.Subset.refl _)).bind fun value hvalue => asks_truthy hvalue

end Ask

/-! ### What a cache holds -/

namespace Wildcard.PatternCache

def keys (cache : PatternCache) (anchoring : Anchoring) : List (List Char) :=
  (cache.kept anchoring).map (·.1)

def Within (P : List Char → Prop) (cache : PatternCache) : Prop :=
  ∀ anchoring, ∀ key ∈ cache.keys anchoring, P key

/-- No pattern is kept twice for one way of matching. -/
def Distinct (cache : PatternCache) : Prop :=
  ∀ anchoring, (cache.keys anchoring).Nodup

theorem keys_keep (cache : PatternCache) (anchoring mode : Anchoring) (pattern : List Char)
    (outcome : Option Finder) :
    (cache.keep anchoring pattern outcome).keys mode =
      if mode = anchoring then pattern :: cache.keys mode else cache.keys mode := by
  cases anchoring <;> cases mode <;> rfl

theorem Within.keep {P : List Char → Prop} {cache : PatternCache} (h : cache.Within P)
    {pattern : List Char} (hpattern : P pattern) (anchoring : Anchoring) (outcome : Option Finder) :
    (cache.keep anchoring pattern outcome).Within P := by
  intro mode
  rw [keys_keep]
  split
  · exact List.forall_mem_cons.mpr ⟨hpattern, h mode⟩
  · exact h mode

theorem Distinct.keep {cache : PatternCache} (h : cache.Distinct) {anchoring : Anchoring}
    {pattern : List Char} (hnew : (cache.kept anchoring).lookup pattern = none) (outcome : Option Finder) :
    (cache.keep anchoring pattern outcome).Distinct := by
  intro mode
  rw [keys_keep]
  split
  · next heq =>
    subst heq
    refine List.nodup_cons.mpr ⟨fun hmem => ?_, h mode⟩
    obtain ⟨entry, hentry, rfl⟩ := List.mem_map.mp hmem
    simpa using List.lookup_eq_none_iff.mp hnew entry hentry
  · exact h mode

/-- What a cache of known patterns holds is no more than the patterns that there are. -/
theorem Within.length_le {patterns : List (List Char)} {cache : PatternCache}
    (h : cache.Within (· ∈ patterns)) :
    (cache.keys .anchored).dedup.length + (cache.keys .floating).dedup.length ≤
      2 * patterns.length := by
  have hkeys (anchoring : Anchoring) : (cache.keys anchoring).dedup.length ≤ patterns.length :=
    (List.nodup_dedup _).length_le_of_subset fun key hkey => h anchoring key (List.dedup_subset _ hkey)
  have hanchored := hkeys .anchored
  have hfloating := hkeys .floating
  omega

end Wildcard.PatternCache

def Keeps {α : Type} (I : PatternCache → Prop) (x : StateM PatternCache α) : Prop :=
  ∀ cache, I cache → I (x.run cache).2

namespace Keeps

variable {α β : Type} {I : PatternCache → Prop}

theorem pure (a : α) : Keeps I (Pure.pure a) :=
  fun _ h => h

theorem bind {x : StateM PatternCache α} {f : α → StateM PatternCache β} (hx : Keeps I x)
    (hf : ∀ a, Keeps I (f a)) : Keeps I (x >>= f) :=
  fun cache h => hf (x.run cache).1 (x.run cache).2 (hx cache h)

theorem mapM {f : α → StateM PatternCache β} (h : ∀ a, Keeps I (f a)) (xs : List α) :
    Keeps I (xs.mapM f) := by
  induction xs with
  | nil => exact .pure []
  | cons x rest ih =>
    rw [List.mapM_cons]
    exact (h x).bind fun _ => ih.bind fun _ => .pure _

end Keeps

theorem Wildcard.PatternCache.keeps_isMatch (engine : Engine) (pattern : List Char)
    (anchoring : Anchoring) (text : List Char) : Keeps Distinct (isMatch pattern anchoring text engine) := by
  have hcompiled : Keeps Distinct (compiled? pattern anchoring engine) := by
    intro cache h
    rw [StateT.run, compiled?]
    cases hlookup : (cache.kept anchoring).lookup pattern with
    | some outcome => exact h
    | none => exact h.keep hlookup _
  rw [isMatch]
  split
  · refine hcompiled.bind fun found => ?_
    cases found <;> exact .pure _
  · exact .pure _

theorem Asking.keeps_run {α : Type} {I : PatternCache → Prop} {answer : Matcher (StateM PatternCache)}
    (h : ∀ pattern anchoring text, Keeps I (answer pattern anchoring text)) (asking : Asking α) :
    Keeps I (asking.run answer) := by
  induction asking with
  | done value => exact .pure value
  | ask pattern anchoring text next ih => exact (h pattern anchoring text).bind ih

theorem Search.keeps_distinct (engine : Engine) (search : Search) (row : Row) :
    Keeps PatternCache.Distinct (search.test row engine) := by
  rw [test, ← Asking.run_testBy]
  exact Asking.keeps_run (PatternCache.keeps_isMatch engine) _

/-! ### Any number of tests -/

/-- The patterns of a search: the texts of its leaves, in the form in which texts are compared. -/
def Search.patterns (search : Search) : List (List Char) :=
  search.root.leaves.map fun text => search.config.fold text.toList

theorem Search.touches_task (engine : Engine) (search : Search) (row : Row) :
    (search.task row engine).Touches (· ∈ search.patterns) := by
  rw [task, ← Asking.run_testBy]
  exact (asks_testBy search row).touches engine

theorem Task.Touches.step {α : Type} {P : List Char → Prop} {task task' : Task α}
    {cache cache' : PatternCache} (h : task.Touches P) (hcache : cache.Within P)
    (hstep : task.step? cache = some (task', cache')) : task'.Touches P ∧ cache'.Within P := by
  cases task with
  | done value => cases hstep
  | find pattern anchoring next =>
    cases hstep
    exact ⟨h.2 _, hcache⟩
  | keep pattern anchoring outcome next =>
    cases hstep
    exact ⟨h.2, hcache.keep h.1 anchoring outcome⟩

namespace Pool

variable {α : Type} {P : List Char → Prop} {pool pool' : Pool α}

/-- The tests of a pool go to the cache for certain patterns only, and it holds no others. -/
structure Confined (P : List Char → Prop) (pool : Pool α) : Prop where
  tests : ∀ slot ∈ pool.slots, slot.task.Touches P
  cache : pool.cache.Within P

theorem Confined.advance (h : pool.Confined P) (hstep : pool.Advance pool') : pool'.Confined P := by
  obtain ⟨htests, hcache⟩ := h
  cases hstep with
  | access hstep =>
    obtain ⟨hbefore, hrest⟩ := List.forall_mem_append.mp htests
    obtain ⟨htask, hafter⟩ := List.forall_mem_cons.mp hrest
    obtain ⟨htask', hcache'⟩ := Task.Touches.step htask hcache hstep
    refine ⟨List.forall_mem_append.mpr ⟨hbefore, ?_⟩, hcache'⟩
    exact List.forall_mem_cons.mpr ⟨htask', hafter⟩

theorem Confined.run (h : pool.Confined P) (hrun : ReflTransGen Advance pool pool') :
    pool'.Confined P := by
  induction hrun with
  | refl => exact h
  | tail _ hstep ih => exact ih.advance hstep

end Pool

/-- The caches that come about when a search is tested against rows: one row after another or side by
side, any number of times, and stopped at any moment. -/
inductive ReachedBy (engine : Engine) (search : Search) : PatternCache → Prop
  | new : ReachedBy engine search .empty
  | run {α : Type} {cache : PatternCache} {pool : Pool α} (row : α → Row) (items : List α) :
    ReachedBy engine search cache →
    ReflTransGen Pool.Advance (.start engine search row items cache) pool →
    ReachedBy engine search pool.cache

theorem ReachedBy.within {engine : Engine} {search : Search} {cache : PatternCache}
    (h : ReachedBy engine search cache) : cache.Within (· ∈ search.patterns) := by
  induction h with
  | new =>
    intro anchoring key hkey
    cases anchoring <;> cases hkey
  | run row items _ hrun ih =>
    have hstart : (Pool.start engine search row items _).Confined (· ∈ search.patterns) :=
      ⟨List.forall_mem_map.mpr fun item _ => search.touches_task engine (row item), ih⟩
    exact (hstart.run hrun).cache

theorem Search.keeps_reachedBy (engine : Engine) (search : Search) (row : Row) :
    Keeps (ReachedBy engine search) (search.test row engine) := by
  intro cache h
  have hrun := Pool.run_alone [] [] () (search.task row engine) cache
  rw [search.alone_task] at hrun
  exact .run (fun _ => row) [()] h hrun

/-- Row data is never taken for a pattern, and the cache of a search is bounded by its tree, whatever the
engine. A test is made of questions for patterns, and each pattern with wildcards is that of a leaf. So at
every moment of tests that share a cache, side by side or not, the keys of the cache are patterns of
leaves, and there are at most two for each leaf. When rows are tested one after another no pattern is kept
twice either. -/
theorem patterns_of_leaves (engine : Engine) (search : Search) :
    (∀ row, (search.testBy Asking.matcher row).run (cachedMatcher engine) = search.test row engine ∧
      (search.testBy Asking.matcher row).Asks
        (fun pattern => hasWildcards pattern = true → pattern ∈ search.patterns) fun _ => True) ∧
    (∀ cache, ReachedBy engine search cache →
      (∀ anchoring, ∀ key ∈ cache.keys anchoring, key ∈ search.patterns) ∧
      (cache.keys .anchored).dedup.length + (cache.keys .floating).dedup.length ≤
        2 * search.root.leaves.length) ∧
    ∀ rows : List Row, ∀ cache, cache = ((rows.mapM fun row => search.test row engine).run .empty).2 →
      ReachedBy engine search cache ∧
      cache.anchored.length + cache.floating.length ≤ 2 * search.root.leaves.length := by
  have hbound {cache : PatternCache} (h : ReachedBy engine search cache) :
      (cache.keys .anchored).dedup.length + (cache.keys .floating).dedup.length ≤
        2 * search.root.leaves.length := by
    have hlength := h.within.length_le
    rwa [Search.patterns, List.length_map] at hlength
  refine ⟨fun row => ⟨Asking.run_testBy _ search row, asks_testBy search row⟩,
    fun cache h => ⟨h.within, hbound h⟩, ?_⟩
  rintro rows cache rfl
  have hreached := Keeps.mapM (search.keeps_reachedBy engine) rows .empty .new
  have hdistinct := Keeps.mapM (search.keeps_distinct engine) rows .empty fun anchoring => by
    cases anchoring <;> exact List.nodup_nil
  refine ⟨hreached, ?_⟩
  have hlength := hbound hreached
  rwa [List.Nodup.dedup (hdistinct .anchored), List.Nodup.dedup (hdistinct .floating),
    PatternCache.keys, PatternCache.keys, List.length_map, List.length_map] at hlength

theorem patterns_of_leaves_of_wild_columns :
    let search : Search := ⟨"x=A_c", [], .standard,
      .root [.comparison .eq (.root [.word "x"]) (.root [.word "A_c"])]⟩
    let rows := ["*", "a_c_", "ABC"].map fun text => Row.withRaw (Columns.ofList [("x", .text text)]) "_"
    let cache := ((rows.mapM fun row => search.test row).run .empty).2
    cache.keys .anchored = ["a_c".toList] ∧ cache.anchored.length + cache.floating.length ≤ 4 ∧
      ∀ pool, ReflTransGen Pool.Advance (.start Engine.tables search id rows cache) pool →
        ∀ anchoring, ∀ key ∈ pool.cache.keys anchoring, key ∈ ["x".toList, "a_c".toList] := by
  intro search rows cache
  obtain ⟨-, hcaches, hrows⟩ := patterns_of_leaves Engine.tables search
  obtain ⟨hreached, hlength⟩ := hrows rows cache rfl
  refine ⟨by decide +kernel, hlength, fun pool hrun anchoring key hkey => ?_⟩
  have hmem := (hcaches pool.cache (hreached.run id rows hrun)).1 anchoring key hkey
  rwa [show search.patterns = ["x".toList, "a_c".toList] by decide +kernel] at hmem

end RowSearch
