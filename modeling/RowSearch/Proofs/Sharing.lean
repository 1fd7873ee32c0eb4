import Mathlib.Logic.Relation
import RowSearch.Proofs.Access
import RowSearch.Proofs.Connective
/-!
# Searches that share a cache

A cache is shared by all tests of a search, by those of its clones, and by the tests that a filter runs
side by side. `Reached` says which caches come about in this way. The tests of one filter form a pool:
any of them may be the next to go to the cache, and the filter may end as soon as one of them fails.

What a pool keeps is that each test still comes to its verdict, the outcome on an empty cache, and that
the cache is sound. One access keeps this and leaves less to be done, so every order of accesses comes to
an end, and at every end the items found are those whose rows match.
-/

namespace RowSearch

open Wildcard (Anchoring Engine PatternCache matchesPattern)
open Relation (ReflTransGen)

/-- An item of a filter and what is left of the test of its row. -/
structure Slot (α : Type) where
  item : α
  task : Task (Except QueryError Bool)

def Slot.over {α : Type} (item : α) (outcome : Except QueryError Bool) : Slot α :=
  ⟨item, .done outcome⟩

def Slot.decided {α : Type} (outcome : α × Bool) : Slot α :=
  .over outcome.1 (.ok outcome.2)

/-- The tests of a filter, in the order of its items, and the cache they share. -/
structure Pool (α : Type) where
  slots : List (Slot α)
  cache : PatternCache

namespace Pool

variable {α : Type}

/-- A filter before its first access to the cache. -/
def start (engine : Engine) (search : Search) (row : α → Row) (items : List α) (cache : PatternCache) :
    Pool α :=
  ⟨items.map fun item => ⟨item, search.task (row item) engine⟩, cache⟩

/-- Any one of the tests goes to the cache once. -/
inductive Advance : Pool α → Pool α → Prop
  | access {before after : List (Slot α)} {item : α} {task task' : Task (Except QueryError Bool)}
    {cache cache' : PatternCache} : task.step? cache = some (task', cache') →
    Advance ⟨before ++ ⟨item, task⟩ :: after, cache⟩ ⟨before ++ ⟨item, task'⟩ :: after, cache'⟩

def kept (outcomes : List (α × Bool)) : List α :=
  (outcomes.filter (·.2)).map (·.1)

/-- What a filter may return: when all tests are over, the items that were found, in order; and the
error of any test that failed. -/
inductive Concludes : Pool α → Except QueryError (List α) → Prop
  | found (outcomes : List (α × Bool)) (cache : PatternCache) :
    Concludes ⟨outcomes.map .decided, cache⟩ (.ok (kept outcomes))
  | error {slots : List (Slot α)} {item : α} {e : QueryError} (cache : PatternCache) :
    .over item (.error e) ∈ slots → Concludes ⟨slots, cache⟩ (.error e)

def work (engine : Engine) : List (Slot α) → Nat
  | [] => 0
  | slot :: rest => slot.task.work engine + work engine rest

theorem work_append (engine : Engine) (slots more : List (Slot α)) :
    work engine (slots ++ more) = work engine slots + work engine more := by
  induction slots with
  | nil => exact (Nat.zero_add _).symm
  | cons slot rest ih => rw [List.cons_append, work, work, ih, Nat.add_assoc]

end Pool

/-- The caches that tests and filters of searches which share a cache may leave, one call after another. -/
inductive Reached (engine : Engine) : PatternCache → Prop
  | new : Reached engine .empty
  | test {cache : PatternCache} (search : Search) (row : Row) :
    Reached engine cache → Reached engine ((search.test row engine).run cache).2
  | filter {α : Type} {cache : PatternCache} {pool : Pool α} (search : Search) (row : α → Row)
    (items : List α) : Reached engine cache →
    ReflTransGen Pool.Advance (.start engine search row items cache) pool → Reached engine pool.cache

/-! ### Verdicts -/

namespace Search

variable {engine : Engine} {search : Search} {row : Row}

theorem verdict_eq_of_sound {cache : PatternCache} (h : cache.Sound engine) :
    ((search.test row engine).run cache).1 = search.verdict row engine := by
  have hempty : search.verdict row engine = (search.testBy (Query.plainMatcher engine) row).run :=
    (search.agrees_test row .empty PatternCache.sound_empty).1
  rw [hempty]
  exact (search.agrees_test row cache h).1

theorem yields_verdict (search : Search) (row : Row) :
    (search.task row engine).Yields engine (search.verdict row engine) := by
  have hempty : search.verdict row engine = (search.testBy (Query.plainMatcher engine) row).run :=
    (search.agrees_test row .empty PatternCache.sound_empty).1
  rw [hempty]
  exact search.yields_task row engine

/-- A test fails just at the rows that lack a field. -/
theorem exists_verdict_iff :
    (∃ found, search.verdict row engine = .ok found) ↔
      ∀ field ∈ search.fields, row.contains field.name = true := by
  rw [verdict_eq]
  cases h : search.missing? row with
  | none =>
    have hfields := List.find?_eq_none.mp h
    simpa using hfields
  | some field =>
    obtain ⟨hlacks, -⟩ := List.find?_eq_some_iff_append.mp h
    have hmem := List.mem_of_find?_eq_some h
    simp only [reduceCtorEq, exists_false, false_iff, not_forall]
    exact ⟨field, hmem, by simpa using hlacks⟩

end Search

/-! ### What an access keeps -/

namespace Pool

variable {α : Type} {engine : Engine} {search : Search} {row : α → Row} {items : List α}
  {pool pool' : Pool α}

/-- The tests of a pool are those of some items, each comes to its verdict, and the cache is sound. -/
structure Faithful (engine : Engine) (search : Search) (row : α → Row) (items : List α) (pool : Pool α) :
    Prop where
  aligned : pool.slots.map (·.item) = items
  yields : ∀ slot ∈ pool.slots, slot.task.Yields engine (search.verdict (row slot.item) engine)
  sound : pool.cache.Sound engine

theorem faithful_start {cache : PatternCache} (h : cache.Sound engine) :
    Faithful engine search row items (.start engine search row items cache) where
  aligned := by
    rw [start, List.map_map]
    exact List.map_id items
  yields := List.forall_mem_map.mpr fun item _ => search.yields_verdict (row item)
  sound := h

theorem Faithful.advance (h : Faithful engine search row items pool) (hstep : pool.Advance pool') :
    Faithful engine search row items pool' ∧ work engine pool'.slots < work engine pool.slots := by
  cases hstep with
  | @access before after item task task' cache cache' hstep =>
    obtain ⟨hbefore, hyields⟩ := List.forall_mem_append.mp h.yields
    obtain ⟨hslot, hafter⟩ := List.forall_mem_cons.mp hyields
    have htested : task.Yields engine (search.verdict (row item) engine) := hslot
    obtain ⟨htask, hsound, hless⟩ := htested.step h.sound hstep
    refine ⟨⟨?_, ?_, hsound⟩, ?_⟩
    · rw [← h.aligned]
      simp only [List.map_append, List.map_cons]
    · exact List.forall_mem_append.mpr ⟨hbefore, List.forall_mem_cons.mpr ⟨htask, hafter⟩⟩
    · simp only [work_append, work]
      omega

theorem Faithful.run (h : Faithful engine search row items pool) (hrun : ReflTransGen Advance pool pool') :
    Faithful engine search row items pool' := by
  induction hrun with
  | refl => exact h
  | tail _ hstep ih => exact (ih.advance hstep).1

/-! ### How filters end -/

/-- There is no endless run. -/
theorem Faithful.not_endless {run : Nat → Pool α} (h : Faithful engine search row items (run 0)) :
    ¬∀ n, (run n).Advance (run (n + 1)) := by
  intro hrun
  have hwork (n : Nat) :
      Faithful engine search row items (run n) ∧
        work engine (run n).slots + n ≤ work engine (run 0).slots := by
    induction n with
    | zero => exact ⟨h, Nat.le_refl _⟩
    | succ n ih =>
      obtain ⟨hnext, hless⟩ := ih.1.advance (hrun n)
      exact ⟨hnext, by omega⟩
  have hlast := (hwork (work engine (run 0).slots + 1)).2
  omega

theorem exists_outcomes {slots : List (Slot α)}
    (h : ∀ slot ∈ slots, ∃ found, slot.task = .done (.ok found)) :
    ∃ outcomes : List (α × Bool), slots = outcomes.map .decided := by
  induction slots with
  | nil => exact ⟨[], rfl⟩
  | cons slot rest ih =>
    obtain ⟨⟨found, hfound⟩, hrest⟩ := List.forall_mem_cons.mp h
    obtain ⟨outcomes, rfl⟩ := ih hrest
    obtain ⟨item, task⟩ := slot
    cases hfound
    exact ⟨(item, found) :: outcomes, rfl⟩

/-- A filter that is not over can go on. -/
theorem concludes_or_advances (pool : Pool α) :
    (∃ result, pool.Concludes result) ∨ ∃ next, pool.Advance next := by
  obtain ⟨slots, cache⟩ := pool
  by_cases hover : ∀ slot ∈ slots, ∃ outcome, slot.task = .done outcome
  · by_cases herror : ∃ slot ∈ slots, ∃ e, slot.task = .done (.error e)
    · obtain ⟨⟨item, task⟩, hslot, e, rfl⟩ := herror
      exact .inl ⟨.error e, .error cache hslot⟩
    · have hfound : ∀ slot ∈ slots, ∃ found, slot.task = .done (.ok found) := by
        intro slot hslot
        obtain ⟨outcome, houtcome⟩ := hover slot hslot
        cases outcome with
        | error e => exact absurd ⟨slot, hslot, e, houtcome⟩ herror
        | ok found => exact ⟨found, houtcome⟩
      obtain ⟨outcomes, rfl⟩ := exists_outcomes hfound
      exact .inl ⟨_, .found outcomes cache⟩
  · obtain ⟨⟨item, task⟩, hslot, hopen⟩ : ∃ slot ∈ slots, ∀ outcome, slot.task ≠ .done outcome := by
      simpa using hover
    obtain ⟨before, after, rfl⟩ := List.append_of_mem hslot
    cases task with
    | done outcome => exact absurd rfl (hopen outcome)
    | find pattern anchoring next => exact .inr ⟨_, .access rfl⟩
    | keep pattern anchoring outcome next => exact .inr ⟨_, .access rfl⟩

theorem Faithful.concludes (h : Faithful engine search row items pool) {result : Except QueryError (List α)}
    (hresult : pool.Concludes result) :
    ((∀ item ∈ items, ∃ found, search.verdict (row item) engine = .ok found) ∧
      result = .ok (items.filter fun item => search.verdict (row item) engine = .ok true)) ∨
    ∃ item ∈ items, ∃ e, search.verdict (row item) engine = .error e ∧ result = .error e := by
  obtain ⟨haligned, hyields, -⟩ := h
  subst haligned
  cases hresult with
  | found outcomes cache =>
    have hverdict : ∀ outcome ∈ outcomes, search.verdict (row outcome.1) engine = .ok outcome.2 :=
      fun outcome houtcome => (List.forall_mem_map.mp hyields outcome houtcome).symm
    have hitems : (outcomes.map Slot.decided).map (·.item) = outcomes.map (·.1) := List.map_map
    left
    rw [hitems]
    constructor
    · exact List.forall_mem_map.mpr fun outcome houtcome => ⟨_, hverdict outcome houtcome⟩
    · rw [List.filter_map, kept]
      refine congrArg (fun found : List (α × Bool) => Except.ok (found.map (·.1))) (List.filter_congr ?_)
      intro outcome houtcome
      simp [hverdict outcome houtcome]
  | @error slots item e cache hslot =>
    exact .inr ⟨item, List.mem_map.mpr ⟨_, hslot, rfl⟩, e, (hyields _ hslot).symm, rfl⟩

/-! ### One row after another -/

theorem run_alone (before after : List (Slot α)) (item : α) (task : Task (Except QueryError Bool))
    (cache : PatternCache) :
    ReflTransGen Advance ⟨before ++ ⟨item, task⟩ :: after, cache⟩
      ⟨before ++ .over item (task.alone.run cache).1 :: after, (task.alone.run cache).2⟩ := by
  induction task generalizing cache with
  | done outcome => exact .refl
  | find pattern anchoring next ih => exact .head (.access rfl) (ih _ cache)
  | keep pattern anchoring outcome next ih => exact .head (.access rfl) (ih _)

end Pool

theorem Search.filter_cons {α : Type} (engine : Engine) (search : Search) (row : α → Row) (item : α)
    (rest : List α) (cache : PatternCache) :
    (search.filter row (item :: rest) engine).run cache =
      match (search.test (row item) engine).run cache with
      | (.error e, cache') => (.error e, cache')
      | (.ok found, cache') =>
        (((search.filter row rest engine).run cache').1.map
            fun others => if found then item :: others else others,
          ((search.filter row rest engine).run cache').2) := by
  have htest : (testBy (Query.cachedMatcher engine) search (row item)).run cache =
      (search.test (row item) engine).run cache := rfl
  rw [filter, filterBy, StateT.run_bind, htest]
  obtain ⟨outcome, cache'⟩ := (search.test (row item) engine).run cache
  cases outcome with
  | error e => rfl
  | ok found => rfl

/-- Testing one row after another is one of the orders in which the tests of a filter may run; here some
tests are over already. -/
theorem Pool.exists_run_filter_from {α : Type} (engine : Engine) (search : Search) (row : α → Row)
    (items : List α) (cache : PatternCache) (outcomes : List (α × Bool)) :
    ∃ pool, ReflTransGen Advance
        ⟨outcomes.map .decided ++ (start engine search row items cache).slots, cache⟩ pool ∧
      pool.Concludes (((search.filter row items engine).run cache).1.map (kept outcomes ++ ·)) ∧
      pool.cache = ((search.filter row items engine).run cache).2 := by
  induction items generalizing cache outcomes with
  | nil =>
    refine ⟨_, .refl, ?_, rfl⟩
    have hfound := Concludes.found outcomes cache
    rw [← List.append_nil (outcomes.map _), ← List.append_nil (kept outcomes)] at hfound
    exact hfound
  | cons item rest ih =>
    have hfirst := run_alone (outcomes.map .decided) (start engine search row rest cache).slots item
      (search.task (row item) engine) cache
    rw [search.alone_task] at hfirst
    rw [search.filter_cons]
    generalize (search.test (row item) engine).run cache = tested at hfirst ⊢
    obtain ⟨outcome, cache'⟩ := tested
    cases outcome with
    | error e =>
      exact ⟨_, hfirst, .error _ (List.mem_append_right _ List.mem_cons_self), rfl⟩
    | ok found =>
      obtain ⟨pool, hrest, hconcludes, hcache⟩ := ih cache' (outcomes ++ [(item, found)])
      rw [List.map_append, List.append_assoc] at hrest
      refine ⟨pool, hfirst.trans hrest, ?_, hcache⟩
      have hkept (others : List α) : kept (outcomes ++ [(item, found)]) ++ others =
          kept outcomes ++ if found then item :: others else others := by
        cases found <;> simp [kept]
      rw [funext hkept] at hconcludes
      dsimp only
      generalize ((search.filter row rest engine).run cache').1 = result at hconcludes ⊢
      cases result with
      | error e => exact hconcludes
      | ok others => exact hconcludes

theorem Pool.exists_run_filter {α : Type} (engine : Engine) (search : Search) (row : α → Row)
    (items : List α) (cache : PatternCache) :
    ∃ pool, ReflTransGen Advance (start engine search row items cache) pool ∧
      pool.Concludes ((search.filter row items engine).run cache).1 ∧
      pool.cache = ((search.filter row items engine).run cache).2 := by
  obtain ⟨pool, hrun, hconcludes, hcache⟩ := exists_run_filter_from engine search row items cache []
  refine ⟨pool, hrun, ?_, hcache⟩
  generalize ((search.filter row items engine).run cache).1 = result at hconcludes ⊢
  cases result with
  | error e => exact hconcludes
  | ok found => exact hconcludes

/-! ### What cannot be seen -/

theorem Reached.sound {engine : Engine} {cache : PatternCache} (h : Reached engine cache) :
    cache.Sound engine := by
  induction h with
  | new => exact PatternCache.sound_empty
  | test search row _ ih => exact (search.agrees_test row _ ih).2
  | filter search row items _ hrun ih => exact ((Pool.faithful_start ih).run hrun).sound

theorem agrees_calls (engine : Engine) (calls : List (List Char × Anchoring × List Char)) :
    Agrees engine (calls.mapM fun call => PatternCache.isMatch call.1 call.2.1 call.2.2 engine)
      (pure (calls.map fun call => matchesPattern call.1 call.2.1 call.2.2 engine)) := by
  induction calls with
  | nil => exact .pure _
  | cons call rest ih =>
    rw [List.mapM_cons, List.map_cons]
    exact (PatternCache.agrees_isMatch call.1 call.2.1 call.2.2).bind_pure (ih.bind_pure (.pure _))

/-- A shared cache cannot be seen, whatever the engine. Every call on one cache answers as matching without
a cache does, whatever calls came before. On every cache that tests and filters may have left, a test comes
to its verdict, the outcome on an empty cache. And a filter, in whatever order its tests go to the cache,
comes to an end, with the matching items in order if no row lacks a field, and otherwise with the error of
one of the rows; that one row is tested after another is one such order. -/
theorem shared_cache_invisible (engine : Engine) :
    (∀ calls : List (List Char × Anchoring × List Char),
      ((calls.mapM fun call => PatternCache.isMatch call.1 call.2.1 call.2.2 engine).run .empty).1 =
        calls.map fun call => matchesPattern call.1 call.2.1 call.2.2 engine) ∧
    ∀ (cache : PatternCache), Reached engine cache → ∀ search : Search,
      (∀ row, ((search.test row engine).run cache).1 = ((search.test row engine).run .empty).1) ∧
      ∀ {α : Type} (row : α → Row) (items : List α),
        (∃ pool, ReflTransGen Pool.Advance (.start engine search row items cache) pool ∧
          pool.Concludes ((search.filter row items engine).run cache).1 ∧
          pool.cache = ((search.filter row items engine).run cache).2) ∧
        (∀ run : Nat → Pool α, run 0 = .start engine search row items cache →
          ¬∀ n, (run n).Advance (run (n + 1))) ∧
        ∀ pool, ReflTransGen Pool.Advance (.start engine search row items cache) pool →
          ((∃ result, pool.Concludes result) ∨ ∃ next, pool.Advance next) ∧
          ∀ result, pool.Concludes result →
            ((∀ item ∈ items, ∀ field ∈ search.fields, (row item).contains field.name = true) →
              result = .ok (items.filter fun item => search.verdict (row item) engine = .ok true)) ∧
            (¬(∀ item ∈ items, ∀ field ∈ search.fields, (row item).contains field.name = true) →
              ∃ item ∈ items, ∃ e, search.verdict (row item) engine = .error e ∧ result = .error e) := by
  refine ⟨fun calls => (agrees_calls engine calls .empty PatternCache.sound_empty).1, ?_⟩
  intro cache hcache search
  refine ⟨fun row => search.verdict_eq_of_sound hcache.sound, fun row items => ?_⟩
  have hstart : Pool.Faithful engine search row items (.start engine search row items cache) :=
    Pool.faithful_start hcache.sound
  refine ⟨Pool.exists_run_filter engine search row items cache, ?_,
    fun pool hrun => ⟨pool.concludes_or_advances, fun result hresult => ?_⟩⟩
  · intro run hzero
    rw [← hzero] at hstart
    exact hstart.not_endless
  · have hfields : (∀ item ∈ items, ∀ field ∈ search.fields, (row item).contains field.name = true) ↔
        ∀ item ∈ items, ∃ found, search.verdict (row item) engine = .ok found := by
      simp only [Search.exists_verdict_iff]
    rw [hfields]
    rcases (hstart.run hrun).concludes hresult with ⟨hall, hok⟩ | ⟨item, hitem, e, herror, hresult⟩
    · exact ⟨fun _ => hok, fun hnone => absurd hall hnone⟩
    · refine ⟨fun hall => ?_, fun _ => ⟨item, hitem, e, herror, hresult⟩⟩
      obtain ⟨found, hfound⟩ := hall item hitem
      cases hfound.symm.trans herror

theorem shared_cache_invisible_of_two_forms :
    let search : Search := ⟨"a_c OR x=a_c", [.ofName "x"], .standard, .root [.logic .or (.word "a_c")
      (.comparison .eq (.root [.word "x"]) (.root [.word "a_c"]))]⟩
    let row (text : String) := Row.withRaw (Columns.ofList [("x", .text text)]) "b"
    let bare (text : String) := Row.ofList [("y", .text text)]
    let cache := ((search.test (row "b")).run .empty).2
    cache.anchored.length = 1 ∧ cache.floating.length = 1 ∧
      ((search.test (row "abc")).run cache).1 = ((search.test (row "abc")).run .empty).1 ∧
      (∀ pool result,
        ReflTransGen Pool.Advance (.start Engine.tables search row ["abc", "xabc", "aBc"] cache) pool →
        pool.Concludes result → result = .ok ["abc", "aBc"]) ∧
      ∀ pool result, ReflTransGen Pool.Advance (.start Engine.tables search bare ["abc"] cache) pool →
        pool.Concludes result → result = .error (.missingField "x") := by
  intro search row bare cache
  have hreached : Reached Engine.tables cache := .test search (row "b") .new
  obtain ⟨htest, hfilter⟩ := (shared_cache_invisible Engine.tables).2 cache hreached search
  refine ⟨by decide +kernel, by decide +kernel, htest (row "abc"), ?_, ?_⟩
  · intro pool result hrun hresult
    have hok := (((hfilter row _).2.2 pool hrun).2 result hresult).1 (by decide +kernel)
    exact hok.trans (by decide +kernel)
  · intro pool result hrun hresult
    obtain ⟨item, hitem, e, herror, he⟩ :=
      (((hfilter bare _).2.2 pool hrun).2 result hresult).2 (by decide +kernel)
    cases List.mem_singleton.mp hitem
    have hmissing : search.verdict (bare "abc") Engine.tables = .error (.missingField "x") := by
      decide +kernel
    cases hmissing.symm.trans herror
    exact he

end RowSearch
