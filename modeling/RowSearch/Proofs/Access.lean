import RowSearch.Proofs.Cache
/-!
# One access to the cache at a time

Tests that share a cache run side by side, and between two accesses of one test to the cache there may
be accesses of others. So a test is taken apart here into its accesses: it looks a pattern up, and if
the pattern is not there it compiles the pattern and keeps the outcome. Run alone, such a task is the
test it was made from. And whatever happens to the cache in between, as long as it stays sound the task
comes to the outcome of a test without a cache, in a bounded number of steps.
-/

namespace RowSearch

open Query (Matcher plainMatcher)
open Wildcard (Anchoring Engine Finder PatternCache hasWildcards matchesPlain matchesPattern)

/-- A computation that goes to a shared cache, cut at its accesses. -/
inductive Task (α : Type) where
  | done (value : α)
  /-- Looks a pattern up and goes on with what is kept for it. -/
  | find (pattern : List Char) (anchoring : Anchoring) (next : Option (Option Finder) → Task α)
  /-- Keeps the outcome of compiling a pattern. -/
  | keep (pattern : List Char) (anchoring : Anchoring) (outcome : Option Finder) (next : Task α)

namespace Task

variable {α β : Type}

def bind (f : α → Task β) : Task α → Task β
  | done value => f value
  | find pattern anchoring next => find pattern anchoring fun found => (next found).bind f
  | keep pattern anchoring outcome next => keep pattern anchoring outcome (next.bind f)

instance : Monad Task where
  pure := done
  bind task f := task.bind f

def compiled? (engine : Engine) (pattern : List Char) (anchoring : Anchoring) : Task (Option Finder) :=
  find pattern anchoring fun
    | some outcome => done outcome
    | none => keep pattern anchoring (engine.compile? pattern anchoring)
        (done (engine.compile? pattern anchoring))

def isMatch (engine : Engine) : Matcher Task := fun pattern anchoring text =>
  if hasWildcards pattern then do
    match ← compiled? engine pattern anchoring with
    | some found => return found text
    | none => return matchesPlain pattern anchoring text
  else return matchesPlain pattern anchoring text

/-! ### A task that runs alone -/

def alone : Task α → StateM PatternCache α
  | done value => fun cache => (value, cache)
  | find pattern anchoring next => fun cache => (next ((cache.kept anchoring).lookup pattern)).alone cache
  | keep pattern anchoring outcome next => fun cache => next.alone (cache.keep anchoring pattern outcome)

theorem alone_bind (task : Task α) (f : α → Task β) :
    (task >>= f).alone = task.alone >>= fun value => (f value).alone := by
  funext cache
  induction task generalizing cache with
  | done value => rfl
  | find pattern anchoring next ih => exact ih _ cache
  | keep pattern anchoring outcome next ih => exact ih _

theorem alone_congruent :
    Congruent fun α (task : Task α) (run : StateM PatternCache α) => task.alone = run where
  pure _ := rfl
  bind := by
    rintro _ _ task _ f g rfl hf
    rw [alone_bind]
    exact congrArg (task.alone >>= ·) (funext hf)

variable (engine : Engine)

theorem alone_compiled? (pattern : List Char) (anchoring : Anchoring) :
    (compiled? engine pattern anchoring).alone = PatternCache.compiled? pattern anchoring engine := by
  funext cache
  cases hlookup : (cache.kept anchoring).lookup pattern with
  | none => simp only [compiled?, alone, PatternCache.compiled?, hlookup]
  | some outcome => simp only [compiled?, alone, PatternCache.compiled?, hlookup]

theorem alone_isMatch (pattern : List Char) (anchoring : Anchoring) (text : List Char) :
    (isMatch engine pattern anchoring text).alone = PatternCache.isMatch pattern anchoring text engine := by
  rw [isMatch, PatternCache.isMatch]
  split
  · refine alone_congruent.bind (alone_compiled? engine pattern anchoring) fun found => ?_
    cases found with
    | none => rfl
    | some found => rfl
  · rfl

/-! ### A task among others -/

def step? : Task α → PatternCache → Option (Task α × PatternCache)
  | done _, _ => none
  | find pattern anchoring next, cache => some (next ((cache.kept anchoring).lookup pattern), cache)
  | keep pattern anchoring outcome next, cache => some (next, cache.keep anchoring pattern outcome)

/-- A task keeps right outcomes only, and comes to a value by whatever a sound cache answers. -/
def Yields (value : α) : Task α → Prop
  | done result => result = value
  | find pattern anchoring next =>
    (next none).Yields value ∧ (next (some (engine.compile? pattern anchoring))).Yields value
  | keep pattern anchoring outcome next =>
    outcome = engine.compile? pattern anchoring ∧ next.Yields value

/-- The largest number of accesses that are left, by whatever a sound cache answers. -/
def work : Task α → Nat
  | done _ => 0
  | find pattern anchoring next =>
    max (next none).work (next (some (engine.compile? pattern anchoring))).work + 1
  | keep _ _ _ next => next.work + 1

variable {engine}

theorem Yields.bind {task : Task α} {value : α} {f : α → Task β} {result : β}
    (h : task.Yields engine value) (hf : (f value).Yields engine result) :
    (task >>= f).Yields engine result := by
  induction task with
  | done other =>
    cases h
    exact hf
  | find pattern anchoring next ih => exact ⟨ih _ h.1, ih _ h.2⟩
  | keep pattern anchoring outcome next ih => exact ⟨h.1, ih h.2⟩

theorem yields_congruent :
    Congruent fun α (task : Task α) (plain : Id α) => task.Yields engine plain.run where
  pure _ := rfl
  bind h hf := h.bind (hf _)

theorem yields_compiled? (pattern : List Char) (anchoring : Anchoring) :
    (compiled? engine pattern anchoring).Yields engine (engine.compile? pattern anchoring) :=
  ⟨⟨rfl, rfl⟩, rfl⟩

theorem yields_isMatch (pattern : List Char) (anchoring : Anchoring) (text : List Char) :
    (isMatch engine pattern anchoring text).Yields engine
      (matchesPattern pattern anchoring text engine) := by
  rw [isMatch, matchesPattern]
  split
  · refine (yields_compiled? pattern anchoring).bind ?_
    cases engine.compile? pattern anchoring with
    | none => rfl
    | some found => rfl
  · rfl

/-- An access at a sound cache leaves it sound, does not change what the task comes to, and leaves less
to be done. -/
theorem Yields.step {value : α} {task task' : Task α} {cache cache' : PatternCache}
    (h : task.Yields engine value) (hcache : cache.Sound engine)
    (hstep : task.step? cache = some (task', cache')) :
    task'.Yields engine value ∧ cache'.Sound engine ∧ task'.work engine < task.work engine := by
  cases task with
  | done result => cases hstep
  | find pattern anchoring next =>
    cases hstep
    rcases hcache.lookup anchoring pattern with hlookup | hlookup
    · rw [hlookup]
      exact ⟨h.1, hcache, Nat.lt_succ_of_le (Nat.le_max_left _ _)⟩
    · rw [hlookup]
      exact ⟨h.2, hcache, Nat.lt_succ_of_le (Nat.le_max_right _ _)⟩
  | keep pattern anchoring outcome next =>
    cases hstep
    obtain ⟨rfl, hnext⟩ := h
    exact ⟨hnext, hcache.keep anchoring pattern, Nat.lt_succ_self _⟩

end Task

/-! ### Tests -/

namespace Search

def task (search : Search) (row : Row) (engine : Engine) : Task (Except QueryError Bool) :=
  search.testBy (Task.isMatch engine) row

theorem alone_task (search : Search) (row : Row) (engine : Engine) :
    (search.task row engine).alone = search.test row engine :=
  Task.alone_congruent.testBy (Task.alone_isMatch engine) search

theorem yields_task (search : Search) (row : Row) (engine : Engine) :
    (search.task row engine).Yields engine (search.testBy (plainMatcher engine) row).run :=
  Task.yields_congruent.testBy Task.yields_isMatch search

end Search

end RowSearch
