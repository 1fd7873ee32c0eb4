import RowSearch.Proofs.Uniform
/-!
# The cache makes no difference

A cache is sound for an engine when every pattern in it is kept with the outcome of having the engine
compile that pattern. Matching with a sound cache gives what matching without one gives and leaves a sound
cache behind; computations that do nothing else with the cache inherit this, and so does testing a row.
Nothing is asked of the engine.
-/

namespace RowSearch

open Query (plainMatcher)
open Wildcard (Anchoring Engine PatternCache)

variable {engine : Engine}

/-- Every pattern that is kept comes with the outcome of compiling it. -/
def Wildcard.PatternCache.Sound (engine : Engine) (cache : PatternCache) : Prop :=
  ∀ anchoring, ∀ entry ∈ cache.kept anchoring, entry.2 = engine.compile? entry.1 anchoring

/-- From every sound cache the first computation gives what the second one gives without a cache, and
it leaves a sound cache. -/
def Agrees {α : Type} (engine : Engine) (cached : StateM PatternCache α) (plain : Id α) : Prop :=
  ∀ cache : PatternCache, cache.Sound engine →
    (cached.run cache).1 = plain.run ∧ (cached.run cache).2.Sound engine

namespace Agrees

variable {α β : Type}

theorem pure (a : α) : Agrees engine (Pure.pure a) (Pure.pure a) :=
  fun _ h => ⟨rfl, h⟩

theorem bind {x : StateM PatternCache α} {y : Id α} {f : α → StateM PatternCache β}
    {g : α → Id β} (hx : Agrees engine x y) (hf : ∀ a, Agrees engine (f a) (g a)) :
    Agrees engine (x >>= f) (y >>= g) := by
  intro cache hcache
  obtain ⟨hvalue, hsound⟩ := hx cache hcache
  have hnext := hf (x.run cache).1 (x.run cache).2 hsound
  rw [hvalue] at hnext
  change ((f (x.run cache).1).run (x.run cache).2).1 = _ ∧
    ((f (x.run cache).1).run (x.run cache).2).2.Sound engine
  rw [hvalue]
  exact hnext

theorem bind_pure {x : StateM PatternCache α} {a : α} {f : α → StateM PatternCache β} {y : Id β}
    (hx : Agrees engine x (Pure.pure a)) (hf : Agrees engine (f a) y) : Agrees engine (x >>= f) y := by
  intro cache hcache
  obtain ⟨hvalue, hsound⟩ := hx cache hcache
  have hnext := hf (x.run cache).2 hsound
  change ((f (x.run cache).1).run (x.run cache).2).1 = _ ∧
    ((f (x.run cache).1).run (x.run cache).2).2.Sound engine
  rw [hvalue]
  exact hnext

end Agrees

/-! ### Matching -/

namespace Wildcard.PatternCache

theorem sound_empty : empty.Sound engine := by
  intro anchoring entry hentry
  cases anchoring <;> cases hentry

theorem Sound.keep {cache : PatternCache} (h : cache.Sound engine) (anchoring : Anchoring)
    (pattern : List Char) :
    (cache.keep anchoring pattern (engine.compile? pattern anchoring)).Sound engine := by
  intro mode entry hentry
  cases anchoring <;> cases mode
  · rcases List.mem_cons.mp hentry with rfl | hentry
    · rfl
    · exact h .anchored entry hentry
  · exact h .floating entry hentry
  · exact h .anchored entry hentry
  · rcases List.mem_cons.mp hentry with rfl | hentry
    · rfl
    · exact h .floating entry hentry

/-- What is kept in a sound cache for a pattern is nothing or the right outcome. -/
theorem Sound.lookup {cache : PatternCache} (h : cache.Sound engine) (anchoring : Anchoring)
    (pattern : List Char) :
    (cache.kept anchoring).lookup pattern = none ∨
      (cache.kept anchoring).lookup pattern = some (engine.compile? pattern anchoring) := by
  cases hlookup : (cache.kept anchoring).lookup pattern with
  | none => exact .inl rfl
  | some outcome =>
    obtain ⟨before, after, hentries, -⟩ := List.lookup_eq_some_iff.mp hlookup
    have hentry : (pattern, outcome) ∈ cache.kept anchoring := by
      rw [hentries]
      exact List.mem_append_right _ List.mem_cons_self
    exact .inr (congrArg some (h anchoring _ hentry))

theorem agrees_compiled? (pattern : List Char) (anchoring : Anchoring) :
    Agrees engine (compiled? pattern anchoring engine) (Pure.pure (engine.compile? pattern anchoring)) := by
  intro cache hcache
  rw [StateT.run, compiled?]
  rcases hcache.lookup anchoring pattern with hlookup | hlookup
  · rw [hlookup]
    exact ⟨rfl, hcache.keep anchoring pattern⟩
  · rw [hlookup]
    exact ⟨rfl, hcache⟩

theorem agrees_isMatch (pattern : List Char) (anchoring : Anchoring) (text : List Char) :
    Agrees engine (isMatch pattern anchoring text engine)
      (matchesPattern pattern anchoring text engine) := by
  rw [isMatch, matchesPattern]
  split
  · refine (agrees_compiled? pattern anchoring).bind_pure ?_
    cases engine.compile? pattern anchoring with
    | none => exact .pure _
    | some found => exact .pure _
  · exact .pure _

end Wildcard.PatternCache

/-! ### Testing -/

theorem Agrees.congruent :
    Congruent fun α (cached : StateM PatternCache α) (plain : Id α) => Agrees engine cached plain :=
  ⟨Agrees.pure, Agrees.bind⟩

theorem Search.agrees_test (search : Search) (row : Row) :
    Agrees engine (search.test row engine) (search.testBy (plainMatcher engine) row) :=
  Agrees.congruent.testBy PatternCache.agrees_isMatch search

end RowSearch
