import RowSearch.Proofs.Access
/-!
# What an evaluation asks

All that evaluating a tree does with patterns is to ask whether texts match them. `Asking` is such an
evaluation before anyone has answered: it goes on with either answer. Run by a way of matching it is the
evaluation by that way, so a pattern that reaches a matcher, or the cache behind one, is a pattern that is
asked for here.
-/

namespace RowSearch

open Query (Matcher)
open Wildcard (Anchoring Engine hasWildcards)

/-- A computation that asks whether texts match patterns. -/
inductive Asking (α : Type) where
  | done (value : α)
  | ask (pattern : List Char) (anchoring : Anchoring) (text : List Char) (next : Bool → Asking α)

namespace Asking

variable {α β : Type}

def bind (f : α → Asking β) : Asking α → Asking β
  | done value => f value
  | ask pattern anchoring text next => ask pattern anchoring text fun found => (next found).bind f

instance : Monad Asking where
  pure := done
  bind asking f := asking.bind f

/-- The way of matching that leaves the answer open. -/
def matcher : Matcher Asking := fun pattern anchoring text => ask pattern anchoring text done

/-! ### Answers -/

section Run

variable {m : Type → Type} [Monad m]

def run (answer : Matcher m) : Asking α → m α
  | done value => pure value
  | ask pattern anchoring text next => do (next (← answer pattern anchoring text)).run answer

variable [LawfulMonad m] (answer : Matcher m)

theorem run_bind (asking : Asking α) (f : α → Asking β) :
    (asking >>= f).run answer = asking.run answer >>= fun value => (f value).run answer := by
  induction asking with
  | done value => exact (pure_bind value fun value => (f value).run answer).symm
  | ask pattern anchoring text next ih =>
    show (answer pattern anchoring text >>= fun found => (next found >>= f).run answer) = _
    simp only [ih, run, bind_assoc]

theorem run_congruent :
    Congruent fun α (asking : Asking α) (answered : m α) => asking.run answer = answered where
  pure _ := rfl
  bind := by
    rintro _ _ asking _ f g rfl hf
    rw [run_bind]
    exact congrArg (asking.run answer >>= ·) (funext hf)

theorem run_matcher (pattern : List Char) (anchoring : Anchoring) (text : List Char) :
    (matcher pattern anchoring text).run answer = answer pattern anchoring text :=
  bind_pure _

/-- A test, with its questions answered by a way of matching, is the test by that way. -/
theorem run_testBy (search : Search) (row : Row) :
    (search.testBy matcher row).run answer = search.testBy answer row :=
  (run_congruent answer).testBy (run_matcher answer) search

end Run

/-! ### Questions -/

/-- By whatever answers, all patterns that are asked for have a property, and so has the value. -/
def Asks (P : List Char → Prop) (Q : α → Prop) : Asking α → Prop
  | done value => Q value
  | ask pattern _ _ next => P pattern ∧ ∀ found, (next found).Asks P Q

namespace Asks

variable {P : List Char → Prop} {Q : α → Prop} {R : β → Prop}

theorem pure {value : α} (h : Q value) : (Pure.pure value : Asking α).Asks P Q :=
  h

theorem matcher {pattern : List Char} (h : P pattern) (anchoring : Anchoring) (text : List Char) :
    (Asking.matcher pattern anchoring text).Asks P fun _ => True :=
  ⟨h, fun _ => trivial⟩

theorem bind {asking : Asking α} {f : α → Asking β} (h : asking.Asks P Q)
    (hf : ∀ value, Q value → (f value).Asks P R) : (asking >>= f).Asks P R := by
  induction asking with
  | done value => exact hf value h
  | ask pattern anchoring text next ih => exact ⟨h.1, fun found => ih found (h.2 found)⟩

end Asks

end Asking

/-! ### Accesses to the cache -/

namespace Task

variable {α β : Type} {P : List Char → Prop}

theorem id_map (task : Task α) : id <$> task = task := by
  induction task with
  | done value => rfl
  | find pattern anchoring next ih => exact congrArg (find pattern anchoring) (funext ih)
  | keep pattern anchoring outcome next ih => exact congrArg (keep pattern anchoring outcome) ih

theorem bind_assoc {γ : Type} (task : Task α) (f : α → Task β) (g : β → Task γ) :
    task >>= f >>= g = task >>= fun value => f value >>= g := by
  induction task with
  | done value => rfl
  | find pattern anchoring next ih => exact congrArg (find pattern anchoring) (funext ih)
  | keep pattern anchoring outcome next ih => exact congrArg (keep pattern anchoring outcome) ih

instance : LawfulMonad Task :=
  .mk' Task id_map (fun _ _ => rfl) bind_assoc

/-- By whatever a cache answers, all patterns that are looked up or kept have a property. -/
def Touches (P : List Char → Prop) : Task α → Prop
  | done _ => True
  | find pattern _ next => P pattern ∧ ∀ found, (next found).Touches P
  | keep pattern _ _ next => P pattern ∧ next.Touches P

theorem Touches.bind {task : Task α} {f : α → Task β} (h : task.Touches P)
    (hf : ∀ value, (f value).Touches P) : (task >>= f).Touches P := by
  induction task with
  | done value => exact hf value
  | find pattern anchoring next ih => exact ⟨h.1, fun found => ih found (h.2 found)⟩
  | keep pattern anchoring outcome next ih => exact ⟨h.1, ih h.2⟩

/-- Matching goes to the cache for patterns with wildcards only. -/
theorem touches_isMatch {pattern : List Char} (h : hasWildcards pattern = true → P pattern)
    (engine : Engine) (anchoring : Anchoring) (text : List Char) :
    (isMatch engine pattern anchoring text).Touches P := by
  rw [isMatch]
  split
  · next hwild =>
    have hcompiled : (compiled? engine pattern anchoring).Touches P := by
      refine ⟨h hwild, fun found => ?_⟩
      cases found with
      | none => exact ⟨h hwild, trivial⟩
      | some outcome => trivial
    refine hcompiled.bind fun found => ?_
    cases found <;> trivial
  · trivial

end Task

theorem Asking.Asks.touches {α : Type} {P : List Char → Prop} {Q : α → Prop} {asking : Asking α}
    (h : asking.Asks (fun pattern => hasWildcards pattern = true → P pattern) Q) (engine : Engine) :
    (asking.run (Task.isMatch engine)).Touches P := by
  induction asking with
  | done value => trivial
  | ask pattern anchoring text next ih =>
    exact (Task.touches_isMatch h.1 engine anchoring text).bind fun found => ih found (h.2 found)

end RowSearch
