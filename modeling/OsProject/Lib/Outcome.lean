import Mathlib.Algebra.Ring.Nat
import Mathlib.Tactic.Common

/-! # Postconditions of computations that may fail -/
namespace OsProject.Lib.Outcome

universe u
variable {ε : Type*} {α β σ : Type u} {E : ε → Prop}

/-- The computation ends in a value with `Q` or in a failure that `E` allows. -/
def Ends (E : ε → Prop) (r : Except ε α) (Q : α → Prop) : Prop :=
  match r with
  | .ok a => Q a
  | .error e => E e

variable {r : Except ε α} {Q : α → Prop} {a : α}

theorem Ends.of_ok (h : Ends E r Q) (eq : r = .ok a) : Q a := by
  subst eq
  exact h

theorem Ends.of_toOption (h : Ends E r Q) (eq : r.toOption = some a) : Q a := by
  cases r with
  | ok b =>
    cases eq
    exact h
  | error e => cases eq

theorem Ends.ok (h : Q a) : Ends E (.ok a) Q := h

/-- Nothing is known of it. -/
theorem Ends.any (r : Except ε α) : Ends (fun _ => True) r fun _ => True := by
  cases r with
  | ok a => trivial
  | error e => trivial

theorem Ends.mono {Q'} (h : Ends E r Q) (hq : ∀ a, Q a → Q' a) : Ends E r Q' := by
  cases r with
  | ok a => exact hq a h
  | error e => exact h

theorem Ends.weaken {E'} (h : Ends E r Q) (he : ∀ e, E e → E' e) : Ends E' r Q := by
  cases r with
  | ok a => exact h
  | error e => exact he e h

theorem Ends.bind {f} {Q' : β → Prop} (h : Ends E r Q)
    (hf : ∀ a, Q a → Ends E (f a) Q') : Ends E (r >>= f) Q' := by
  cases r with
  | ok a => exact hf a h
  | error e => exact h

/-- A loop over a list, with an invariant of the elements that are done. -/
theorem Ends.foldlM {ι : Type*} {f} {I : List ι → σ → Prop} {l s} (start : I [] s)
    (step : ∀ done a rest s, l = done ++ a :: rest → I done s → Ends E (f s a) (I (done ++ [a]))) :
    Ends E (l.foldlM f s) (I l) := by
  suffices h : ∀ rest done s, l = done ++ rest → I done s → Ends E (rest.foldlM f s) (I l) from
    h l [] s rfl start
  intro rest
  induction rest with
  | nil =>
    intro done s eq hi
    rw [List.append_nil] at eq
    rw [eq]
    exact hi
  | cons a rest ih =>
    intro done s eq hi
    refine (step done a rest s eq hi).bind fun s' hs' => ih (done ++ [a]) s' ?_ hs'
    rw [eq, List.append_assoc]
    rfl

/-! ## Steps that cannot always be taken -/

/-- The step cannot be taken, or it comes to something in `Q`. -/
def Yields (r : Option α) (Q : α → Prop) : Prop := ∀ a, r = some a → Q a

namespace Yields
variable {r : Option α} {p : Prop} [Decidable p]

theorem none : Yields none Q := nofun

theorem some (h : Q a) : Yields (some a) Q := by
  rintro _ ⟨⟩
  exact h

theorem map {f : β → α} {r} (h : Yields r fun b => Q (f b)) : Yields (r.map f) Q := by
  intro a eq
  obtain ⟨b, got, rfl⟩ := Option.map_eq_some_iff.1 eq
  exact h b got

theorem when (h : p → Yields r Q) : Yields (if p then r else .none) Q := by
  split
  · exact h ‹_›
  · exact none

theorem whenNot (h : ¬ p → Yields r Q) : Yields (if p then .none else r) Q := by
  split
  · exact none
  · exact h ‹_›

end Yields

end OsProject.Lib.Outcome
