import OsProject.Lib.Transition

/-! # A one-place buffer

A buffer that holds at most one item: `put` needs it empty, `take` empties it
and shows its reader some part `y` of the item `x`, as `R x y` allows. Along
any run the items come out once each, in the order they went in. -/
namespace OsProject.Lib.Buffer
open Transition

variable {α β : Type*}

inductive Op (α β : Type*) where
  | put (x : α)
  | take (y : β)

inductive BufStep (R : α → β → Prop) : Option α → Op α β → Option α → Prop
  | put (x : α) : BufStep R none (.put x) (some x)
  | take {x : α} {y : β} (h : R x y) : BufStep R (some x) (.take y) none

/-- The items put, newest first. -/
def puts : List (Op α β) → List α
  | [] => []
  | .put x :: ops => x :: puts ops
  | .take _ :: ops => puts ops

/-- What the takes showed, newest first. -/
def taken : List (Op α β) → List β
  | [] => []
  | .put _ :: ops => taken ops
  | .take y :: ops => y :: taken ops

/-- Everything put is still in the buffer or has been taken, one by one. -/
theorem puts_eq {R} {ops : List (Op α β)} {s} (h : Run (BufStep R) none ops s) :
    ∃ old, puts ops = s.toList ++ old ∧ List.Forall₂ R old (taken ops) := by
  induction h with
  | nil => exact ⟨[], rfl, .nil⟩
  | cons _ hs ih =>
    obtain ⟨old, hp, hr⟩ := ih
    cases hs with
    | put x => exact ⟨old, by rw [puts, hp]; rfl, hr⟩
    | take h => exact ⟨_ :: old, by rw [puts, hp]; rfl, .cons h hr⟩

end OsProject.Lib.Buffer
