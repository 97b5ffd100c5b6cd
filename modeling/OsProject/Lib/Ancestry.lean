import Mathlib.Algebra.Ring.Nat
import Mathlib.Tactic.Common

/-! # Ancestors along a parent link

A parent link is a partial function. What matters about it here is whether
the root is among an element's ancestors, and that this survives when links
are cut, or bent to the root, in places that no link on the way passes. -/
namespace OsProject.Lib.Ancestry

variable {α : Type*}

/-- The ancestor `n` links up. -/
def climb (f : α → Option α) : Nat → α → Option α
  | 0, x => some x
  | n + 1, x => (f x).bind (climb f n)

variable {f g : α → Option α} {root x y : α}

theorem climb_succ {n} (h : f x = some y) : climb f (n + 1) x = climb f n y := by
  simp [climb, h]

/-- Among the elements of a set that links do not leave, every link stays or is
bent to the root: then the root remains an ancestor. -/
theorem climb_bent {P : α → Prop} (closed : ∀ x y, P x → f x = some y → P y)
    (bent : ∀ x y, P x → f x = some y → g x = some y ∨ g x = some root) {n} (hx : P x)
    (h : climb f n x = some root) : ∃ n', climb g n' x = some root := by
  induction n generalizing x with
  | zero => exact ⟨0, h⟩
  | succ n ih =>
    obtain ⟨y, link, rest⟩ := Option.bind_eq_some_iff.1 h
    obtain ⟨n', up⟩ := ih (closed x y hx link) rest
    rcases bent x y hx link with kept | toRoot
    · exact ⟨n' + 1, (climb_succ kept).trans up⟩
    · exact ⟨1, climb_succ toRoot⟩

end OsProject.Lib.Ancestry
