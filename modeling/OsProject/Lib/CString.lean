import Mathlib.Algebra.Ring.Nat
import Mathlib.Data.List.TakeWhile
import Mathlib.Tactic.Common

/-! # Strings that a NUL ends -/
namespace OsProject.Lib.CString
open List

variable {s : List UInt8}

/-- The string that a buffer holds. -/
def cString (buf : List UInt8) : List UInt8 := buf.takeWhile (· ≠ 0)

theorem cString_whole (free : 0 ∉ s) : cString s = s := by
  refine takeWhile_eq_self_iff.2 fun b mem => ?_
  simp only [decide_eq_true_eq]
  rintro rfl
  exact free mem

theorem cString_append_nul {t} : cString (s ++ 0 :: t) = cString s := by
  induction s with
  | nil => rfl
  | cons b s ih =>
    simp only [cString, cons_append, takeWhile_cons] at ih ⊢
    rw [ih]

theorem cString_length (s : List UInt8) :
    (cString s).length ≤ s.length ∧ (s.length ≤ (cString s).length ↔ 0 ∉ s) := by
  have sub : (cString s).Sublist s := takeWhile_sublist _
  refine ⟨sub.length_le, fun le zero => ?_, fun free => ?_⟩
  · have all := takeWhile_eq_self_iff.1 (sub.eq_of_length_le le) 0 zero
    simp at all
  · rw [cString_whole free]

end OsProject.Lib.CString
