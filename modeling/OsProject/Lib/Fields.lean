import Mathlib.Algebra.Ring.Nat
import Mathlib.Tactic.Common

/-! # The fields of a list: its maximal runs between separators -/
namespace OsProject.Lib.Fields
open List

variable {α : Type} {p : α → Bool} {c : α} {s t : List α}

/-- `p` holds of the separators. -/
def fields (p : α → Bool) (s : List α) : List (List α) := (s.splitOnP p).filter fun w => !w.isEmpty

/-- A list begins inside a field. -/
def begins (p : α → Bool) (s : List α) : Bool := s.head?.any fun c => !p c

@[simp] theorem fields_nil : fields p [] = [] := rfl

theorem fields_append_sep (s t : List α) (sep : p c = true) :
    fields p (s ++ c :: t) = fields p s ++ fields p t := by
  rw [fields, splitOnP_append_cons s t sep, filter_append]
  rfl

@[simp] theorem fields_cons_sep (sep : p c = true) : fields p (c :: t) = fields p t :=
  fields_append_sep [] t sep

theorem length_fields_cons (other : p c = false) :
    (fields p (c :: t)).length + (begins p t).toNat = (fields p t).length + 1 := by
  cases t with
  | nil => simp [fields, begins, splitOnP_cons_eq_if_modifyHead, other]
  | cons d t =>
    obtain ⟨w, ws, eq⟩ := exists_cons_of_ne_nil (splitOnP_ne_nil p t)
    cases sep : p d <;> simp [fields, begins, splitOnP_cons_eq_if_modifyHead, other, sep, eq]

/-- Induction over the lines that `a` ends. -/
@[elab_as_elim] theorem induction_lines {a} {motive : List α → Prop} (s : List α)
    (last : ∀ l, a ∉ l → motive l) (line : ∀ l t, a ∉ l → motive t → motive (l ++ a :: t)) :
    motive s := by
  induction len : s.length using Nat.strong_induction_on generalizing s with
  | _ n ih =>
    by_cases mem : a ∈ s
    · obtain ⟨l, t, rfl, free⟩ := eq_append_cons_of_mem mem
      refine line l t free (ih t.length ?_ t rfl)
      rw [length_append, length_cons] at len
      omega
    · exact last s mem

/-- Where no part is longer, concatenations are equal only if all parts are. -/
theorem flatMap_parts {β : Type} {l : List β} {f g : β → List α}
    (le : ∀ b ∈ l, (f b).length ≤ (g b).length) :
    (l.flatMap f).length ≤ (l.flatMap g).length ∧
    (l.flatMap f = l.flatMap g ↔ ∀ b ∈ l, f b = g b) := by
  induction l with
  | nil => simp
  | cons b l ih =>
    obtain ⟨here, le⟩ := forall_mem_cons.1 le
    obtain ⟨rest, parts⟩ := ih le
    rw [flatMap_cons, flatMap_cons, length_append, length_append, forall_mem_cons, ← parts]
    refine ⟨Nat.add_le_add here rest, fun eq => ?_, fun h => by rw [h.1, h.2]⟩
    have len := congrArg List.length eq
    rw [length_append, length_append] at len
    exact append_inj eq (by omega)

end OsProject.Lib.Fields
