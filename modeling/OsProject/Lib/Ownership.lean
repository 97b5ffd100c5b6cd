import Mathlib.Algebra.Ring.Nat
import Mathlib.Data.Set.Defs
import Mathlib.Logic.Function.Basic

/-! # Exact accounting of resources

Slots hold resources and a map says which resources are in use. The account is
exact if no resource is in two slots and those in use are the ones in a slot.
Taking a free resource into an empty slot and giving one back keep it exact. -/
namespace OsProject.Lib.Ownership
open Function (update update_of_ne update_self)

variable {κ β : Type*}

structure Exact (domain : Set β) (held : κ → Option β) (used : β → Bool) : Prop where
  once : ∀ k k' b, held k = some b → held k' = some b → k = k'
  inside : ∀ k b, held k = some b → b ∈ domain
  counted : ∀ b ∈ domain, used b = true ↔ ∃ k, held k = some b

namespace Exact
variable {domain : Set β} {held : κ → Option β} {used : β → Bool} {k : κ} {b : β}

theorem used_of_held (h : Exact domain held used) (hk : held k = some b) : used b = true :=
  (h.counted b (h.inside k b hk)).2 ⟨k, hk⟩

theorem not_held (h : Exact domain held used) (free : used b = false) : held k ≠ some b := by
  intro hk
  rw [h.used_of_held hk] at free
  cases free

variable [DecidableEq κ] [DecidableEq β]

/-- A free resource goes into an empty slot. -/
theorem take (h : Exact domain held used) (hb : b ∈ domain) (free : used b = false)
    (empty : held k = none) : Exact domain (update held k (some b)) (update used b true) := by
  have other : ∀ j c, update held k (some b) j = some c →
      (j = k ∧ c = b) ∨ (j ≠ k ∧ c ≠ b ∧ held j = some c) := by
    intro j c hj
    by_cases e : j = k
    · subst e
      rw [update_self] at hj
      exact .inl ⟨rfl, (Option.some.inj hj).symm⟩
    · rw [update_of_ne e] at hj
      exact .inr ⟨e, by rintro rfl; exact h.not_held free hj, hj⟩
  refine ⟨fun j j' c hj hj' => ?_, fun j c hj => ?_, fun c hc => ?_⟩
  · rcases other j c hj with ⟨rfl, rfl⟩ | ⟨-, ne, hj⟩ <;>
      rcases other j' _ hj' with ⟨rfl, e⟩ | ⟨-, ne', hj'⟩
    · rfl
    · exact absurd rfl ne'
    · exact absurd e ne
    · exact h.once j j' c hj hj'
  · rcases other j c hj with ⟨-, rfl⟩ | ⟨-, -, hj⟩
    · exact hb
    · exact h.inside j c hj
  · by_cases e : c = b
    · subst e
      simp only [update_self, true_iff]
      exact ⟨k, update_self ..⟩
    · rw [update_of_ne e, h.counted c hc]
      constructor
      · rintro ⟨j, hj⟩
        refine ⟨j, ?_⟩
        rw [update_of_ne (by rintro rfl; rw [empty] at hj; cases hj)]
        exact hj
      · rintro ⟨j, hj⟩
        rcases other j c hj with ⟨-, rfl⟩ | ⟨-, -, hj⟩
        · exact absurd rfl e
        · exact ⟨j, hj⟩

/-- A slot gives its resource back. -/
theorem drop (h : Exact domain held used) (hk : held k = some b) :
    Exact domain (update held k none) (update used b false) := by
  have other : ∀ j c, update held k none j = some c → j ≠ k ∧ c ≠ b ∧ held j = some c := by
    intro j c hj
    have ne : j ≠ k := by rintro rfl; simp at hj
    rw [update_of_ne ne] at hj
    exact ⟨ne, by rintro rfl; exact ne (h.once _ _ _ hj hk), hj⟩
  refine ⟨fun j j' c hj hj' => ?_, fun j c hj => ?_, fun c hc => ?_⟩
  · exact h.once j j' c (other j c hj).2.2 (other j' c hj').2.2
  · exact h.inside j c (other j c hj).2.2
  · by_cases e : c = b
    · subst e
      simp only [update_self, Bool.false_eq_true, false_iff]
      rintro ⟨j, hj⟩
      exact (other j c hj).2.1 rfl
    · rw [update_of_ne e, h.counted c hc]
      constructor
      · rintro ⟨j, hj⟩
        refine ⟨j, ?_⟩
        rw [update_of_ne (by rintro rfl; exact e (Option.some.inj (hj.symm.trans hk)))]
        exact hj
      · rintro ⟨j, hj⟩
        exact ⟨j, (other j c hj).2.2⟩

end Exact

end OsProject.Lib.Ownership
