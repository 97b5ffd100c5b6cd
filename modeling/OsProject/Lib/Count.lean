import Mathlib.Algebra.Order.BigOperators.Group.Finset
import Mathlib.Data.Fintype.BigOperators

/-! # Counting in a finite type

How many elements satisfy a predicate, and how that number follows a change of
the predicate at one element. -/
namespace OsProject.Lib.Count

variable {α : Type*} [Fintype α] {p q : α → Prop} [DecidablePred p] [DecidablePred q]

/-- The number of elements that satisfy `p`. -/
def count (p : α → Prop) [DecidablePred p] : Nat := (Finset.univ.filter p).card

theorem count_congr (h : ∀ a, p a ↔ q a) : count p = count q := by
  congr 1
  ext a
  simp [h a]

theorem count_mono (h : ∀ a, p a → q a) : count p ≤ count q :=
  Finset.card_le_card fun a ha => by simpa using h a (by simpa using ha)

theorem count_eq_zero (h : ∀ a, ¬ p a) : count p = 0 := by
  rw [count, Finset.card_eq_zero, Finset.filter_eq_empty_iff]
  exact fun a _ => h a

/-- One element joins. -/
theorem count_join [DecidableEq α] {a} (ha : ¬ p a) (ha' : q a)
    (h : ∀ b, b ≠ a → (q b ↔ p b)) : count q = count p + 1 := by
  have hins : Finset.univ.filter q = insert a (Finset.univ.filter p) := by
    ext b
    by_cases hb : b = a
    · subst hb; simp [ha']
    · simp [hb, h b hb]
  rw [count, hins, Finset.card_insert_of_notMem (by simp [ha]), count]

/-- At most one element joins. -/
theorem count_le_succ [DecidableEq α] (a : α) (h : ∀ b, b ≠ a → q b → p b) :
    count q ≤ count p + 1 := by
  have hsub : Finset.univ.filter q ⊆ insert a (Finset.univ.filter p) := by
    intro b hb
    by_cases hba : b = a
    · simp [hba]
    · simpa [hba] using h b hba (by simpa using hb)
  exact (Finset.card_le_card hsub).trans (Finset.card_insert_le _ _)

/-- The predicate changes at one element. -/
theorem count_change [DecidableEq α] (a : α) (h : ∀ b, b ≠ a → (q b ↔ p b)) :
    count q + (if p a then 1 else 0) = count p + (if q a then 1 else 0) := by
  by_cases hp : p a <;> by_cases hq : q a
  · rw [if_pos hp, if_pos hq, count_congr (p := q) (q := p)]
    intro b
    by_cases hb : b = a
    · subst hb
      exact iff_of_true hq hp
    · exact h b hb
  · rw [if_pos hp, if_neg hq, count_join hq hp fun b hb => (h b hb).symm]
  · rw [if_neg hp, if_pos hq, count_join hp hq h]
  · rw [if_neg hp, if_neg hq, count_congr (p := q) (q := p)]
    intro b
    by_cases hb : b = a
    · subst hb
      exact iff_of_false hq hp
    · exact h b hb

/-- A sum whose term at `a` changes. -/
theorem sum_change_on {ι : Type*} [DecidableEq ι] {r} (f f' : ι → Nat) {a} (mem : a ∈ r)
    (same : ∀ b, b ≠ a → f' b = f b) : ∑ b ∈ r, f' b + f a = ∑ b ∈ r, f b + f' a := by
  have old := Finset.add_sum_erase _ f mem
  have new := Finset.add_sum_erase _ f' mem
  have rest : ∑ b ∈ r.erase a, f' b = ∑ b ∈ r.erase a, f b :=
    Finset.sum_congr rfl fun b hb => same b (Finset.ne_of_mem_erase hb)
  omega

theorem sum_change [DecidableEq α] (f f' : α → Nat) (a : α) (same : ∀ b, b ≠ a → f' b = f b) :
    ∑ b, f' b + f a = ∑ b, f b + f' a := sum_change_on f f' (Finset.mem_univ a) same

/-- Two terms of a sum. -/
theorem add_le_sum [DecidableEq α] (f : α → Nat) {a b} (ne : a ≠ b) : f a + f b ≤ ∑ c, f c := by
  rw [← Finset.sum_pair ne]
  exact Finset.sum_le_sum_of_subset (Finset.subset_univ _)

theorem le_sum (f : α → Nat) (a : α) : f a ≤ ∑ c, f c :=
  Finset.single_le_sum (fun _ _ => zero_le) (Finset.mem_univ a)

theorem count_pos (h : 0 < count p) : ∃ a, p a := by
  obtain ⟨a, ha⟩ := Finset.card_pos.1 h
  exact ⟨a, (Finset.mem_filter.1 ha).2⟩

/-- Pairs, counted by their first element. -/
theorem count_prod {β : Type*} [Fintype β] (p : α → β → Prop) [∀ a, DecidablePred (p a)] :
    (count fun x : α × β => p x.1 x.2) = ∑ a, count (p a) := by
  unfold count
  simp only [Finset.card_filter]
  exact Fintype.sum_prod_type _

end OsProject.Lib.Count
