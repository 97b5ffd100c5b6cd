import Mathlib.Algebra.Ring.Nat
import Mathlib.Logic.Function.Basic

/-! # Ring buffers with free-running counters

A buffer of `N` cells is read and written at two counters that are never reset:
they run modulo `M`, and the cell of a counter is its rest modulo `N`. As `N`
divides `M`, the cells stay in step when a counter passes `M`. -/
namespace OsProject.Lib.Ring
open List
open Function (update update_of_ne update_self)

variable {α : Type*} {N M r w : Nat} {data : Nat → α} {l : List α} {b : α}

/-- The buffer holds the queue `l`, to be read at counter `r` and written at `w`. -/
structure Holds (N M : Nat) (data : Nat → α) (r w : Nat) (l : List α) : Prop where
  next : w = (r + l.length) % M
  first : r < M
  fits : l.length ≤ N
  cell : ∀ k b, l[k]? = some b → data ((r + k) % N) = b

namespace Holds

theorem nil (hM : 0 < M) : Holds N M data 0 0 [] where
  next := (Nat.zero_mod M).symm
  first := hM
  fits := Nat.zero_le N
  cell := by
    intro k b hk
    simp at hk

/-- The counters are equal for an empty queue only. -/
theorem empty_iff (h : Holds N M data r w l) (hN : N < M) : r = w ↔ l = [] := by
  have hw := h.next
  have hr := h.first
  have hl := h.fits
  constructor
  · intro eq
    rw [← length_eq_zero_iff]
    by_cases wraps : r + l.length < M
    · rw [Nat.mod_eq_of_lt wraps] at hw
      omega
    · rw [Nat.mod_eq_sub_mod (by omega), Nat.mod_eq_of_lt (by omega)] at hw
      omega
  · intro nil
    rw [hw, nil, length_nil, add_zero, Nat.mod_eq_of_lt hr]

/-- The writer is `N` ahead for a full buffer only. -/
theorem full_iff (h : Holds N M data r w l) (hN : N < M) : w = (r + N) % M ↔ l.length = N := by
  have hw := h.next
  have hr := h.first
  have hl := h.fits
  constructor
  · intro eq
    rw [hw] at eq
    by_cases wraps : r + l.length < M <;> by_cases wraps' : r + N < M
    · rw [Nat.mod_eq_of_lt wraps, Nat.mod_eq_of_lt wraps'] at eq
      omega
    · rw [Nat.mod_eq_of_lt wraps, Nat.mod_eq_sub_mod (by omega), Nat.mod_eq_of_lt (by omega)] at eq
      omega
    · omega
    · rw [Nat.mod_eq_sub_mod (by omega), Nat.mod_eq_of_lt (by omega), Nat.mod_eq_sub_mod (by omega),
        Nat.mod_eq_of_lt (by omega)] at eq
      omega
  · intro full
    rw [hw, full]

/-- Cells of the queue are different cells. -/
theorem cell_ne {k j} (hk : k < j) (hj : j < N) : (r + k) % N ≠ (r + j) % N := by
  intro eq
  have : (j - k) % N = 0 := by
    have h := Nat.sub_mod_eq_zero_of_mod_eq eq.symm
    rwa [show r + j - (r + k) = j - k by omega] at h
  rw [Nat.mod_eq_of_lt (by omega)] at this
  omega

variable (h : Holds N M data r w l) (dvd : N ∣ M) (room : l.length < N)
include h dvd room

/-- The cell that is written next is none of the queue. -/
theorem write : Holds N M (update data (w % N) b) r w l where
  next := h.next
  first := h.first
  fits := h.fits
  cell := by
    intro k c hk
    have here : w % N = (r + l.length) % N := by rw [h.next, Nat.mod_mod_of_dvd _ dvd]
    rw [here, update_of_ne (cell_ne (List.getElem?_eq_some_iff.1 hk).1 room)]
    exact h.cell k c hk

/-- The writer's counter passes a cell that has been written. -/
theorem advance
    (written : data (w % N) = b) : Holds N M data r ((w + 1) % M) (l ++ [b]) where
  next := by
    rw [h.next, length_append, length_singleton, Nat.mod_add_mod, add_assoc]
  first := h.first
  fits := by
    rw [length_append, length_singleton]
    exact room
  cell := by
    intro k c hk
    by_cases last : k < l.length
    · rw [getElem?_append_left last] at hk
      exact h.cell k c hk
    · have : k = l.length := by
        have := (List.getElem?_eq_some_iff.1 hk).1
        rw [length_append, length_singleton] at this
        omega
      subst this
      rw [getElem?_append_right (le_refl _), Nat.sub_self] at hk
      rw [← Nat.mod_mod_of_dvd _ dvd, ← h.next, written]
      exact Option.some.inj hk

theorem put : Holds N M (update data (w % N) b) r ((w + 1) % M) (l ++ [b]) :=
  (h.write dvd room).advance dvd room (update_self ..)

omit h dvd room

theorem head (h : Holds N M data r w (b :: l)) : data (r % N) = b := h.cell 0 b rfl

theorem take (h : Holds N M data r w (b :: l)) (dvd : N ∣ M) :
    Holds N M data ((r + 1) % M) w l where
  next := by
    rw [h.next, length_cons, Nat.mod_add_mod]
    congr 1
    omega
  first := Nat.mod_lt _ (Nat.lt_of_le_of_lt (Nat.zero_le r) h.first)
  fits := Nat.le_of_succ_le h.fits
  cell := by
    intro k c hk
    have next := h.cell (k + 1) c hk
    rw [Nat.add_mod, Nat.mod_mod_of_dvd _ dvd, ← Nat.add_mod]
    rwa [show r + 1 + k = r + (k + 1) by omega]

/-- The cell behind the writer's counter has what was written last. -/
theorem last (h : Holds N M data r w (l ++ [b])) (dvd : N ∣ M) :
    data ((M - 1 + w) % M % N) = b := by
  have pos : 0 < M := Nat.lt_of_le_of_lt (Nat.zero_le r) h.first
  have here := h.cell l.length b (by simp)
  rw [h.next, length_append, length_singleton, Nat.add_mod_mod,
    show M - 1 + (r + (l.length + 1)) = r + l.length + M by omega, Nat.add_mod_right,
    Nat.mod_mod_of_dvd _ dvd]
  exact here

/-- The writer goes back over what was written last. -/
theorem back (h : Holds N M data r w (l ++ [b])) : Holds N M data r ((M - 1 + w) % M) l where
  next := by
    have pos : 0 < M := Nat.lt_of_le_of_lt (Nat.zero_le r) h.first
    rw [h.next, length_append, length_singleton, Nat.add_mod_mod,
      show M - 1 + (r + (l.length + 1)) = r + l.length + M by omega, Nat.add_mod_right]
  first := h.first
  fits := by
    have fits := h.fits
    rw [length_append] at fits
    omega
  cell := by
    intro k c hk
    refine h.cell k c ?_
    rw [getElem?_append_left (List.getElem?_eq_some_iff.1 hk).1]
    exact hk

/-- How far the writer is ahead. -/
theorem ahead (h : Holds N M data r w l) (hN : N < M) : (M - r + w) % M = l.length := by
  have first := h.first
  have fits := h.fits
  rw [h.next, Nat.add_mod_mod, show M - r + (r + l.length) = l.length + M by omega,
    Nat.add_mod_right, Nat.mod_eq_of_lt (by omega)]

end Holds
end OsProject.Lib.Ring
