import Mathlib.Algebra.Ring.Nat
import Mathlib.Data.List.Nodup
import Mathlib.Data.Option.Basic
import Mathlib.Logic.Function.Basic
import Mathlib.Tactic.Common

/-! # Circular lists through two pointers

A list of nodes with a head, each with a pointer to the next node and one to the node before
it; `none` is the head. Nodes are taken out and put behind the head by the usual four
assignments to pointers. `Tied` says which list the pointers stand for. -/
namespace OsProject.Lib.Circular
open List
open Function (update update_of_ne update_self)

structure Links (α : Type) where
  next : Option α → Option α
  prev : Option α → Option α

variable {α : Type}

section operations
variable [DecidableEq α]

def Links.setNext (l : Links α) (a b : Option α) : Links α := { l with next := update l.next a b }

def Links.setPrev (l : Links α) (a b : Option α) : Links α := { l with prev := update l.prev a b }

/-- A head and nothing else. -/
def Links.empty : Links α := ⟨fun _ => none, fun _ => none⟩

/-- The node's neighbours are tied to each other. -/
def Links.unlink (l : Links α) (b : α) : Links α :=
  let l := l.setPrev (l.next (some b)) (l.prev (some b))
  l.setNext (l.prev (some b)) (l.next (some b))

/-- The node comes behind the head. -/
def Links.pushFront (l : Links α) (b : α) : Links α :=
  let l := l.setNext (some b) (l.next none)
  let l := l.setPrev (some b) none
  let l := l.setPrev (l.next none) (some b)
  l.setNext none (some b)

end operations

/-- The first node from `a` on that passes the test, if there is one before the head; `none`
if the search does not end within the given number of nodes. -/
def scan (next : Option α → Option α) (test : α → Bool) : Nat → Option α → Option (Option α)
  | 0, _ => none
  | _ + 1, none => some none
  | n + 1, some b => if test b then some (some b) else scan next test n (next (some b))

theorem scan_test {next test n a} {b : α}
    (h : scan next test n a = some (some b)) : test b = true := by
  induction n generalizing a with
  | zero => cases h
  | succ n ih =>
    cases a with
    | none => cases h
    | some x =>
      unfold scan at h
      split at h
      · rename_i pass
        cases h
        exact pass
      · exact ih h

/-- The nodes between `a` and `c`, in the order of both pointers. -/
def Linked (l : Links α) : Option α → List α → Option α → Prop
  | a, [], c => l.next a = c ∧ l.prev c = a
  | a, x :: xs, c => l.next a = some x ∧ l.prev (some x) = a ∧ Linked l (some x) xs c

/-- The pointers stand for the list. -/
structure Tied (l : Links α) (xs : List α) : Prop where
  nodup : xs.Nodup
  linked : Linked l none xs none

section linked
variable {l l' : Links α} {a b c : Option α} {x : α} {xs ys : List α}

theorem linked_append : Linked l a (xs ++ x :: ys) c ↔ Linked l a xs (some x) ∧
    Linked l (some x) ys c := by
  induction xs generalizing a with
  | nil => exact and_assoc.symm
  | cons y xs ih =>
    show _ ∧ _ ∧ Linked l (some y) (xs ++ x :: ys) c ↔ (_ ∧ _ ∧ Linked l (some y) xs (some x)) ∧ _
    rw [ih, and_assoc, and_assoc]

theorem Linked.congr (h : Linked l a xs c) (next : ∀ y ∈ a :: xs.map some, l'.next y = l.next y)
    (prev : ∀ y ∈ c :: xs.map some, l'.prev y = l.prev y) : Linked l' a xs c := by
  induction xs generalizing a with
  | nil => exact ⟨(next a (by simp)).trans h.1, (prev c (by simp)).trans h.2⟩
  | cons x xs ih =>
    refine ⟨(next a (by simp)).trans h.1, (prev (some x) (by simp)).trans h.2.1, ih h.2.2 ?_ ?_⟩
    · intro y hy
      exact next y (mem_cons_of_mem _ hy)
    · intro y hy
      refine prev y ?_
      rw [map_cons, mem_cons, mem_cons]
      exact (mem_cons.1 hy).imp_right .inr

/-- The pointers the other way round. -/
def Links.swap (l : Links α) : Links α := ⟨l.prev, l.next⟩

theorem Linked.reverse (h : Linked l a xs c) : Linked l.swap c xs.reverse a := by
  induction xs generalizing a with
  | nil => exact ⟨h.2, h.1⟩
  | cons x xs ih =>
    rw [reverse_cons]
    exact linked_append.2 ⟨ih h.2.2, h.2.1, h.1⟩

theorem Linked.prev_mem (h : Linked l a xs c) : l.prev c ∈ a :: xs.map some := by
  induction xs generalizing a with
  | nil =>
    rw [h.2]
    exact mem_cons_self
  | cons x xs ih => exact mem_cons_of_mem _ (ih h.2.2)

theorem Linked.scan (h : Linked l a xs none) {test n} (enough : xs.length < n) :
    scan l.next test n (l.next a) = some (xs.find? test) := by
  induction xs generalizing a n with
  | nil =>
    obtain ⟨n, rfl⟩ : ∃ m, n = m + 1 := ⟨n - 1, by omega⟩
    rw [h.1]
    rfl
  | cons x xs ih =>
    rw [length_cons] at enough
    obtain ⟨n, rfl⟩ : ∃ m, n = m + 1 := ⟨n - 1, by omega⟩
    rw [h.1, Circular.scan, find?_cons]
    cases test x with
    | true => rfl
    | false => exact ih h.2.2 (by omega)

theorem Tied.scan_next (h : Tied l xs) {test n} (enough : xs.length < n) :
    scan l.next test n (l.next none) = some (xs.find? test) := h.linked.scan enough

theorem Tied.scan_prev (h : Tied l xs) {test n} (enough : xs.length < n) :
    scan l.prev test n (l.prev none) = some (xs.reverse.find? test) :=
  h.linked.reverse.scan (by rwa [length_reverse])

end linked

section surgery
variable [DecidableEq α] {l : Links α} {a c : Option α} {b : α} {xs pre post : List α}

theorem setNext_self {y z} : (l.setNext y z).next y = z := update_self ..

theorem setNext_ne {w y z} (ne : w ≠ y) : (l.setNext y z).next w = l.next w := update_of_ne ne ..

theorem setPrev_self {y z} : (l.setPrev y z).prev y = z := update_self ..

theorem setPrev_ne {w y z} (ne : w ≠ y) : (l.setPrev y z).prev w = l.prev w := update_of_ne ne ..

/-- The nodes before `b` are tied to another node. -/
theorem Linked.retarget (h : Linked l a xs (some b)) (nodup : (a :: xs.map some).Nodup)
    (out : c ∉ xs.map some) :
    Linked ((l.setPrev c (l.prev (some b))).setNext (l.prev (some b)) c) a xs c := by
  induction xs generalizing a with
  | nil =>
    rw [h.2]
    exact ⟨setNext_self, setPrev_self⟩
  | cons x xs ih =>
    obtain ⟨here, rest⟩ := nodup_cons.1 nodup
    rw [map_cons, mem_cons, not_or] at out
    refine ⟨?_, ?_, ih h.2.2 rest out.2⟩
    · have ne : a ≠ l.prev (some b) := by
        intro eq
        refine here ?_
        rw [eq]
        exact h.2.2.prev_mem
      exact (setNext_ne ne).trans h.1
    · exact (setPrev_ne (Ne.symm out.1)).trans h.2.1

theorem Tied.unlink (h : Tied l (pre ++ b :: post)) : Tied (l.unlink b) (pre ++ post) := by
  obtain ⟨before, after⟩ := linked_append.1 h.linked
  have nodup := h.nodup
  rw [nodup_append, nodup_cons] at nodup
  obtain ⟨first, ⟨unlike, second⟩, apart⟩ := nodup
  have nodup_pre : ((none : Option α) :: pre.map some).Nodup := by
    refine nodup_cons.2 ⟨by simp, ?_⟩
    exact first.map (Option.some_injective α)
  -- the node's own pointer back is not touched by the first assignment
  have own : ∀ y, l.next (some b) = y → y ≠ some b →
      l.unlink b = (l.setPrev y (l.prev (some b))).setNext (l.prev (some b)) y := by
    intro y eq ne
    unfold Links.unlink
    dsimp only
    rw [eq, setPrev_ne ne.symm]
    show (Links.setPrev ..).setNext _ (l.next (some b)) = _
    rw [eq]
  refine ⟨nodup_append.2 ⟨first, second, fun y hy z hz => apart y hy z (mem_cons_of_mem _ hz)⟩, ?_⟩
  cases post with
  | nil =>
    rw [own none after.1 (by simp), append_nil]
    exact before.retarget nodup_pre (by simp)
  | cons z post =>
    obtain ⟨to_z, _, rest⟩ := after
    have z_pre : z ∉ pre := fun mem => apart z mem z (by simp) rfl
    have ne : some z ≠ some b := by
      rintro eq
      exact unlike (Option.some.inj eq ▸ mem_cons_self)
    rw [own (some z) to_z ne]
    refine linked_append.2 ⟨before.retarget nodup_pre (by simpa using z_pre), rest.congr ?_ ?_⟩
    · intro y hy
      -- the node before `b` is in the first part
      have back := before.prev_mem
      refine setNext_ne fun eq => ?_
      rw [← eq] at back
      obtain rfl | ⟨w, hw, rfl⟩ : y = none ∨ ∃ w ∈ pre, some w = y := by
        simpa [mem_cons, eq_comm] using back
      · simp at hy
      · have mem : w ∈ z :: post := by simpa using hy
        exact apart w hw w (mem_cons_of_mem _ mem) rfl
    · intro y hy
      refine setPrev_ne ?_
      rintro rfl
      have mem : z ∈ post := by simpa using hy
      exact (nodup_cons.1 second).1 mem

theorem Tied.pushFront (h : Tied l xs) (out : b ∉ xs) : Tied (l.pushFront b) (b :: xs) := by
  refine ⟨nodup_cons.2 ⟨out, h.nodup⟩, setNext_self, ?_, ?_⟩
  · have ne : some b ≠ l.next none := by
      cases xs with
      | nil =>
        rw [h.linked.1]
        simp
      | cons x xs =>
        rw [h.linked.1]
        rintro eq
        exact out (Option.some.inj eq ▸ mem_cons_self)
    show (((l.setNext (some b) (l.next none)).setPrev (some b) none).setPrev
      ((l.setNext (some b) (l.next none)).next none) (some b)).prev (some b) = none
    rw [setNext_ne (by simp), setPrev_ne ne, setPrev_self]
  · have head : (l.setNext (some b) (l.next none)).next none = l.next none := setNext_ne (by simp)
    have here : (l.pushFront b).next (some b) = l.next none :=
      (setNext_ne (by simp)).trans setNext_self
    have back : (l.pushFront b).prev (l.next none) = some b := by
      show (((l.setNext (some b) (l.next none)).setPrev (some b) none).setPrev
        ((l.setNext (some b) (l.next none)).next none) (some b)).prev (l.next none) = some b
      rw [head, setPrev_self]
    cases xs with
    | nil =>
      have empty := h.linked.1
      rw [empty] at here back
      exact ⟨here, back⟩
    | cons x xs =>
      obtain ⟨to_x, _, rest⟩ := h.linked
      rw [to_x] at here back
      refine ⟨here, back, rest.congr ?_ ?_⟩
      · intro y hy
        have ne : y ≠ none ∧ y ≠ some b := by
          constructor
          · rintro rfl
            simp at hy
          · rintro rfl
            exact out (by simpa using hy)
        exact (setNext_ne ne.1).trans (setNext_ne ne.2)
      · intro y hy
        have ne : y ≠ some x ∧ y ≠ some b := by
          constructor
          · rintro rfl
            exact (nodup_cons.1 h.nodup).1 (by simpa using hy)
          · rintro rfl
            have mem : b ∈ xs := by simpa using hy
            exact out (mem_cons_of_mem _ mem)
        show (((l.setNext (some b) (l.next none)).setPrev (some b) none).setPrev
          ((l.setNext (some b) (l.next none)).next none) (some b)).prev y = l.prev y
        rw [head, to_x, setPrev_ne ne.1, setPrev_ne ne.2]
        rfl

omit [DecidableEq α] in
theorem Tied.empty : Tied (Links.empty : Links α) [] := ⟨nodup_nil, rfl, rfl⟩

/-- Nodes that are put behind the head one after the other. -/
theorem Tied.foldl (h : Tied l xs) {ys : List α} (nodup : ys.Nodup) (out : ∀ y ∈ ys, y ∉ xs) :
    Tied (ys.foldl Links.pushFront l) (ys.reverse ++ xs) := by
  induction ys generalizing l xs with
  | nil => exact h
  | cons y ys ih =>
    obtain ⟨new, rest⟩ := nodup_cons.1 nodup
    rw [foldl_cons, reverse_cons, append_assoc, singleton_append]
    refine ih (h.pushFront (out y mem_cons_self)) rest ?_
    intro z hz
    rw [mem_cons, not_or]
    exact ⟨fun eq => new (eq ▸ hz), out z (mem_cons_of_mem _ hz)⟩

end surgery
end OsProject.Lib.Circular
