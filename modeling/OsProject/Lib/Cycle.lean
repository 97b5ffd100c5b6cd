import Mathlib.Algebra.Ring.Nat
import Mathlib.Data.List.Basic
import Mathlib.Data.List.Nodup

/-! # Circular lists through one pointer

`Path next a xs c` says that `next` leads from `a` through `xs` to `c`; a circular list is a
path that comes back to where it started, and it can be read from any of its nodes. -/
namespace OsProject.Lib.Cycle
open List

variable {α : Type}

def Path (next : α → α) : α → List α → α → Prop
  | a, [], c => next a = c
  | a, x :: xs, c => next a = x ∧ Path next x xs c

/-- The first node from `a` on that passes the test, within the given number of nodes. -/
def seek (next : α → α) (test : α → Bool) : Nat → α → Option α
  | 0, _ => none
  | n + 1, a => if test a then some a else seek next test n (next a)

variable {next next' : α → α} {a c f x p : α} {xs ys : List α} {test : α → Bool} {n : Nat}

theorem path_append : Path next a (xs ++ x :: ys) c ↔ Path next a xs x ∧ Path next x ys c := by
  induction xs generalizing a with
  | nil => exact .rfl
  | cons y xs ih =>
    show _ ∧ Path next y (xs ++ x :: ys) c ↔ (_ ∧ Path next y xs x) ∧ _
    rw [ih, and_assoc]

theorem Path.congr (h : Path next a xs c) (same : ∀ y ∈ a :: xs, next' y = next y) :
    Path next' a xs c := by
  induction xs generalizing a with
  | nil => exact (same a mem_cons_self).trans h
  | cons x xs ih =>
    exact ⟨(same a mem_cons_self).trans h.1, ih h.2 fun y mem => same y (mem_cons_of_mem a mem)⟩

/-- A path from a node that points to where `a` points. -/
theorem Path.rehead {b} (h : Path next a xs c) (head : next' b = next a)
    (same : ∀ y ∈ xs, next' y = next y) : Path next' b xs c := by
  cases xs with
  | nil => exact head.trans h
  | cons x xs => exact ⟨head.trans h.1, h.2.congr same⟩

/-- `next` leads from `a` through the nodes `pre`, of which `a` is the first, to `p`; there are
none if `p` is `a`. -/
def Lead (next : α → α) (a : α) (pre : List α) (p : α) : Prop :=
  (pre = [] ∧ p = a) ∨ ∃ xs, pre = a :: xs ∧ Path next a xs p

theorem path_split {pre post} (split : a :: xs = pre ++ p :: post) :
    Path next a xs c ↔ Lead next a pre p ∧ Path next p post c := by
  cases pre with
  | nil =>
    obtain ⟨rfl, rfl⟩ := List.cons.inj split
    exact ⟨fun h => ⟨.inl ⟨rfl, rfl⟩, h⟩, fun h => h.2⟩
  | cons b pre =>
    obtain ⟨rfl, rfl⟩ := List.cons.inj split
    refine path_append.trans (and_congr_left fun _ => ⟨fun h => .inr ⟨pre, rfl, h⟩, ?_⟩)
    rintro (⟨no, -⟩ | ⟨ys, eq, h⟩)
    · cases no
    · obtain ⟨-, rfl⟩ := List.cons.inj eq
      exact h

theorem Lead.congr {pre} (h : Lead next a pre p) (same : ∀ y ∈ pre, next' y = next y) :
    Lead next' a pre p := by
  obtain nil | ⟨xs, rfl, h⟩ := h
  · exact .inl nil
  · exact .inr ⟨xs, rfl, h.congr same⟩

/-- Other nodes behind `p`. -/
theorem Lead.follow {pre} (h : Lead next a pre p) (post : List α) :
    ∃ xs, a :: xs = pre ++ p :: post := by
  obtain ⟨rfl, rfl⟩ | ⟨xs, rfl, -⟩ := h
  · exact ⟨post, rfl⟩
  · exact ⟨xs ++ p :: post, rfl⟩

/-- A circular list from another of its nodes. -/
theorem Path.rotate (h : Path next a xs a) (mem : f ∈ a :: xs) :
    ∃ ys, Path next f ys f ∧ (f :: ys).Perm (a :: xs) := by
  obtain rfl | mem := mem_cons.1 mem
  · exact ⟨xs, h, List.Perm.refl _⟩
  · obtain ⟨pre, post, rfl⟩ := append_of_mem mem
    obtain ⟨first, second⟩ := path_append.1 h
    refine ⟨post ++ a :: pre, path_append.2 ⟨second, first⟩, ?_⟩
    rw [← cons_append, ← cons_append]
    exact perm_append_comm

theorem Path.next_mem (h : Path next a xs a) (mem : p ∈ a :: xs) : next p ∈ a :: xs := by
  obtain ⟨ys, path, perm⟩ := h.rotate mem
  refine perm.mem_iff.1 ?_
  cases ys with
  | nil => exact mem_singleton.2 path
  | cons y ys =>
    rw [path.1]
    exact mem_cons_of_mem p mem_cons_self

theorem Path.seek (h : Path next a xs c) (enough : xs.length < n)
    (any : ∃ y ∈ a :: xs, test y = true) : seek next test n a = (a :: xs).find? test := by
  induction xs generalizing a n with
  | nil =>
    obtain ⟨y, mem, pass⟩ := any
    obtain rfl := mem_singleton.1 mem
    obtain ⟨n, rfl⟩ : ∃ m, n = m + 1 := ⟨n - 1, by omega⟩
    rw [Cycle.seek, if_pos pass, find?_cons_of_pos pass]
  | cons x xs ih =>
    rw [length_cons] at enough
    obtain ⟨n, rfl⟩ : ∃ m, n = m + 1 := ⟨n - 1, by omega⟩
    rw [Cycle.seek, find?_cons]
    cases here : test a with
    | true => rfl
    | false =>
      rw [if_neg (by decide), h.1]
      refine ih h.2 (by omega) ?_
      obtain ⟨y, mem, pass⟩ := any
      obtain rfl | mem := mem_cons.1 mem
      · rw [here] at pass
        cases pass
      · exact ⟨y, mem, pass⟩

/-- A search for the only node that passes. -/
theorem find?_unique {l : List α} (mem : p ∈ l) (only : ∀ y ∈ l, test y = true ↔ y = p) :
    l.find? test = some p := by
  cases found : l.find? test with
  | none =>
    have fails := find?_eq_none.1 found p mem
    exact absurd ((only p mem).2 rfl) fails
  | some y =>
    have pass := find?_some found
    rw [(only y (mem_of_find?_eq_some found)).1 pass]

end OsProject.Lib.Cycle
