import Mathlib.Algebra.Ring.Nat
import Mathlib.Logic.Function.Basic
import Mathlib.Data.List.Basic

/-! # Physical redo logs

A store has data under addresses, a log of values and a head that says which
address each logged value is for. `redo` is what the data become once the log
is installed. It is what a store means: of the single writes, only that of the
head changes it. -/
namespace OsProject.Lib.Redo
open List
open Function (update update_of_ne update_self)

variable {α β : Type*} [DecidableEq α]

/-- Writes applied in order. -/
def apply (d : α → β) (ws : List (α × β)) : α → β :=
  ws.foldl (fun d w => update d w.1 w.2) d

section apply
variable {d d' : α → β} {ws vs : List (α × β)} {a : α} {v : β}

@[simp] theorem apply_nil : apply d [] = d := rfl

@[simp] theorem apply_cons {w : α × β} : apply d (w :: ws) = apply (update d w.1 w.2) ws := rfl

theorem apply_append : apply d (ws ++ vs) = apply (apply d ws) vs := foldl_append

theorem apply_snoc : apply d (ws ++ [(a, v)]) = update (apply d ws) a v := apply_append

/-- An address that no write is for keeps its value. -/
theorem apply_of_notMem (h : a ∉ ws.map Prod.fst) : apply d ws a = d a := by
  induction ws generalizing d with
  | nil => rfl
  | cons w ws ih =>
    obtain ⟨ne, later⟩ := not_or.1 (mt mem_cons.2 h)
    rw [apply_cons, ih later, update_of_ne ne]

/-- What was there before matters only where nothing is written. -/
theorem apply_congr (h : a ∉ ws.map Prod.fst → d a = d' a) : apply d ws a = apply d' ws a := by
  induction ws generalizing d d' with
  | nil => exact h (by simp)
  | cons w ws ih =>
    rw [apply_cons, apply_cons]
    refine ih fun later => ?_
    by_cases eq : a = w.1
    · subst eq
      rw [update_self, update_self]
    · rw [update_of_ne eq, update_of_ne eq]
      exact h (by simp [eq, later])

/-- Writes that all carry the value `f` has at their address. -/
theorem apply_of_values {f : α → β} (h : ∀ w ∈ ws, w.2 = f w.1) :
    apply d ws a = if a ∈ ws.map Prod.fst then f a else d a := by
  induction ws generalizing d with
  | nil => rfl
  | cons w ws ih =>
    rw [apply_cons, ih fun w' hw => h w' (mem_cons_of_mem _ hw)]
    by_cases eq : a = w.1
    · subst eq
      simp [h w mem_cons_self]
    · simp only [update_of_ne eq, map_cons, mem_cons, eq, false_or]

/-- The value of the only write to an address. -/
theorem apply_of_nodup {w : α × β} (nodup : (ws.map Prod.fst).Nodup) (hw : w ∈ ws) :
    apply d ws w.1 = w.2 := by
  induction ws generalizing d with
  | nil => cases hw
  | cons x ws ih =>
    obtain ⟨first, rest⟩ := nodup_cons.1 nodup
    rcases mem_cons.1 hw with rfl | hw
    · rw [apply_cons, apply_of_notMem first, update_self]
    · exact ih rest hw

end apply

structure Store (α β : Type*) where
  data : α → β
  log : Nat → β
  head : List α

namespace Store
variable {s : Store α β} {a : α} {i : Nat} {v : β}

/-- The logged writes. -/
def entries (s : Store α β) : List (α × β) := s.head.mapIdx fun i a => (a, s.log i)

/-- The data once the log is installed. -/
def redo (s : Store α β) : α → β := apply s.data s.entries

def setData (s : Store α β) (a : α) (v : β) : Store α β := { s with data := update s.data a v }
def setLog (s : Store α β) (i : Nat) (v : β) : Store α β := { s with log := update s.log i v }
def setHead (s : Store α β) (h : List α) : Store α β := { s with head := h }

omit [DecidableEq α] in
@[simp] theorem entries_length : s.entries.length = s.head.length := by simp [entries]

omit [DecidableEq α] in
theorem entries_fst : s.entries.map Prod.fst = s.head :=
  ext_getElem (by simp) fun i _ _ => by simp [entries]

theorem redo_of_clean (h : s.head = []) : s.redo = s.data := by simp [redo, entries, h]

/-- A write into the log behind its last entry. -/
theorem redo_setLog (h : s.head.length ≤ i) : (s.setLog i v).redo = s.redo := by
  have : (s.setLog i v).entries = s.entries := by
    refine ext_getElem (by simp [setLog]) fun n hn _ => ?_
    have lt : n < s.head.length := by simpa [setLog] using hn
    simp [entries, setLog, update_of_ne (show n ≠ i by omega)]
  simp only [redo, this]
  rfl

/-- An installed entry. -/
theorem redo_setData (h : a ∈ s.head) : (s.setData a v).redo = s.redo := by
  funext x
  refine apply_congr fun out => ?_
  rw [show (s.setData a v).entries = s.entries from rfl, entries_fst] at out
  exact update_of_ne (by rintro rfl; exact out h) _ _

/-- The head of a clean store is written over a log of the values of `f`. -/
theorem redo_setHead {h : List α} {f : α → β} (log : ∀ i (hi : i < h.length), s.log i = f h[i])
    (x : α) : (s.setHead h).redo x = if x ∈ h then f x else s.data x := by
  have values : ∀ w ∈ (s.setHead h).entries, w.2 = f w.1 := by
    intro w hw
    obtain ⟨i, hi, rfl⟩ := mem_iff_getElem.1 hw
    have hi' : i < h.length := by simpa [setHead] using hi
    simpa [entries, setHead] using log i hi'
  rw [redo, apply_of_values values, entries_fst]
  rfl

theorem redo_getElem (nodup : s.head.Nodup) (h : i < s.head.length) :
    s.redo s.head[i] = s.log i := by
  have hw : (s.head[i], s.log i) ∈ s.entries :=
    mem_iff_getElem.2 ⟨i, by simpa using h, by simp [entries]⟩
  exact apply_of_nodup (by rw [entries_fst]; exact nodup) hw

theorem redo_of_notMem (h : a ∉ s.head) : s.redo a = s.data a :=
  apply_of_notMem (by rw [entries_fst]; exact h)

end Store

end OsProject.Lib.Redo
