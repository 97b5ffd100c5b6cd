import Mathlib.Algebra.Ring.Nat
import Mathlib.Logic.Function.Basic
import Mathlib.Tactic.Common

/-! # Threads that share a state

A program is a tree of operations: each is one atomic section on the shared state, and
what a thread does between two sections is in the continuation. A `Protocol` says what
every operation needs and leaves, in terms of what its thread owns; `wp` extends this to
programs. If every thread runs a program that keeps to the protocol, then every
interleaving keeps the invariant. A thread that is between two programs owns nothing:
what it has is the invariant's. -/
namespace OsProject.Lib.Threads
open Function (update update_of_ne update_self update_idem)

variable {ι Op ω σ ρ α β Loc : Type} {Res : Op → Type}

inductive Prog (Res : Op → Type) (α : Type) : Type
  | ret (a : α)
  | op (o : Op) (k : Res o → Prog Res α)

namespace Prog

def bind : Prog Res α → (α → Prog Res β) → Prog Res β
  | .ret a, f => f a
  | .op o k, f => .op o fun r => (k r).bind f

instance : Monad (Prog Res) where
  pure := .ret
  bind := .bind

end Prog

/-- One section. -/
def perform (o : Op) : Prog Res (Res o) := .op o .ret

/-- The shared state, and what is left of the program of each thread. -/
structure Pool (ι : Type) (Res : Op → Type) (σ ρ : Type) where
  shared : σ
  code : ι → Option (Prog Res ρ)

/-- A section of a thread, with a choice of the environment: `none` if it cannot be taken now,
and no answer if the thread does not come back from it. -/
abbrev Exec (ι : Type) (Res : Op → Type) (ω σ : Type) : Type :=
  ι → (o : Op) → ω → σ → Option (Option (Res o) × σ)

section pool
variable [DecidableEq ι]

/-- An entry of a table in which one entry has been set. -/
theorem update_eq_some {f} {i j : ι} {x : Option α} {b} (h : update f i x j = some b) :
    (j = i ∧ x = some b) ∨ (j ≠ i ∧ f j = some b) := by
  by_cases eq : j = i
  · rw [eq, update_self] at h
    exact .inl ⟨eq, h⟩
  · rw [update_of_ne eq] at h
    exact .inr ⟨eq, h⟩

theorem update_some {f} {i j : ι} {a b : α} (h : update f i (some a) j = some b) :
    (j = i ∧ a = b) ∨ (j ≠ i ∧ f j = some b) :=
  (update_eq_some h).imp_left fun own => ⟨own.1, Option.some.inj own.2⟩

/-- Thread `i` goes on with a program, up to its next section. -/
def Pool.enter (s : Pool ι Res σ ρ) (i : ι) (sh : σ) : Prog Res ρ → Pool ι Res σ ρ × Option ρ
  | .ret a => (⟨sh, update s.code i none⟩, some a)
  | .op o k => (⟨sh, update s.code i (some (.op o k))⟩, none)

/-- The next section of thread `i`, with what its program returns if it ends there. -/
def Pool.advance (exec : Exec ι Res ω σ) (s : Pool ι Res σ ρ) (i : ι) (c : ω) :
    Option (Pool ι Res σ ρ × Option ρ) :=
  match s.code i with
  | some (.op o k) =>
    match exec i o c s.shared with
    | some (some r, sh) => some (s.enter i sh (k r))
    | some (none, sh) => some (⟨sh, update s.code i none⟩, none)
    | none => none
  | _ => none

/-- What the operations do to the shared state, in terms of what their thread owns. -/
structure Protocol (exec : Exec ι Res ω σ) (Loc ρ : Type) where
  Inv : σ → (ι → Option Loc) → Prop
  pre : ι → Op → Loc → Prop
  post : ι → (o : Op) → Loc → Res o → Loc → Prop
  done : ρ → Loc → Prop
  sound : ∀ {s s' ls i o c l r}, Inv s ls → ls i = some l → pre i o l →
    exec i o c s = some (some r, s') → ∃ l', post i o l r l' ∧ Inv s' (update ls i (some l'))
  gone : ∀ {s s' ls i o c l}, Inv s ls → ls i = some l → pre i o l →
    exec i o c s = some (none, s') → Inv s' (update ls i none)
  leave : ∀ {s ls i l a}, Inv s ls → ls i = some l → done a l → Inv s (update ls i none)

/-- After a section: what its thread owns then, or the invariant without the thread. -/
def Leaves (Inv : σ → (ι → Option Loc) → Prop) (ls : ι → Option Loc) (i : ι)
    (post : α → Loc → Prop) : Option α × σ → Prop
  | (some r, s) => ∃ l, post r l ∧ Inv s (update ls i (some l))
  | (none, s) => Inv s (update ls i none)

namespace Protocol
variable {exec : Exec ι Res ω σ} (P : Protocol exec Loc ρ) {i : ι} {s : Pool ι Res σ ρ}

/-- The program keeps to the protocol, and ends in `Q`. -/
def wp (i : ι) : Prog Res α → (α → Loc → Prop) → Loc → Prop
  | .ret a, Q, l => Q a l
  | .op o k, Q, l => P.pre i o l ∧ ∀ r l', P.post i o l r l' → wp i (k r) Q l'

variable {P}

theorem wp_mono {x} {Q Q' : α → Loc → Prop} {l} (h : P.wp i x Q l)
    (imp : ∀ a l, Q a l → Q' a l) : P.wp i x Q' l := by
  induction x generalizing l with
  | ret a => exact imp a l h
  | op o k ih => exact ⟨h.1, fun r l' hp => ih r (h.2 r l' hp)⟩

theorem wp_bind {x} {f : α → Prog Res β} {Q l}
    (h : P.wp i x (fun a l' => P.wp i (f a) Q l') l) : P.wp i (x >>= f) Q l := by
  induction x generalizing l with
  | ret a => exact h
  | op o k ih => exact ⟨h.1, fun r l' hp => ih r (h.2 r l' hp)⟩

theorem wp_perform {o Q l} (pre : P.pre i o l)
    (h : ∀ r l', P.post i o l r l' → Q r l') : P.wp i (perform o) Q l := ⟨pre, h⟩

/-- What a thread owns is enough for the rest of its program. -/
def Runs (P : Protocol exec Loc ρ) (i : ι) : Option (Prog Res ρ) → Option Loc → Prop
  | none, none => True
  | some x, some l => P.wp i x P.done l
  | _, _ => False

theorem Runs.idle {o} (h : P.Runs i none o) : o = none := by
  cases o with
  | none => rfl
  | some l => exact h.elim

theorem Runs.own {x o} (h : P.Runs i (some x) o) : ∃ l, o = some l ∧ P.wp i x P.done l := by
  cases o with
  | none => exact h.elim
  | some l => exact ⟨l, rfl, h⟩

/-- The invariant of the pool. -/
def Holds (P : Protocol exec Loc ρ) (s : Pool ι Res σ ρ) : Prop :=
  ∃ ls, P.Inv s.shared ls ∧ ∀ i, P.Runs i (s.code i) (ls i)

theorem runs_update {ls code l}
    (h : ∀ i, P.Runs i (s.code i) (ls i)) (here : P.Runs i code l) (j : ι) :
    P.Runs j (update s.code i code j) (update ls i l j) := by
  by_cases ne : j = i
  · subst ne
    rw [update_self, update_self]
    exact here
  · rw [update_of_ne ne, update_of_ne ne]
    exact h j

theorem enter_holds {ls sh x l}
    (inv : P.Inv sh (update ls i (some l))) (h : ∀ i, P.Runs i (s.code i) (ls i))
    (here : P.wp i x P.done l) : P.Holds (s.enter i sh x).1 := by
  cases x with
  | ret a =>
    refine ⟨update ls i none, ?_, runs_update h trivial⟩
    have left := P.leave inv (update_self ..) here
    rwa [update_idem] at left
  | op o k => exact ⟨update ls i (some l), inv, runs_update h here⟩

/-- After its section a thread goes on, or it is gone. -/
theorem advance_cases {c r} (inv : P.Holds s) (st : s.advance exec i c = some r) :
    ∃ ls, (∀ i, P.Runs i (s.code i) (ls i)) ∧
      ((∃ sh x l, r = s.enter i sh x ∧ P.Inv sh (update ls i (some l)) ∧ P.wp i x P.done l) ∨
        ∃ sh, r = (⟨sh, update s.code i none⟩, none) ∧ P.Inv sh (update ls i none)) := by
  obtain ⟨ls, inv, h⟩ := inv
  refine ⟨ls, h, ?_⟩
  have here := h i
  unfold Pool.advance at st
  split at st
  · rename_i o k code
    rw [code] at here
    obtain ⟨l, own, pre, rest⟩ := here.own
    split at st
    · rename_i b sh ex
      cases st
      obtain ⟨l', post, inv'⟩ := P.sound inv own pre ex
      exact .inl ⟨sh, k b, l', rfl, inv', rest b l' post⟩
    · rename_i sh ex
      cases st
      exact .inr ⟨sh, rfl, P.gone inv own pre ex⟩
    · cases st
  · cases st

/-- A section of a thread keeps the invariant. -/
theorem advance_holds {c r} (inv : P.Holds s) (st : s.advance exec i c = some r) : P.Holds r.1 := by
  obtain ⟨ls, h, ⟨sh, x, l, rfl, inv', run⟩ | ⟨sh, rfl, inv'⟩⟩ := advance_cases inv st
  · exact enter_holds inv' h run
  · exact ⟨_, inv', runs_update h trivial⟩

/-- A thread between two programs starts one. -/
theorem call_holds {x} (inv : P.Holds s) (idle : s.code i = none)
    (start : ∀ ls, P.Inv s.shared ls → ls i = none →
      ∃ l, P.Inv s.shared (update ls i (some l)) ∧ P.wp i x P.done l) :
    P.Holds (s.enter i s.shared x).1 := by
  obtain ⟨ls, inv, h⟩ := inv
  have here := h i
  rw [idle] at here
  obtain ⟨l, inv', run⟩ := start ls inv here.idle
  exact enter_holds inv' h run

/-- A thread between two programs makes one section on its own. -/
theorem section_holds {sh} (inv : P.Holds s) (idle : s.code i = none)
    (keep : ∀ ls, P.Inv s.shared ls → ls i = none → P.Inv sh ls) : P.Holds ⟨sh, s.code⟩ := by
  obtain ⟨ls, inv, h⟩ := inv
  have here := h i
  rw [idle] at here
  exact ⟨ls, keep ls inv here.idle, h⟩

/-- What a thread owns when its program ends. -/
theorem advance_returns {c s' a} (inv : P.Holds s) (st : s.advance exec i c = some (s', some a)) :
    ∃ ls l, P.Inv s'.shared ls ∧ ls i = some l ∧ P.done a l := by
  obtain ⟨ls, -, ⟨sh, x, l, eq, inv', run⟩ | ⟨sh, eq, -⟩⟩ := advance_cases inv st
  · cases x with
    | ret b =>
      cases eq
      exact ⟨_, l, inv', update_self .., run⟩
    | op o k => cases eq
  · cases eq

/-- When no thread is in a program, the invariant has everything. -/
theorem Holds.quiet (inv : P.Holds s) (idle : ∀ i, s.code i = none) :
    P.Inv s.shared fun _ => none := by
  obtain ⟨ls, inv, h⟩ := inv
  have nothing : ls = fun _ => none := by
    funext i
    have here := h i
    rw [idle i] at here
    exact here.idle
  rwa [nothing] at inv

end Protocol
end pool
end OsProject.Lib.Threads
