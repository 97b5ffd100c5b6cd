import Mathlib.Algebra.Ring.Nat
import Mathlib.Tactic.Common

/-! # Runs of a labelled transition system

A run keeps its labels newest first, so that a history is read by recursion on
the list and extended by `cons`. `When` restricts the steps of a system by a
condition on the state before the step; `Follows` compares two steps, and
`Run.lockstep` two runs; `replay` executes a guarded step function along a list
of choices and yields a run. -/
namespace OsProject.Lib.Transition
open Option

variable {σ ε α : Type*}

/-- What a step function returns, taken apart. -/
theorem stepped {s s' : σ} {e e' : ε} (h : some (s, e) = some (s', e')) : s = s' ∧ e = e' :=
  Prod.mk.inj (Option.some.inj h)

/-- `Run step start es s`: `step` leads from `start` to `s` with labels `es`,
the newest label first. -/
inductive Run (step : σ → ε → σ → Prop) (start : σ) : List ε → σ → Prop
  | nil : Run step start [] start
  | cons {es : List ε} {s s' : σ} {e : ε} :
      Run step start es s → step s e s' → Run step start (e :: es) s'

variable {step step' : σ → ε → σ → Prop} {start s : σ} {es : List ε}

/-- An invariant of the history and the state: it holds at the start and every
step of a run keeps it. -/
theorem Run.invariant {I : List ε → σ → Prop} (h : Run step start es s) (h0 : I [] start)
    (hs : ∀ es s e s', Run step start es s → I es s → step s e s' → I (e :: es) s') : I es s := by
  induction h with
  | nil => exact h0
  | cons hr hst ih => exact hs _ _ _ _ hr ih hst

/-- A state invariant, for a system whose steps keep it. -/
theorem Run.keeps {I : σ → Prop} (h : Run step start es s) (h0 : I start)
    (hs : ∀ s e s', I s → step s e s' → I s') : I s :=
  h.invariant (I := fun _ s => I s) h0 (fun _ s e s' _ hi hst => hs s e s' hi hst)

theorem Run.mono (h : Run step start es s) (hsub : ∀ s e s', step s e s' → step' s e s') :
    Run step' start es s := by
  induction h with
  | nil => exact .nil
  | cons _ hst ih => exact .cons ih (hsub _ _ _ hst)

theorem Run.trans {mid es1 es2} (h1 : Run step start es1 mid)
    (h2 : Run step mid es2 s) : Run step start (es2 ++ es1) s := by
  induction h2 with
  | nil => exact h1
  | cons _ hst ih => exact .cons ih hst

theorem Run.single {s' e} (h : step s e s') : Run step s [e] s' := .cons .nil h

/-- The steps of a system that meet a condition on the state before them. -/
def When (step : σ → ε → σ → Prop) (cond : σ → ε → Prop) : σ → ε → σ → Prop :=
  fun s e s' => step s e s' ∧ cond s e

theorem Run.of_when {cond} (h : Run (When step cond) start es s) :
    Run step start es s := h.mono fun _ _ _ hst => hst.1

/-- Two results of a step function: where the first goes on, the second goes on
with the same label, to a related state. -/
inductive Follows (R : σ → σ → Prop) : Option (σ × ε) → Option (σ × ε) → Prop
  | stuck {r : Option (σ × ε)} : Follows R none r
  | go {s s' : σ} (e : ε) (h : R s s') : Follows R (some (s, e)) (some (s', e))

theorem Follows.inv {R : σ → σ → Prop} {e : ε} {r : Option (σ × ε)}
    (h : Follows R (some (s, e)) r) : ∃ s', r = some (s', e) ∧ R s s' := by
  cases h with
  | go _ hr => exact ⟨_, rfl, hr⟩

/-- If every step from one of two related states is a step from the other, to
related states, then so is every run. -/
theorem Run.lockstep {R : σ → σ → Prop} {start'} (h : Run step start es s) (h0 : R start start')
    (hs : ∀ s e s1 s', R s s' → step s e s1 → ∃ s1', step' s' e s1' ∧ R s1 s1') :
    ∃ s', Run step' start' es s' ∧ R s s' := by
  induction h with
  | nil => exact ⟨start', .nil, h0⟩
  | cons _ hst ih =>
    obtain ⟨s', run, hr⟩ := ih
    obtain ⟨s1', st, hr'⟩ := hs _ _ _ _ hr hst
    exact ⟨s1', .cons run st, hr'⟩

/-- Execute a guarded step function along a list of choices, from a state with
a history. -/
def replay (next : σ → α → Option (σ × ε)) : σ → List ε → List α → Option (σ × List ε)
  | s, es, [] => some (s, es)
  | s, es, a :: rest => (next s a).bind fun r => replay next r.1 (r.2 :: es) rest

/-- A successful replay extends a run. -/
theorem replay_run {next : σ → α → Option (σ × ε)}
    (hnext : ∀ s a s' e, next s a = some (s', e) → step s e s') :
    ∀ {as : List α} {s s' : σ} {es es' : List ε}, Run step start es s →
      replay next s es as = some (s', es') → Run step start es' s'
  | [], s, s', es, es', hr, h => by
    simp only [replay, Option.some.injEq, Prod.mk.injEq] at h
    obtain ⟨rfl, rfl⟩ := h
    exact hr
  | a :: rest, s, s', es, es', hr, h => by
    simp only [replay, bind_eq_some_iff] at h
    obtain ⟨⟨s1, e⟩, hn, h⟩ := h
    exact replay_run hnext (.cons hr (hnext _ _ _ _ hn)) h

/-- The system of a step function whose labels are its choices. -/
def ByStep (f : σ → ε → Option σ) (s : σ) (e : ε) (s' : σ) : Prop := f s e = some s'

theorem Run.of_foldlM {f} :
    ∀ {as es : List ε} {s s' : σ}, Run (ByStep f) start es s → as.foldlM f s = some s' →
      Run (ByStep f) start (as.reverse ++ es) s'
  | [], es, s, s', hr, h => by
    obtain rfl : s = s' := Option.some.inj h
    exact hr
  | a :: as, es, s, s', hr, h => by
    rw [List.foldlM_cons] at h
    obtain ⟨s1, ha, h⟩ := bind_eq_some_iff.1 h
    rw [List.reverse_cons, List.append_assoc]
    exact .of_foldlM (.cons hr ha) h

/-- A list of choices that leads to a state with a decidable property. -/
theorem foldlM_reaches (f : σ → ε → Option σ) (start : σ) (as : List ε) {P} [DecidablePred P]
    (h : ((as.foldlM f start).any fun s => decide (P s)) = true) :
    ∃ s, Run (ByStep f) start as.reverse s ∧ P s := by
  rw [any_eq_true] at h
  obtain ⟨s, hr, hp⟩ := h
  exact ⟨s, by simpa using Run.of_foldlM .nil hr, of_decide_eq_true hp⟩

/-- The same along choices that meet a condition. -/
theorem foldlM_reaches_when (f : σ → ε → Option σ) (start : σ) (cond : σ → ε → Prop)
    [∀ s e, Decidable (cond s e)] (as : List ε) {P} [DecidablePred P]
    (h : ((as.foldlM (fun s e => if cond s e then f s e else none) start).any
      fun s => decide (P s)) = true) :
    ∃ s, Run (When (ByStep f) cond) start as.reverse s ∧ P s := by
  obtain ⟨s, run, hp⟩ := foldlM_reaches _ start as h
  refine ⟨s, run.mono fun s e s' st => ?_, hp⟩
  obtain ⟨_, st⟩ := ite_none_right_eq_some.1 st
  exact ⟨st, ‹_›⟩

/-- The system of a step function that also tells what is seen of a step: a label is
the choice and what is seen. -/
def ByEvent (f : σ → α → Option (σ × ε)) (s : σ) (l : α × ε) (s' : σ) : Prop :=
  f s l.1 = some (s', l.2)

/-- A list of choices that meet a condition and lead to a history and a state with a
decidable property. -/
theorem events_reach_when (f : σ → α → Option (σ × ε)) (start : σ) (cond : σ → α × ε → Prop)
    [∀ s l, Decidable (cond s l)] (as : List α) {P : List (α × ε) → σ → Prop}
    [∀ es s, Decidable (P es s)] (h : ((replay (fun s a => (f s a).bind fun r =>
      if cond s (a, r.2) then some (r.1, a, r.2) else none) start [] as).any
        fun r => decide (P r.2 r.1)) = true) :
    ∃ es s, Run (When (ByEvent f) cond) start es s ∧ P es s := by
  rw [any_eq_true] at h
  obtain ⟨⟨s, es⟩, hr, hp⟩ := h
  refine ⟨es, s, replay_run (fun s a s' l hn => ?_) .nil hr, of_decide_eq_true hp⟩
  obtain ⟨r, hf, hn⟩ := bind_eq_some_iff.1 hn
  obtain ⟨hc, ⟨⟩⟩ := ite_none_right_eq_some.1 hn
  exact ⟨hf, hc⟩

/-- The same without a condition. -/
theorem events_reach (f : σ → α → Option (σ × ε)) (start : σ) (as : List α)
    {P : List (α × ε) → σ → Prop} [∀ es s, Decidable (P es s)]
    (h : ((replay (fun s a => (f s a).bind fun r =>
      if True then some (r.1, a, r.2) else none) start [] as).any
        fun r => decide (P r.2 r.1)) = true) : ∃ es s, Run (ByEvent f) start es s ∧ P es s := by
  obtain ⟨es, s, run, hp⟩ := events_reach_when f start (fun _ _ => True) as h
  exact ⟨es, s, run.of_when, hp⟩

end OsProject.Lib.Transition
