import OsProject.Xv6.ForkCount

/-! # The fork limit

`kfork` and `thread_fork` refuse at a counter of 10. The counter drops when a
child exits, but the child's slot is free only once the parent has waited for
it, so the slots a process occupies are bounded only as long as it does not
fork past an exited child (`Reaped`). A child's creator is read off the
history, since `parent` moves to init. -/
namespace OsProject.Xv6.ForkLimit
open Lib.Transition Lib.Count ProcTable Machine
open Lifecycle Table Family ForkCount

/-- The process, as a slot and its occupant, that made the occupant of slot `j`. -/
def creator : List Label → Slot → Option (Slot × Nat)
  | [], _ => none
  | l :: t, j => match l.event with
    | .alloc child => if child = j then some (l.actor, incarnation t l.actor) else creator t j
    | _ => creator t j

/-- The slots occupied by children that occupant `n` of slot `q` made itself. -/
def created (t : List Label) (k : Kernel) (q : Slot) (n : Nat) : Nat :=
  count fun j => (k j).state ≠ .unused ∧ creator t j = some (q, n)

theorem creator_alloc {t i j c} :
    creator (⟨i, c, .alloc j⟩ :: t) j = some (i, incarnation t i) := by simp [creator]

theorem creator_other {t l j} (h : l.event ≠ .alloc j) : creator (l :: t) j = creator t j := by
  simp only [creator]
  split
  · rename_i child hev
    rw [if_neg]
    rintro rfl
    exact h hev
  · rfl

/-- How the creators in a history fit the table it leads to. -/
structure Creators (t : List Label) (k : Kernel) : Prop where
  bound : ∀ j q n, creator t j = some (q, n) → n ≤ incarnation t q
  making : ∀ q j, making (k q).point = some j → creator t j = some (q, incarnation t q)
  linked : ∀ j q, creator t j = some (q, incarnation t q) → (k j).state ≠ .unused →
    past (k q).point = false →
      (k j).parent = some q ∨ Table.making (k q).point = some j

/-- A process enters `kfork` or `thread_fork` only when no child of it has left
its counter without having been waited for. -/
def Reaped (k : Kernel) (l : Label) : Prop :=
  scheduling l.choice = true ∨ match (k l.actor).point with
    | .forkCheck _ => ∀ j, (k j).parent = some l.actor → counted (k j) = true
    | _ => True

section steps
variable {k k' : Kernel} {i : Slot} {c : Choice} {e : Event} {t : List Label}

/-- A process goes on making its child until it is linked, or gives it up. -/
theorem make_step {j} (s : LifeStep k i c e k') (h : making (k i).point = some j) :
    making (k' i).point = some j ∨ (k' j).parent = some i ∨
      (k' j).state = .unused := by
  cases s with
  | act go run a =>
    have flow := a.flow
    generalize (k i).point = p at flow h
    generalize (k' i).point = q at flow
    cases flow with
    | clearReady | clearLen | made => exact .inl h
    | allocFail _ _ _ _ un => cases h; exact .inr (.inr un)
    | link _ _ par => cases h; exact .inr (.inl par)
    | sect _ before => cases p <;> first | (cases h; done) | cases before
    | hold hh =>
      have held := (hold_wait hh).1
      cases p <;> first | (cases h; done) | cases held
    | _ => cases h
  | sched go s => exact .inl ((s.at making i).trans h)

theorem alloc_step {j} (s : LifeStep k i c (.alloc j) k') : making (k' i).point = some j := by
  cases s with
  | act go run a =>
    cases a with
    | sect sec => cases sec.event
    | found f j pt un => rw [goto_self]; rfl

theorem actor_not_taken (hw : Wf k) (s : LifeStep k i c e k') : takes i e = false := by
  rw [Bool.eq_false_iff]
  intro ht
  have un := takes_unused s ht
  cases s with
  | act go run a => exact run ((hw.shape i).unused_inv un).1
  | sched go s => cases ht

theorem Creators.step (h : Creators t k) (hw : Wf k) (s : Step k ⟨i, c, e⟩ k') :
    Creators (⟨i, c, e⟩ :: t) k' := by
  have life := step_life s
  -- whoever still has its creator's incarnation had it before the step
  have old : ∀ j q, e ≠ .alloc j →
      creator (⟨i, c, e⟩ :: t) j = some (q, incarnation (⟨i, c, e⟩ :: t) q) →
      takes q e = false ∧ creator t j = some (q, incarnation t q) := by
    intro j q hne hc
    rw [creator_other hne] at hc
    by_cases ht : takes q e = true
    · have := h.bound j q _ hc
      rw [incarnation_takes ht] at this
      omega
    · simp only [Bool.not_eq_true] at ht
      rw [incarnation_other ht] at hc
      exact ⟨ht, hc⟩
  have actor := actor_not_taken hw life
  constructor
  · intro j q n hc
    by_cases he : e = .alloc j
    · subst he
      rw [creator_alloc] at hc
      cases hc
      exact incarnation_mono t _ i
    · rw [creator_other he] at hc
      exact (h.bound j q n hc).trans (incarnation_mono t _ q)
  · intro q j hp
    have hp0 : Table.making (k q).point = some j ∨ q = i ∧ e = .alloc j := by
      by_cases hq : q = i
      · subst hq
        exact ((moves_step hw.links.init.2 life).make j hp).imp_right fun h' => ⟨rfl, h'.1⟩
      · rcases point_step life hq with hp' | ⟨-, -, hp'⟩ <;> rw [hp'] at hp
        · exact .inl hp
        · cases hp
    rcases hp0 with hp0 | ⟨rfl, rfl⟩
    · have used := (hw.links.making q j hp0).1
      have hne : e ≠ .alloc j := by
        rintro rfl
        rw [takes_unused life (by simp [takes])] at used
        cases used
      have ht : takes q e = false := by
        rw [Bool.eq_false_iff]
        intro ht
        rcases ((hw.shape q).unused_inv (takes_unused life ht)).2.2.1 with h' | h' <;>
          rw [h'] at hp0 <;> cases hp0
      rw [creator_other hne, incarnation_other ht]
      exact h.making q j hp0
    · rw [creator_alloc, incarnation_other actor]
  · intro j q hc st hp
    by_cases he : e = .alloc j
    · subst he
      rw [creator_alloc] at hc
      obtain rfl : i = q := by simpa using congrArg (Option.map Prod.fst) hc
      exact .inr (alloc_step life)
    · obtain ⟨ht, hc0⟩ := old j q he hc
      have st0 : (k j).state ≠ .unused := (occupied_step hw life st).resolve_right he
      have hp0 : past (k q).point = false := by
        rw [Bool.eq_false_iff]
        intro hp0
        rcases past_step life hp0 with h' | h'
        · rw [hp] at h'; cases h'
        · rw [ht] at h'; cases h'
      have step := parent_step life j
      generalize hpar : (k' j).parent = new at step
      rcases h.linked j q hc0 st0 hp0 with par | pt
      · left
        cases step with
        | same => exact par
        | cleared was now => exact absurd now st
        | linked pid' pt' =>
          rw [(hw.links.linking pt').2] at par
          cases par
        | adopted status pt' _ par' =>
          rw [par] at par'
          cases par'
          rw [pt'] at hp0
          cases hp0
      · by_cases hq : q = i
        · subst hq
          rw [← hpar]
          rcases make_step life pt with pt' | par | un
          · exact .inr pt'
          · exact .inl par
          · exact absurd un st
        · rcases point_step life hq with hp' | ⟨-, ht', -⟩
          · exact .inr (by rw [hp']; exact pt)
          · rw [ht] at ht'; cases ht'

/-- The allocation loop is entered only through the test of the counter. -/
theorem scan_step {f n} (s : LifeStep k i c e k') (h : (k' i).point = .forkScan f n) :
    (∃ n', (k i).point = .forkScan f n') ∨
      scheduling c = false ∧ (k i).point = .forkCheck f ∧ (k i).forkCount < 10 := by
  cases s with
  | act go run a =>
    have flow := a.flow
    rw [h] at flow
    generalize hp : (k i).point = p at flow
    cases flow with
    | sect s =>
      rw [← hp]
      exact (s.quiet.scan f n h).imp_right fun h' => ⟨go, h'⟩
    | hold hh => cases (hold_wait hh).2
    | enter c eq => cases c <;> cases eq
  | sched go s => exact .inl ⟨n, (s.at (· = .forkScan f n) i).mp h⟩

/-- The bound itself: one slot is left for the process that is in the loop. -/
structure Limited (t : List Label) (k : Kernel) : Prop where
  scan : ∀ q f n, (k q).point = .forkScan f n → created t k q (incarnation t q) ≤ 9
  ten : ∀ q n, created t k q n ≤ 10

/-- Behind the test of the counter, a process with no exited child has made at
most nine that are still in the table. -/
theorem created_of_check (tally : Tally k) (h : Creators t k) {f}
    (pt : (k i).point = .forkCheck f) (room : (k i).forkCount < 10)
    (reaped : ∀ j, (k j).parent = some i → counted (k j) = true) :
    created t k i (incarnation t i) ≤ 9 := by
  have total := tally.total i
  rw [pt] at total
  have le : created t k i (incarnation t i) ≤ count (Kid k i) := by
    refine count_mono fun j hj => ?_
    rcases h.linked j i hj.2 hj.1 (by rw [pt]; rfl) with par | hp
    · exact ⟨par, reaped j par⟩
    · rw [pt] at hp; cases hp
  simp only [uncounted] at total
  omega

theorem created_mono (hw : Wf k) (s : Step k ⟨i, c, e⟩ k') {q n}
    (other : ∀ j, e = .alloc j → (q, n) ≠ (i, incarnation t i)) :
    created (⟨i, c, e⟩ :: t) k' q n ≤ created t k q n := by
  refine count_mono fun j hj => ?_
  by_cases he : e = .alloc j
  · subst he
    rw [creator_alloc] at hj
    exact absurd (Option.some.inj hj.2).symm (other j rfl)
  · rw [creator_other he] at hj
    exact ⟨(occupied_step hw (step_life s) hj.1).resolve_right he, hj.2⟩

theorem Limited.step (h : Limited t k) (hw : Wf k) (tally : Tally k) (hc : Creators t k)
    (s : Step k ⟨i, c, e⟩ k') (reaped : Reaped k ⟨i, c, e⟩) : Limited (⟨i, c, e⟩ :: t) k' := by
  have life := step_life s
  constructor
  · intro q f n hp
    by_cases hq : q = i
    · subst hq
      have keeps := created_mono (t := t) (q := q) (n := incarnation t q) hw s fun j he => by
        subst he
        have made := alloc_step life
        rw [hp] at made
        cases made
      rw [incarnation_other (actor_not_taken hw life)]
      refine keeps.trans ?_
      rcases scan_step life hp with ⟨n', hp0⟩ | ⟨go, hp0, room⟩
      · exact h.scan q f n' hp0
      · rcases reaped with sched | reaped
        · rw [go] at sched; cases sched
        · simp only [hp0] at reaped
          exact created_of_check tally hc hp0 room reaped
    · rcases point_step life hq with hp' | ⟨-, -, hp'⟩
      · have hp0 := hp'.symm.trans hp
        have ht : takes q e = false := by
          rw [Bool.eq_false_iff]
          intro ht
          rcases ((hw.shape q).unused_inv (takes_unused life ht)).2.2.1 with h' | h' <;>
            rw [h'] at hp0 <;> cases hp0
        rw [incarnation_other ht]
        refine (created_mono hw s fun j _ hqi => hq ?_).trans (h.scan q f n hp0)
        exact (Prod.mk.inj hqi).1
      · rw [hp'] at hp; cases hp
  · intro q n
    by_cases hq : ∃ j, e = .alloc j ∧ (q, n) = (i, incarnation t i)
    · obtain ⟨j, rfl, hqn⟩ := hq
      cases hqn
      have nine : created t k i (incarnation t i) ≤ 9 := by
        cases life with
        | act go run a =>
          cases a with
          | sect sec => cases sec.event
          | found f j pt un => exact h.scan i f j.val pt
      have step : created (⟨i, c, .alloc j⟩ :: t) k' i (incarnation t i) ≤
          created t k i (incarnation t i) + 1 := by
        refine count_le_succ j fun m hm hmem => ?_
        have hne : Event.alloc j ≠ .alloc m := by simpa using hm.symm
        rw [creator_other hne] at hmem
        exact ⟨(occupied_step hw life hmem.1).resolve_right hne, hmem.2⟩
      omega
    · exact (created_mono hw s fun j he hqn => hq ⟨j, he, hqn⟩).trans (h.ten q n)

end steps

/-- In every history whose steps are all `Orderly` and `Reaped`, no process
occupies more than ten slots with children of its own making. -/
theorem created_le_ten {b : Boot} {t : List Label} {k : Kernel}
    (h : Run (When Step fun k l => Orderly k l ∧ Reaped k l) (boot b) t k) (q : Slot) (n : Nat) :
    created t k q n ≤ 10 := by
  have inv : Wf k ∧ Tally k ∧ Creators t k ∧ Limited t k := by
    refine h.invariant (I := fun t k => Wf k ∧ Tally k ∧ Creators t k ∧ Limited t k) ?_ ?_
    · have none : ∀ q n, created [] (boot b) q n = 0 := fun q n =>
        count_eq_zero fun j hj => by cases hj.2
      refine ⟨wf_boot b, tally_boot b, ⟨?_, ?_, ?_⟩, ?_, ?_⟩
      · intro j q n hc; cases hc
      · intro q j hp; rcases boot_point b q with h | h <;> rw [h] at hp <;> cases hp
      · intro j q hc; cases hc
      · intro q f n hp; rcases boot_point b q with h | h <;> rw [h] at hp <;> cases hp
      · intro q n; rw [none]; exact zero_le
    · rintro t k ⟨i, c, e⟩ k' - ⟨wf, tally, creators, limited⟩ ⟨s, ord, reaped⟩
      exact ⟨wf_step wf s, tally_step tally wf s ord, creators.step wf s,
        limited.step wf tally creators s reaped⟩
  exact inv.2.2.2.ten q n

instance (k : Kernel) (l : Label) : Decidable (Reaped k l) := by
  unfold Reaped
  split <;> infer_instance

theorem created_after_fork : ∃ t k, Run (When Step fun k l => Orderly k l ∧ Reaped k l)
    (boot bareBoot) t k ∧ created t k initproc 0 = 1 ∧ created t k initproc 0 ≤ 10 := by
  obtain ⟨t, k, h, hc⟩ := execWhen_reaches (fun k l => Orderly k l ∧ Reaped k l) (boot bareBoot)
    (starts initproc 0 ++ forks initproc 1) (fun t k => created t k initproc 0 = 1)
    (by decide +kernel)
  exact ⟨t, k, h, hc, created_le_ten h initproc 0⟩

/-- `n` forks of init into the slots from `first` on. -/
def forksFrom (first : Nat) : Nat → Schedule
  | 0 => []
  | n + 1 => forks initproc first ++ forksFrom (first + 1) n

/-- init makes ten children, the first of them exits, and init makes another. -/
theorem created_eleven : ∃ t k, History bareBoot t k ∧ created t k initproc 0 = 11 :=
  exec_reaches (starts initproc 0 ++ forksFrom 1 10 ++ starts 1 1 ++ exits 1 0 0 ++
    forks initproc 11) (by decide +kernel)

end OsProject.Xv6.ForkLimit
