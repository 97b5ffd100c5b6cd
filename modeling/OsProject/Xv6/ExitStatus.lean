import OsProject.Xv6.Mailbox
import OsProject.Xv6.Pids

/-! # Exit statuses

A process that exits leaves its status in `xstate` and stays a zombie until its
parent collects it in kwait or kwaitpid. Occupants of a slot are told apart by
counting them, so that a pid or a slot that is used again does not blur who was
collected. -/
namespace OsProject.Xv6.ExitStatus
open Lib.Transition Memory ProcTable Machine List
open Lifecycle Table Family Mailbox
open Pids

/-- The status with which the current occupant of slot `j` has run kexit. -/
def exited (t : List Label) (j : Slot) : Option Int32 :=
  (tenure t j).findSome? fun l =>
    match l.event with
    | .exit status => if l.actor = j then some status else none
    | _ => none

/-- Who was collected so far: the slot, and which of its occupants. -/
def collected : List Label → List (Slot × Nat)
  | [] => []
  | l :: t =>
    match l.event with
    | .reap j _ _ => (j, incarnation t j) :: collected t
    | _ => collected t

structure Statuses (t : List Label) (k : Kernel) : Prop where
  zombie : ∀ j, (k j).state = .zombie → exited t j = some (k j).xstate
  past : ∀ j n, (j, n) ∈ collected t → n ≤ incarnation t j
  gone : ∀ j, (j, incarnation t j) ∈ collected t → (k j).state = .unused
  once : (collected t).Nodup

section steps
variable {k k' : Kernel} {i : Slot} {c : Choice} {e : Event} {t : List Label}

theorem xstate_act (a : Act k i e k') (m : Slot) :
    (k' m).xstate = (k m).xstate ∨ (k' m).state = .unused ∨
      (m = i ∧ e = .exit (k' m).xstate) := by
  obtain sec | writes := a.writes
  · exact .inl (sec.quiet.life m).xstate
  · obtain ⟨f, write, eq, -⟩ := writes m
    rw [eq]
    cases write with
    | zombie status self => exact .inr (.inr ⟨self, rfl⟩)
    | allocFail | reap => exact .inr (.inl rfl)
    | _ => exact .inl rfl

theorem xstate_step (s : LifeStep k i c e k') (m : Slot) :
    (k' m).xstate = (k m).xstate ∨ (k' m).state = .unused ∨
      (m = i ∧ e = .exit (k' m).xstate) := by
  cases s with
  | act go run a => exact xstate_act a m
  | sched go s => exact .inl (s.frame Proc.xstate m)

/-- Only kexit makes a process exit, and it runs on the process itself. -/
theorem exit_inv {status} (s : LifeStep k i c (.exit status) k') :
    (k i).point = .exitZombie status ∧ (k i).cpu ≠ none ∧
      (k' i).xstate = status := by
  cases s with
  | act go run a =>
    cases a with
    | sect sec => cases sec.event
    | zombie _ pt => exact ⟨pt, run, by rw [upd_self]⟩

theorem exited_exit {status} : exited (⟨i, c, .exit status⟩ :: t) i = some status := by
  rw [exited, tenure_cons rfl]
  simp

theorem exited_other {j} (h : takes j e = false) (he : ∀ status, i = j → e ≠ .exit status) :
    exited (⟨i, c, e⟩ :: t) j = exited t j := by
  rw [exited, tenure_cons h, findSome?_cons]
  split
  · rename_i status hs
    exfalso
    split at hs
    · rename_i st ev
      split at hs
      · rename_i hi
        exact he st hi ev
      · cases hs
    · cases hs
  · rfl

/-- A zombie has exited with the status that it keeps. -/
theorem zombie_status (hw : Wf k) (h : Statuses t k) (s : LifeStep k i c e k') (j : Slot)
    (dead : (k' j).state = .zombie) : exited (⟨i, c, e⟩ :: t) j = some (k' j).xstate := by
  cases phase_step hw.shape s j with
  | same ph =>
    have old : (k j).state = .zombie := phase_zombie.1 (ph.symm.trans (phase_zombie.2 dead))
    have quiet : ∀ status, i = j → e ≠ .exit status := by
      rintro status rfl rfl
      obtain ⟨pt, run, -⟩ := exit_inv s
      rw [((hw.shape i).running_of_active run (by rw [pt]; rfl)).1] at old
      cases old
    have kept : takes j e = false := by
      cases taken : takes j e with
      | false => rfl
      | true => rw [takes_unused s taken] at old; cases old
    rw [exited_other kept quiet, h.zombie j old]
    rcases xstate_step s j with same | un | ⟨rfl, ev⟩
    · rw [same]
    · rw [dead] at un; cases un
    · exact absurd ev (quiet _ rfl)
  | died status self pt ev st =>
    subst self ev
    rw [exited_exit, (exit_inv s).2.2]
  | made _ st | readied _ _ _ st | dropped _ _ _ st | freed _ _ _ _ st => rw [dead] at st; cases st

theorem collected_other (h : ∀ j pid addr, e ≠ .reap j pid addr) :
    collected (⟨i, c, e⟩ :: t) = collected t := by
  cases e <;> first | rfl | exact absurd rfl (h _ _ _)

theorem reap_inv {j pid addr} (s : LifeStep k i c (.reap j pid addr) k') :
    (k j).state = .zombie ∧ (k' j).state = .unused := by
  cases s with
  | act go run a =>
    cases a with
    | sect sec => cases sec.event
    | reap _ _ m ok pt par lock dead copy => exact ⟨dead, by rw [goto_state, upd_self]; rfl⟩

theorem statuses_step (hw : Wf k) (h : Statuses t k) (s : LifeStep k i c e k') :
    Statuses (⟨i, c, e⟩ :: t) k' := by
  have zombie := zombie_status hw h s
  -- an empty slot stays empty until it is given away
  have stays : ∀ m, takes m e = false → (k m).state = .unused → (k' m).state = .unused := by
    intro m kept un
    by_contra st
    rcases occupied_step hw s st with old | rfl
    · exact old un
    · simp [takes] at kept
  by_cases reap : ∃ j pid addr, e = .reap j pid addr
  · obtain ⟨j, pid, addr, rfl⟩ := reap
    obtain ⟨dead, freed⟩ := reap_inv s
    have new : (j, incarnation t j) ∉ collected t := fun old => by
      rw [h.gone j old] at dead; cases dead
    refine ⟨zombie, fun m n hm => ?_, fun m hm => ?_, nodup_cons.2 ⟨new, h.once⟩⟩
    · rcases mem_cons.1 hm with eq | old
      · obtain ⟨rfl, rfl⟩ := Prod.mk.inj eq; exact le_refl _
      · exact h.past m n old
    · rcases mem_cons.1 hm with eq | old
      · obtain ⟨rfl, -⟩ := Prod.mk.inj eq; exact freed
      · exact stays m rfl (h.gone m old)
  · have skip : collected (⟨i, c, e⟩ :: t) = collected t :=
      collected_other fun j pid addr ev => reap ⟨j, pid, addr, ev⟩
    refine ⟨zombie, fun m n hm => ?_, fun m hm => ?_, by rw [skip]; exact h.once⟩ <;>
      rw [skip] at hm
    · exact (h.past m n hm).trans (incarnation_mono ..)
    · cases taken : takes m e with
      | true =>
        rw [incarnation_takes taken] at hm
        exact absurd (h.past m _ hm) (Nat.not_succ_le_self _)
      | false =>
        rw [incarnation_other taken] at hm
        exact stays m taken (h.gone m hm)

end steps

theorem history_statuses {b t k} (h : History b t k) : Statuses t k := by
  refine (h.invariant (I := fun t k => Wf k ∧ Statuses t k) ⟨wf_boot b, ?_⟩ ?_).2
  · refine ⟨fun j dead => ?_, nofun, nofun, nodup_nil⟩
    by_cases hj : j = initproc
    · simp only [boot, hj, if_true] at dead; cases dead
    · simp only [boot, hj, if_false] at dead; cases dead
  · rintro t k ⟨i, c, e⟩ k' - ⟨wf, statuses⟩ s
    exact ⟨wf_step wf s, statuses_step wf statuses (step_life s)⟩

/-! ## Collecting -/

/-- A successful kwait or kwaitpid of `i` that collects slot `j`. -/
structure Collects (t : List Label) (k k' : Kernel) (i j : Slot) (pid : Int32) (addr : UInt64) :
    Prop where
  once : (j, incarnation t j) ∉ collected t
  parent : (k j).parent = some i
  named : (k j).pid = pid
  call : (∃ n kids, (k i).point = .waitScan addr n kids) ∨
    ∃ n, (k i).point = .waitpidScan pid addr n
  status : ∃ s, exited t j = some s ∧ (addr ≠ 0 → ∀ b, b < 4 →
    (k' i).mem.read (addr.toNat + b) = some ((intBytes s).getD b 0))
  freed : (k' j).state = .unused

section collecting
variable {b : Boot} {t : List Label} {k k' : Kernel} {i j : Slot} {c : Choice} {pid : Int32}
  {addr : UInt64}

theorem collects (hw : Wf k) (h : Statuses t k) (s : LifeStep k i c (.reap j pid addr) k') :
    Collects t k k' i j pid addr := by
  cases s with
  | act go run a =>
    cases a with
    | sect sec => cases sec.event
    | reap _ _ m ok pt par lock dead copy =>
      have ne : i ≠ j := by
        rintro rfl
        exact run ((hw.shape i).zombie_inv dead lock).1
      refine ⟨fun old => ?_, par, rfl, pt, ⟨_, h.zombie j dead, fun ha => ?_⟩, ?_⟩
      · rw [h.gone j old] at dead; cases dead
      · rw [copyStatus, if_neg ha] at copy
        rw [goto_self, upd_ne ne, upd_self]
        exact (CopyOut.copyout_spec copy).1
      · rw [goto_state, upd_self]; rfl

/-- A copy that fails leaves the zombie as it is. -/
theorem reapFail_keeps (hw : Wf k) (s : LifeStep k i c (.reapFail j) k') :
    (k j).state = .zombie ∧ (k j).parent = some i ∧ k'.proc j = k.proc j := by
  cases s with
  | act go run a =>
    cases a with
    | sect sec => cases sec.event
    | reapFail _ addr m ok pt par dead copy =>
      have ne : j ≠ i := by
        rintro rfl
        rcases pt with ⟨n, kids, pt⟩ | ⟨n, pt⟩ <;>
          rw [((hw.shape j).running_of_active run (by rw [pt]; rfl)).1] at dead <;> cases dead
      exact ⟨dead, par, by rw [goto_ne ne, upd_ne ne]⟩

/-- Nothing but collecting a process frees its slot. -/
theorem freed_reap {e m} (hw : Wf k) (s : LifeStep k i c e k') (was : Made (k m))
    (now : (k' m).state = .unused) : ∃ pid addr, e = .reap m pid addr := by
  cases phase_step hw.shape s m with
  | same ph => exact absurd (phase_unused.1 (ph.symm.trans (phase_unused.2 now))) was.1
  | made un => exact absurd un was.1
  | dropped b =>
    have used := (hw.links.making i m (making_of_building b)).1
    cases (was.2 used).symm.trans ((hw.guarded m used).2 ⟨i, b⟩)
  | freed addr _ _ ev => exact ⟨_, addr, ev⟩
  | readied _ _ _ st | died _ _ _ _ st => rw [now] at st; cases st

end collecting

end OsProject.Xv6.ExitStatus
