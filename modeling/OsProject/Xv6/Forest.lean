import OsProject.Lib.Ancestry
import OsProject.Xv6.Family

/-! # The tree of processes

Every process but init has a parent that has not exited, and init is among
its ancestors. `sys_getppid` holds no lock: it loads the parent and then the
parent's pid, and what it returns is the pid of a living process only if the
parent does not exit in between. -/
namespace OsProject.Xv6.Forest
open Lib.Transition Lib.Ancestry ProcTable Machine
open Lifecycle Table Family

/-- `p->parent`, for every slot. -/
def parents (k : Kernel) (m : Slot) : Option Slot := (k m).parent

structure Rooted (k : Kernel) : Prop where
  parented : ∀ m, m ≠ initproc → phase (k m).state = .live ∨ phase (k m).state = .zombie →
    ∃ q, (k m).parent = some q
  live : ∀ m, phase (k m).state = .live → ∃ n, climb (parents k) n m = some initproc

section steps
variable {k k' : Kernel} {i : Slot} {c : Choice} {e : Event}

/-- A child that becomes runnable has the parent that made it. -/
theorem readied_parent {m pid} (hw : Wf k) (s : LifeStep k i c e k')
    (pt : (k i).point = .forkReady m pid) : (k' m).parent = some i := by
  obtain ⟨used, par⟩ := hw.links.readying i m pid pt
  have step := parent_step s m
  generalize (k' m).parent = new at step
  cases step with
  | same => exact par
  | cleared was =>
    rcases was with was | ⟨was, -⟩
    · rw [used] at was; cases was
    · rw [pt] at was; cases was
  | linked => rfl
  | adopted status pt' => rw [pt] at pt'; cases pt'

/-- The link of a process that is alive stays, or init adopts it. -/
theorem live_link {m q} (hw : Wf k) (s : LifeStep k i c e k')
    (st : phase (k m).state = .live) (par : (k m).parent = some q) :
    (k' m).parent = some q ∨ (k' m).parent = some initproc := by
  have step := parent_step s m
  generalize (k' m).parent = new at step
  cases step with
  | same => exact .inl par
  | cleared was =>
    rcases was with was | ⟨was, -⟩
    · rw [was] at st; cases st
    · rw [(hw.links.making i m was).1] at st; cases st
  | linked pid pt => rw [(hw.links.linking pt).1] at st; cases st
  | adopted => exact .inr rfl

theorem rooted_step (hw : Wf k) (h : Rooted k) (s : LifeStep k i c e k') : Rooted k' := by
  have kept : ∀ m, phase (k m).state = .live → ∃ n, climb (parents k') n m = some initproc := by
    intro m st
    obtain ⟨n, up⟩ := h.live m st
    refine climb_bent (P := fun x => phase (k x).state = .live) (fun x y _ par => ?_)
      (fun x y st par => live_link hw s st par) st up
    exact hw.links.parents x y par
  have parented : ∀ m q, (k m).parent = some q → (k' m).state ≠ .unused →
      ∃ q, (k' m).parent = some q := by
    intro m q par st
    have step := parent_step s m
    generalize (k' m).parent = new at step
    cases step with
    | same => exact ⟨q, par⟩
    | cleared _ now => exact absurd now st
    | linked => exact ⟨i, rfl⟩
    | adopted => exact ⟨initproc, rfl⟩
  constructor
  · intro m ne st
    have occupied : (k' m).state ≠ .unused := by
      intro un
      rcases st with st | st <;> rw [un] at st <;> cases st
    cases phase_step hw.shape s m with
    | same ph =>
      rw [ph] at st
      obtain ⟨q, par⟩ := h.parented m ne st
      exact parented m q par occupied
    | made was now => rcases st with st | st <;> rw [now] at st <;> cases st
    | readied pid pt => exact ⟨i, readied_parent hw s pt⟩
    | died status self pt =>
      subst self
      obtain ⟨q, par⟩ := h.parented m ne (.inl (live_of_point (hw.shape m) (by rw [pt]; rfl)))
      exact parented m q par occupied
    | dropped _ _ _ now | freed _ _ _ _ now => exact absurd now occupied
  · intro m st
    cases phase_step hw.shape s m with
    | same ph => exact kept m (ph ▸ st)
    | made was now => rw [now] at st; cases st
    | readied pid pt =>
      obtain ⟨n, up⟩ := kept i (live_of_point (hw.shape i) (by rw [pt]; rfl))
      exact ⟨n + 1, (climb_succ (f := parents k') (readied_parent hw s pt)).trans up⟩
    | died _ _ _ _ now | dropped _ _ _ now | freed _ _ _ _ now => rw [now] at st; cases st

end steps

theorem boot_rooted (b : Boot) : Rooted (boot b) := by
  constructor
  · intro m ne st
    simp only [boot, ne, if_false] at st
    rcases st with st | st <;> cases st
  · intro m st
    by_cases hm : m = initproc
    · exact ⟨0, by rw [hm]; rfl⟩
    · simp only [boot, hm, if_false] at st; cases st

theorem history_rooted {b t k} (h : History b t k) : Rooted k := by
  refine (h.keeps (I := fun k => Wf k ∧ Rooted k) ⟨wf_boot b, boot_rooted b⟩ ?_).2
  rintro k ⟨i, c, e⟩ k' ⟨wf, rooted⟩ s
  exact ⟨wf_step wf s, rooted_step wf rooted (step_life s)⟩

/-! ## sys_getppid -/

/-- `sys_getppid` has loaded this parent and not yet its pid. -/
def loaded (q : Slot) : Point → Bool
  | .ppid q' => q' = q
  | _ => false

/-- No process exits while a child is about to load its pid. -/
def ParentStays (k : Kernel) (l : Label) : Prop :=
  match l.event with
  | .exit _ => ∀ m, loaded l.actor (k m).point = false
  | _ => True

instance (k : Kernel) (l : Label) : Decidable (ParentStays k l) := by
  unfold ParentStays
  split <;> infer_instance

/-- A parent that has been loaded is alive. -/
def Loads (k : Kernel) : Prop :=
  ∀ m q, (k m).point = .ppid q → phase (k q).state = .live

section steps
variable {k k' : Kernel} {i : Slot} {c : Choice} {e : Event}

/-- `sys_getppid` loads the parent its caller has at that moment. -/
theorem ppid_act {q} (a : Act k i e k') (pt : (k' i).point = .ppid q) : (k i).parent = some q := by
  have flow := a.flow
  rw [pt] at flow
  generalize (k i).point = p at flow
  cases flow with
  | sect sec =>
    cases sec with
    | call pt' _ _ _ ppid => exact ppid q (goto_point.symm.trans pt)
    | trap cause r pc =>
      rw [upd_self] at pt
      rcases trapEntry_point cause r pc (k i) with hp | hp | hp <;> rw [hp] at pt <;> cases pt
    | run | sigreturn | deliver | userret => rw [upd_self] at pt; cases pt
    | ret | signal | exec | noCopy | sigsend | children | finish => rw [ret_point] at pt; cases pt
    | offer | killed | alive | masked | unmasked | sigNext | sigFound | sigNone | sigLoad
    | forkCheck | forkNext | killNext | sigsendNext => rw [goto_point] at pt; cases pt
  | hold hh => cases (hold_wait hh).2
  | enter c eq => cases c <;> cases eq

theorem ppid_step {m q} (s : LifeStep k i c e k') (pt : (k' m).point = .ppid q) :
    (k m).point = .ppid q ∨ (k m).parent = some q := by
  by_cases hm : m = i
  · subst hm
    cases s with
    | act go run a => exact .inr (ppid_act a pt)
    | sched go s => exact .inl ((s.at (· = .ppid q) m).mp pt)
  · rcases point_step s hm with hp | ⟨-, -, hp⟩ <;> rw [hp] at pt
    · exact .inl pt
    · cases pt

theorem loads_step (hw : Wf k) (h : Loads k) (s : LifeStep k i c e k')
    (stays : ParentStays k ⟨i, c, e⟩) : Loads k' := by
  intro m q pt
  have was : phase (k q).state = .live := by
    rcases ppid_step s pt with old | par
    · exact h m q old
    · exact hw.links.parents m q par
  cases phase_step hw.shape s q with
  | same ph => exact ph.trans was
  | made no | freed _ no => rw [no] at was; cases was
  | readied _ _ _ st => rw [st]; rfl
  | died status self ptq ev =>
    subst self ev
    -- `q` exits: so `m` has not loaded it before, and does not do so in a step of `q`
    have hm : m ≠ q := by
      rintro rfl
      cases s with
      | act go run a =>
        cases a with
        | sect sec => cases sec.event
        | zombie => rw [upd_self] at pt; cases pt
    rcases point_step s hm with hp | ⟨-, -, hp⟩ <;> rw [hp] at pt
    · have free := stays m
      rw [pt] at free
      simp [loaded] at free
    · cases pt
  | dropped made => rw [(hw.links.making i q (making_of_building made)).1] at was; cases was

/-- `sys_getppid` of `i` returns `v` in this step. -/
structure GetppidReturns (k k' : Kernel) (i : Slot) (v : UInt64) : Prop where
  call : syscallOf (argint (k i).trapframe.user.a7) = .getppid
  inside : (k i).point = .syscall ∨ ∃ q, (k i).point = .ppid q
  done : (k' i).point = .tail
  value : (k' i).trapframe.user.a0 = v

/-- A step out of `sys_getppid` is one of its own sections, not one of a scheduler. -/
theorem GetppidReturns.thread {v} (h : GetppidReturns k k' i v) (s : Step k ⟨i, c, e⟩ k') :
    (k i).cpu ≠ none ∧ threadStep k i c (k i).point = some (k', e) := by
  cases step_life s with
  | act go run a =>
    refine ⟨run, ?_⟩
    cases c <;> first | (cases go; done) | exact (if_neg run).symm.trans s
  | sched go sch =>
    have pt : (k i).point = .tail := (sch.at (· = .tail) i).mp h.done
    rcases h.inside with hp | ⟨q, hp⟩ <;> rw [hp] at pt <;> cases pt

theorem getppid_value {v} (hw : Wf k) (rooted : Rooted k) (ne : i ≠ initproc)
    (s : Step k ⟨i, c, e⟩ k') (h : GetppidReturns k k' i v) :
    ∃ q, (k i).point = .ppid q ∧ v = ofInt (k q).pid := by
  obtain ⟨run, thread⟩ := h.thread s
  have done := h.done
  rcases h.inside with pt | ⟨q, pt⟩ <;> rw [pt] at thread
  · -- a process in user space other than init has a parent, so the call goes on to load its pid
    have live := live_of_point (hw.shape i) (by rw [pt]; rfl)
    obtain ⟨q, par⟩ := rooted.parented i ne (.inl live)
    simp only [threadStep, syscallStep, h.call, par] at thread
    cases thread
    rw [goto_point] at done
    cases done
  · refine ⟨q, pt, ?_⟩
    cases thread
    rw [← h.value, Kernel.ret, upd_self]
    rfl

end steps

theorem boot_loads (b : Boot) : Loads (boot b) := by
  intro m q pt
  rcases boot_point b m with hp | hp <;> rw [hp] at pt <;> cases pt

/-- Every process but init has a parent that is neither unused nor a zombie, and
its parents lead to init. If no process exits between the two loads of a
child's `sys_getppid`, the call returns the pid of a process that is allocated
and has not exited. -/
theorem process_forest {b : Boot} {t : List Label} {k : Kernel} (h : History b t k) :
    (∀ m, m ≠ initproc → ((k m).state = .sleeping ∨ (k m).state = .runnable ∨
        (k m).state = .running ∨ (k m).state = .zombie) →
      (∃ q, (k m).parent = some q ∧ (k q).state ≠ .unused ∧
        (k q).state ≠ .zombie) ∧
      ∃ n, climb (parents k) n m = some initproc) ∧
    (Run (When Step ParentStays) (boot b) t k → ∀ l k' v, Step k l k' → l.actor ≠ initproc →
      GetppidReturns k k' l.actor v →
      ∃ q, v = ofInt (k q).pid ∧ (k q).state ≠ .unused ∧ (k q).state ≠ .zombie) := by
  have wf := history_wf h
  have rooted := history_rooted h
  have alive : ∀ {q}, phase (k q).state = .live →
      (k q).state ≠ .unused ∧ (k q).state ≠ .zombie := by
    intro q live
    constructor <;> intro st <;> rw [st] at live <;> cases live
  refine ⟨fun m ne st => ?_, fun run l k' v s ne ret => ?_⟩
  · have ph : phase (k m).state = .live ∨ phase (k m).state = .zombie := by
      rcases st with st | st | st | st <;> rw [st]
      · exact .inl rfl
      · exact .inl rfl
      · exact .inl rfl
      · exact .inr rfl
    obtain ⟨q, par⟩ := rooted.parented m ne ph
    have live := wf.links.parents m q par
    obtain ⟨n, up⟩ := rooted.live q live
    exact ⟨⟨q, par, alive live⟩, n + 1, (climb_succ (f := parents k) par).trans up⟩
  · have loads := (run.keeps (I := fun k => Wf k ∧ Loads k) ⟨wf_boot b, boot_loads b⟩ ?_).2
    · obtain ⟨i, c, e⟩ := l
      obtain ⟨q, pt, value⟩ := getppid_value wf rooted ne s ret
      exact ⟨q, value, alive (loads i q pt)⟩
    · rintro k ⟨i, c, e⟩ k' ⟨wf, loads⟩ ⟨s, stays⟩
      exact ⟨wf_step wf s, loads_step wf loads (step_life s) stays⟩

/-- The second load of a call that has made the first one. -/
theorem ppid_returns {k k' i q e}
    (call : syscallOf (argint (k i).trapframe.user.a7) = .getppid)
    (pt : loaded q (k i).point = true) (s : Step k ⟨i, .go, e⟩ k') :
    GetppidReturns k k' i (ofInt (k q).pid) := by
  obtain ⟨q, hp, rfl⟩ : ∃ q', (k i).point = .ppid q' ∧ q' = q := by
    unfold loaded at pt
    split at pt
    · exact ⟨_, ‹_›, of_decide_eq_true pt⟩
    · cases pt
  simp only [Step, step, hp, threadStep, ppidStep] at s
  split at s
  · cases s
  · cases s
    refine ⟨call, .inr ⟨q, hp⟩, ret_point, ?_⟩
    rw [Kernel.ret, upd_self]
    rfl

/-- init has a child in slot 1 with a child in slot 2, which has called
`sys_getppid` and loaded its parent. -/
def grandchild : Schedule :=
  starts initproc 0 ++ forks initproc 1 ++ starts 1 1 ++ forks 1 2 ++ starts 2 2 ++
    ecall 2 22 0 0 0 .go

theorem process_forest_grandchild : ∃ t k k', Run (When Step ParentStays) (boot bareBoot) t k ∧
    Step k ⟨2, .go, .tau⟩ k' ∧ GetppidReturns k k' 2 2 ∧
    (∃ n, climb (parents k) n 2 = some initproc) ∧
    ∃ q, (2 : UInt64) = ofInt (k q).pid ∧ (k q).state ≠ .unused ∧
      (k q).state ≠ .zombie := by
  obtain ⟨t, k, e, k', run, s, ev, st, call, pt, pid⟩ := execWhen_steps ParentStays (boot bareBoot)
    grandchild 2 .go
    (fun _ k e _ => e = .tau ∧ (k 2).state = .running ∧
      syscallOf (argint (k 2).trapframe.user.a7) = .getppid ∧
      loaded 1 (k 2).point = true ∧ (k 1).pid = 2) (by decide +kernel)
  subst ev
  have ret := ppid_returns call pt s
  rw [pid] at ret
  have forest := process_forest run.of_when
  exact ⟨t, k, k', run, s, ret, (forest.1 2 (by decide) (.inr (.inr (.inl st)))).2,
    forest.2 run _ k' 2 s (by decide : (2 : Slot) ≠ initproc) ret⟩

/-- The parent exits and init frees its slot before the second load: the call
returns 0, which is nobody's pid. -/
theorem getppid_of_freed_parent : ∃ t k k', History bareBoot t k ∧ Step k ⟨2, .go, .tau⟩ k' ∧
    GetppidReturns k k' 2 0 ∧ (k 2).parent = some initproc ∧
    ∀ q, (k q).state ≠ .unused → (0 : UInt64) ≠ ofInt (k q).pid := by
  obtain ⟨t, k, e, k', run, s, ev, call, pt, pid, par, nobody⟩ := exec_steps (b := bareBoot)
    (grandchild ++ exits 1 0 1 ++ ecall initproc 3 0 0 0 .go ++ goes initproc 2 ++
      [(initproc, .page fun _ => true)]) 2 .go
    (P := fun _ k e _ => e = .tau ∧ syscallOf (argint (k 2).trapframe.user.a7) = .getppid ∧
      loaded 1 (k 2).point = true ∧ (k 1).pid = 0 ∧
      (k 2).parent = some initproc ∧
      ∀ q, (k q).state ≠ .unused → (0 : UInt64) ≠ ofInt (k q).pid) (by decide +kernel)
  subst ev
  have ret := ppid_returns call pt s
  rw [pid] at ret
  exact ⟨t, k, k', run, s, ret, par, nobody⟩

end OsProject.Xv6.Forest
