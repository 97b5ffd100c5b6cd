import OsProject.Xv6.SignalFrame

/-! # Signals are transparent

From the moment `usertrap` is about to deliver a signal until the process is
back in user space with no handler left to return from, its registers are kept
in one of two places: in `saved_trapframe` while a handler runs, in the
trapframe itself on the way back. Nothing the handlers, the other processes or
the scheduler do in between reaches them. -/
namespace OsProject.Xv6.SignalReturn
open Lib.Transition ProcTable Machine
open Lifecycle Table Family Signals
open SignalFrame

/-- `usertrap` from its second `killed` test to `prepare_return`. -/
def returning : Point → Bool
  | .tail | .sigTest | .sigScan _ | .sigLoad _ | .sigStore _ _ | .prepare => true
  | _ => false

theorem inTrap_of_returning {pt} (h : returning pt = true) : inTrap pt = true := by
  cases pt <;> first | rfl | cases h

/-- All of `kexit`. -/
def exiting : Point → Bool
  | .exitLoad _ | .exitStore _ _ _ | .exitClose _ => true
  | pt => past pt

/-- The process runs its own code, and no handler. -/
def resumed (q : Proc) : Bool :=
  match q.point with
  | .user _ _ => !q.handlingSignal
  | _ => false

theorem resumed_inv {q} (h : resumed q = true) :
    ∃ r pc, q.point = .user r pc ∧ q.handlingSignal = false := by
  unfold resumed at h
  split at h
  · exact ⟨_, _, ‹_›, by simpa using h⟩
  · cases h

/-- The trapframe holds what `uservec` needs to enter the kernel from hart `h`. -/
structure Homed (k : Kernel) (i : Slot) (h : Nat) : Prop where
  cpu : (k i).cpu = some h
  satp : (k i).trapframe.kernelSatp = k.satp h
  sp : (k i).trapframe.kernelSp = kstackTop i
  trap : (k i).trapframe.kernelTrap = k.usertrap
  hartid : (k i).trapframe.kernelHartid = UInt64.ofNat h

/-- Where process `i` keeps the registers `r` and `pc` that it was interrupted with. -/
inductive Keeps (r : UserRegs) (pc : UInt64) (k : Kernel) (i : Slot) : Prop
  | handling (flag : (k i).handlingSignal = true)
      (user : (k i).savedTrapframe.user = r) (epc : (k i).savedTrapframe.epc = pc)
      (out : place (k i).point = none)
  | returning (flag : (k i).handlingSignal = false)
      (user : (k i).trapframe.user = r) (epc : (k i).trapframe.epc = pc)
      (path : returning (k i).point = true)
  | back (h : Nat) (flag : (k i).handlingSignal = false) (pt : (k i).point = .user r pc)
      (home : Homed k i h)
  | exiting (flag : (k i).handlingSignal = false) (path : exiting (k i).point = true)

section steps
variable {k k' : Kernel} {i j : Slot} {c : Choice} {e : Event} {r : UserRegs} {pc : UInt64}

theorem exiting_act (a : Act k i e k') (h : exiting (k i).point = true) :
    exiting (k' i).point = true := by
  have flow := a.flow
  generalize (k i).point = p at flow h
  generalize (k' i).point = q at flow ⊢
  cases flow with
  | sect _ before => cases p <;> first | (cases h; done) | cases before
  | hold hh =>
    cases hh with
    | wakeSelf chan w | wakeEnd chan _ w _ => cases w <;> first | (cases h; done) | rfl
    | _ => first | (cases h; done) | rfl
  | wake chan j w => cases w <;> first | (cases h; done) | rfl
  | _ => first | (cases h; done) | rfl

/-- A step of another process, or of a scheduler, leaves the registers where they are. -/
theorem keeps_frame (h : Keeps r pc k i)
    (flag : (k' i).handlingSignal = (k i).handlingSignal)
    (saved : (k' i).savedTrapframe = (k i).savedTrapframe)
    (tf : (k' i).trapframe = (k i).trapframe ∨ (k i).point = .dead ∨
      (k i).point = .forkret)
    (pt : place (k' i).point = place (k i).point)
    (ret : returning (k i).point = true → (k' i).point = (k i).point)
    (exit : exiting (k i).point = true → exiting (k' i).point = true)
    (away : resumed (k i) = false) : Keeps r pc k' i := by
  cases h with
  | handling flag0 user epc out =>
    exact .handling (flag.trans flag0) (by rw [saved]; exact user) (by rw [saved]; exact epc)
      (pt.trans out)
  | returning flag0 user epc path =>
    have tf : (k' i).trapframe = (k i).trapframe := by
      rcases tf with tf | dead | new
      · exact tf
      · rw [dead] at path; cases path
      · rw [new] at path; cases path
    exact .returning (flag.trans flag0) (by rw [tf]; exact user) (by rw [tf]; exact epc)
      (by rw [ret path]; exact path)
  | back h flag0 pt0 home => rw [resumed, pt0, flag0] at away; cases away
  | exiting flag0 path => exact .exiting (flag.trans flag0) (exit path)

theorem keeps_other (hw : Wf k) (h : Keeps r pc k i)
    (s : LifeStep k j c e k') (hi : i ≠ j) (kept : takes i e = false)
    (away : resumed (k i) = false) : Keeps r pc k' i := by
  have pt : (k' i).point = (k i).point := by
    rcases point_step s hi with pt | ⟨-, taken, -⟩
    · exact pt
    · rw [kept] at taken; cases taken
  have tf := trapframe_step hw.shape hw.links.held s hi
  have frame : (k' i).handlingSignal = (k i).handlingSignal ∧
      (k' i).savedTrapframe = (k i).savedTrapframe := by
    cases sig_step hw s i with
    | same _ _ eq | cleared _ _ eq | raised _ _ eq => exact ⟨(sig_handling eq :), (sig_saved eq :)⟩
    | fresh taken => rw [kept] at taken; cases taken
    | registered _ _ self | returned self | start self | next _ self | done _ self | found _ self
    | load _ self | delivered _ _ self => exact absurd self.symm hi
  exact keeps_frame h frame.1 frame.2 tf (by rw [pt]) (fun _ => pt) (by rw [pt]; exact id) away

theorem keeps_sched (h : Keeps r pc k i) (s : Sched k i k') (away : resumed (k i) = false) :
    Keeps r pc k' i := by
  have same := s.frame sig i
  refine keeps_frame h (sig_handling same) (sig_saved same) (.inl (s.frame Proc.trapframe i))
    (s.at place i) (fun path => ?_) (s.at exiting i).trans away
  rcases s.point i with pt | ⟨c, pt, -⟩ | ⟨pt, -⟩
  · exact pt
  · rw [pt] at path; cases path
  · rw [pt] at path; cases path

/-- The process's own sections: a handler that returns moves the registers back
into the trapframe, and a further delivery saves them again. -/
theorem keeps_act (hw : Wf k) (h : Keeps r pc k i) (s : LifeStep k i c e k')
    (a : Act k i e k') (kept : takes i e = false) (away : resumed (k i) = false) :
    Keeps r pc k' i := by
  cases h with
  | handling flag user epc out =>
    cases sig_step hw s i with
    | same _ _ eq pt | cleared _ _ eq pt | raised _ _ eq pt =>
      exact .handling ((sig_handling eq :).trans flag) (by rw [sig_saved eq]; exact user)
        (by rw [sig_saved eq]; exact epc) (pt.trans out)
    | registered _ _ _ _ eq _ pt' =>
      exact .handling ((sig_handling eq :).trans flag) (by rw [sig_saved eq]; exact user)
        (by rw [sig_saved eq]; exact epc) (by rw [pt']; rfl)
    | returned self ev eq pt pt' =>
      subst ev
      rw [sigreturn_inv s]
      refine .returning ?_ ?_ ?_ ?_ <;> rw [upd_self]
      · rfl
      · exact user
      · exact epc
      · rfl
    | fresh taken => rw [kept] at taken; cases taken
    | start _ _ off => rw [flag] at off; cases off
    | next _ _ _ _ pt | done _ _ _ _ pt | found _ _ _ _ _ _ pt | load _ _ _ _ pt
    | delivered _ _ _ _ _ pt => rw [pt] at out; cases out
  | back h flag pt home => rw [resumed, pt, flag] at away; cases away
  | exiting flag path =>
    refine .exiting ?_ (exiting_act a path)
    cases sig_step hw s i with
    | same _ _ eq | cleared _ _ eq | raised _ _ eq => exact (sig_handling eq :).trans flag
    | fresh taken => rw [kept] at taken; cases taken
    | registered _ _ _ _ _ pt | returned _ _ _ pt | start _ _ _ _ pt | next _ _ _ _ pt
    | done _ _ _ _ pt | found _ _ _ _ _ _ pt | load _ _ _ _ pt | delivered _ _ _ _ _ pt =>
      rw [pt] at path; cases path
  | returning flag user epc path =>
    have goes : ∀ {pt : Point}, returning pt = true → Keeps r pc (k.goto i pt) i := fun hp => by
      refine .returning ?_ ?_ ?_ ?_ <;> rw [goto_self]
      · exact flag
      · exact user
      · exact epc
      · exact hp
    cases trap_sect a (inTrap_of_returning path) with
    | alive | unmasked | sigNext | sigNone | sigFound | sigLoad => exact goes rfl
    | masked pt handling => rw [flag] at handling; cases handling
    | killed pt => exact .exiting (by rw [goto_self]; exact flag) (by rw [goto_point]; rfl)
    | deliver s w pt =>
      refine .handling ?_ ?_ ?_ ?_ <;> rw [upd_self]
      · rfl
      · exact user
      · exact epc
      · rfl
    | userret h pt cpu =>
      refine .back h ?_ ?_ ⟨?_, ?_, ?_, ?_, ?_⟩ <;> rw [upd_self]
      · exact flag
      · rw [← user, ← epc]; rfl
      · exact cpu
      all_goals rfl
    | ret _ pt =>
      generalize (k i).point = q at pt path
      cases q <;> first | (cases path; done) | cases pt
    | run _ _ _ _ _ pt | trap _ _ _ pt | call _ pt | signal _ _ pt | sigreturn pt | exec _ pt
    | noCopy _ _ pt | offer _ _ _ pt | forkCheck _ pt | forkNext _ _ pt | killNext _ _ pt
    | sigsendNext _ _ _ pt | sigsend _ _ _ pt | children _ _ _ _ _ _ _ pt | finish _ _ _ _ pt =>
      rw [pt] at path; cases path

theorem keeps_step (hw : Wf k) (h : Keeps r pc k i)
    (s : LifeStep k j c e k') (kept : takes i e = false) (away : resumed (k i) = false) :
    Keeps r pc k' i := by
  by_cases hi : i = j
  · subst hi
    cases s with
    | act go run a => exact keeps_act hw h (.act go run a) a kept away
    | sched go s => exact keeps_sched h s away
  · exact keeps_other hw h s hi kept away

end steps

/-! ## Whole runs -/

/-- Steps up to the point where process `i`, and no later occupant of its slot,
is back in its own code. -/
def Before (i : Slot) (k : Kernel) (l : Label) : Prop :=
  takes i l.event = false ∧ resumed (k i) = false
  deriving Decidable

section runs
variable {b : Boot} {t0 t : List Label} {k0 k : Kernel} {i : Slot}

/-- The signal loop runs only outside of handlers. -/
theorem scanning_unmasked (h : History b t k) (hp : place (k i).point ≠ none) :
    (k i).handlingSignal = false := by
  refine (h.invariant (I := fun _ k => Wf k ∧ (place (k i).point ≠ none →
    (k i).handlingSignal = false)) ⟨wf_boot b, fun _ => boot_handling b i⟩ ?_).2 hp
  rintro t k ⟨j, c, e⟩ k' - ⟨wf, off⟩ s
  refine ⟨wf_step wf s, fun hp => ?_⟩
  cases sig_step wf (step_life s) i with
  | same _ _ eq pt | cleared _ _ eq pt | raised _ _ eq pt =>
    exact (sig_handling eq :).trans (off (by rwa [← pt]))
  | start _ _ handling eq => exact (sig_handling eq).trans handling
  | next _ _ _ eq pt | found _ _ _ _ _ eq pt | load _ _ _ eq pt =>
    exact (sig_handling eq).trans (off (by rw [pt]; simp [place]))
  | fresh _ _ _ pt => exact absurd pt hp
  | registered _ _ _ _ _ _ pt' | returned _ _ _ _ pt' | done _ _ _ _ _ pt'
  | delivered _ _ _ _ _ _ pt' => rw [pt'] at hp; exact absurd rfl hp

theorem keeps_run {r pc} (h0 : History b t0 k0) (h : Keeps r pc k0 i)
    (run : Run (When Step (Before i)) k0 t k) : Keeps r pc k i := by
  refine (run.keeps (I := fun k => Wf k ∧ Keeps r pc k i) ⟨history_wf h0, h⟩ ?_).2
  rintro k ⟨j, c, e⟩ k' ⟨wf, keeps⟩ ⟨s, kept, away⟩
  exact ⟨wf_step wf s, keeps_step wf keeps (step_life s) kept away⟩

/-- A process that is about to deliver a signal resumes, once it is in its own
code again with no handler to return from, with the registers and the program
counter that it had then, and with a trapframe for the hart that it runs on. -/
theorem signal_transparent {s : Fin nsig} {w : BitVec 32} {r : UserRegs} {pc : UInt64}
    (h0 : History b t0 k0) (pt : (k0 i).point = .sigStore s w)
    (run : Run (When Step (Before i)) k0 t k) (user : (k i).point = .user r pc)
    (done : (k i).handlingSignal = false) :
    r = (k0 i).trapframe.user ∧ pc = (k0 i).trapframe.epc ∧ ∃ h, Homed k i h := by
  have off : (k0 i).handlingSignal = false := scanning_unmasked h0 (by rw [pt]; simp [place])
  have start : Keeps (k0 i).trapframe.user (k0 i).trapframe.epc k0 i :=
    .returning off rfl rfl (by rw [pt]; rfl)
  cases keeps_run h0 start run with
  | handling flag => rw [done] at flag; cases flag
  | returning _ _ _ path | exiting _ path => rw [user] at path; cases path
  | back h _ pt' home =>
    rw [user] at pt'
    obtain ⟨rfl, rfl⟩ := Point.user.inj pt'
    exact ⟨rfl, rfl, h, home⟩

end runs

/-- init sends itself signal 0; its handler calls sigreturn, and init is back
behind its call of sigsend, with the result of that call in `a0`. -/
theorem sigsend_transparent : ∃ t0 k0 t k r pc, History bareBoot t0 k0 ∧
    Run (When Step (Before initproc)) k0 t k ∧ (k initproc).point = .user r pc ∧
      r.a7 = 29 ∧ r.a0 = 0 ∧ pc = 4 := by
  obtain ⟨t0, k0, h0, store, a7, a0, epc, rest⟩ := exec_reaches (b := bareBoot)
    (P := fun _ k =>
      (match (k initproc).point with | .sigStore _ _ => true | _ => false) = true ∧
      (k initproc).trapframe.user.a7 = 29 ∧ (k initproc).trapframe.user.a0 = 0 ∧
      (k initproc).trapframe.epc = 4 ∧
      ((execWhen (Before initproc) k
        (goes initproc 2 ++ ecall initproc 30 9 9 9 .go ++ returns initproc)).any
          fun r => decide (resumed (r.1.proc initproc) = true)) = true)
    (starts initproc 0 ++ ecall initproc 28 0 100 0 .go ++ returns initproc ++
      ecall initproc 29 1 0 0 .go ++ goes initproc 5)
    (by decide +kernel)
  obtain ⟨t, k, run, res⟩ := execWhen_reaches _ _ _ (fun _ k => resumed (k initproc) = true) rest
  obtain ⟨s, w, pt⟩ : ∃ s w, (k0 initproc).point = .sigStore s w := by
    split at store
    · exact ⟨_, _, ‹_›⟩
    · cases store
  obtain ⟨r, pc, user, done⟩ := resumed_inv res
  obtain ⟨hr, hpc, -⟩ := signal_transparent h0 pt run user done
  exact ⟨t0, k0, t, k, r, pc, h0, run, user, hr ▸ a7, hr ▸ a0, hpc.trans epc⟩

end OsProject.Xv6.SignalReturn
