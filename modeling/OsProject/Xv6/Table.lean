import OsProject.Xv6.Lifecycle

/-! # The well-formed process table

What the locking discipline guarantees in every reachable state: the fields of
one entry fit together (`Shape`), and `wait_lock` is held by the process that
stands inside one of its sections (`Holder`). -/
namespace OsProject.Xv6.Table
open Lib.Transition Memory ProcTable Machine
open Lifecycle

/-! ## Control points and locks -/

/-- The sections under `wait_lock`. -/
def holdsWait : Point → Bool
  | .exitReparent _ _ | .wakeup _ _ _ | .exitZombie _ | .exitUnlock | .waitScan _ _ _
  | .waitpidScan _ _ _ | .recvTest _ _ | .callKilled _ | .sleepLock _ | .sleepRelease _ | .unlock _
  | .sendScan _ _ _ | .childScan _ _ _ _ _ => true
  | _ => false

/-- The points between which a process keeps its own `p->lock`. -/
def holdsLock : Point → Bool
  | .sleepRelease _ | .sleepSwitch _ | .exitUnlock | .exitSched => true
  | _ => false

/-- The child that a process is making and whose lock it holds. -/
def building : Point → Option Slot
  | .allocReady _ j _ | .allocLen _ j _ | .allocRest _ j _ => some j
  | _ => none

/-- The child that a process is making and has not yet linked to itself. -/
def making : Point → Option Slot
  | .forkLink j _ => some j
  | pt => building pt

/-- The points of a process in state `RUNNING`. -/
def active : Point → Bool
  | .exitUnlock | .exitSched | .dead | .asleep _ | .napping => false
  | _ => true

theorem making_of_building {pt j} (h : building pt = some j) : making pt = some j := by
  cases pt <;> first | (cases h; done) | exact h

theorem holdsWait_of_quiet {pt} (h : quietPoint pt = true) : holdsWait pt = false := by
  cases pt <;> first | rfl | cases h

theorem holdsLock_of_quiet {pt} (h : quietPoint pt = true) : holdsLock pt = false := by
  cases pt <;> first | rfl | cases h

theorem active_of_quiet {pt} (h : quietPoint pt = true) : active pt = true := by
  cases pt <;> first | rfl | cases h

theorem active_of_preemptible {pt} (h : Point.preemptible pt = true) : active pt = true := by
  cases pt <;> first | rfl | cases h

theorem holdsLock_of_preemptible {pt} (h : Point.preemptible pt = true) : holdsLock pt = false := by
  cases pt <;> first | rfl | cases h

theorem holdsWait_of_preemptible {pt} (h : Point.preemptible pt = true) : holdsWait pt = false := by
  cases pt <;> first | rfl | cases h

section hold
variable {k : Kernel} {i : Slot} {pt pt' : Point} (h : Hold k i pt pt')
include h

theorem hold_wait : holdsWait pt = true ∧ holdsWait pt' = true := by
  cases h with
  | wakeEnd chan n w last => cases w <;> exact ⟨rfl, rfl⟩
  | _ => exact ⟨rfl, rfl⟩

theorem hold_lock : holdsLock pt = false ∧ holdsLock pt' = false := by
  cases h with
  | wakeEnd chan n w last => cases w <;> exact ⟨rfl, rfl⟩
  | _ => exact ⟨rfl, rfl⟩

theorem hold_active : active pt = true ∧ active pt' = true := by
  cases h with
  | wakeEnd chan n w last => cases w <;> exact ⟨rfl, rfl⟩
  | _ => exact ⟨rfl, rfl⟩

end hold

/-- The points of user code and of `usertrap` itself, up to and after the system call. -/
def inTrap : Point → Bool
  | .user _ _ | .syscall | .tail | .sigTest | .sigScan _ | .sigLoad _ | .sigStore _ _ | .prepare
  | .forkret => true
  | _ => false

theorem trap_sect {k k' i e} (a : Act k i e k')
    (h : inTrap (k i).point = true) : Sect k i e k' := by
  have flow := a.flow
  generalize (k i).point = p at flow h
  generalize (k' i).point = q at flow
  cases flow with
  | sect s => exact s
  | hold hh =>
    have held := (hold_wait hh).1
    cases p <;> first | (cases h; done) | cases held
  | _ => cases h

/-! ## The shape of one entry -/

/-- What `freeproc` leaves and nothing writes while the slot is `UNUSED`. -/
structure Clean (p : Proc) : Prop where
  pid : p.pid = 0
  parent : p.parent = none
  chan : p.chan = none
  xstate : p.xstate = 0
  ipcReady : p.ipcReady = false
  ipcLen : p.ipcLen = 0

/-- How the state of slot `i`, its hart, its lock and its control point go together.
The lock of a child being made is its maker's. -/
inductive Shape (i : Slot) (p : Proc) : Prop
  | unused (st : p.state = .unused) (cpu : p.cpu = none) (lock : p.locked = false)
      (pt : p.point = .dead ∨ p.point = .forkret) (clean : Clean p)
  | used (st : p.state = .used) (cpu : p.cpu = none) (pt : p.point = .forkret)
  | asleep (c : Call) (st : p.state = .sleeping) (cpu : p.cpu = none) (lock : p.locked = false)
      (pt : p.point = .asleep c) (chan : p.chan = some (.proc i))
  | napping (n : Nat) (st : p.state = .sleeping) (cpu : p.cpu = none) (lock : p.locked = false)
      (pt : p.point = .napping) (chan : p.chan = some (.other n))
  | ready (st : p.state = .runnable) (cpu : p.cpu = none) (lock : p.locked = false)
      (pt : Point.preemptible p.point = true ∨ (∃ c, p.point = .asleep c) ∨ p.point = .napping)
  | running (st : p.state = .running) (cpu : p.cpu ≠ none) (lock : p.locked = holdsLock p.point)
      (pt : active p.point = true)
  | leaving (st : p.state = .zombie) (cpu : p.cpu ≠ none) (lock : p.locked = holdsLock p.point)
      (pt : p.point = .exitUnlock ∨ p.point = .exitSched)
  | zombie (st : p.state = .zombie) (cpu : p.cpu = none) (lock : p.locked = false)
      (pt : p.point = .dead)

/-- The slot holds a process, and its maker has let go of it. -/
def Made (p : Proc) : Prop := p.state ≠ .unused ∧ (p.state = .used → p.locked = false)

namespace Shape
variable {i : Slot} {p p' : Proc}

variable (h : Shape i p)
include h

theorem running_of_active (run : p.cpu ≠ none) (pt : active p.point = true) :
    p.state = .running ∧ p.locked = holdsLock p.point := by
  cases h with
  | running st _ lock _ => exact ⟨st, lock⟩
  | leaving _ _ _ hp => rcases hp with hp | hp <;> rw [hp] at pt <;> cases pt
  | unused _ cpu | used _ cpu | asleep _ _ cpu | napping _ _ cpu | ready _ cpu | zombie _ cpu =>
    exact absurd cpu run

theorem unused_inv (st : p.state = .unused) :
    p.cpu = none ∧ p.locked = false ∧ (p.point = .dead ∨ p.point = .forkret) ∧ Clean p := by
  cases h with
  | unused _ cpu lock pt clean => exact ⟨cpu, lock, pt, clean⟩
  | used st0 | asleep _ st0 | napping _ st0 | ready st0 | running st0 | leaving st0 | zombie st0 =>
    rw [st] at st0; cases st0

theorem used_inv (st : p.state = .used) : p.cpu = none ∧ p.point = .forkret := by
  cases h with
  | used _ cpu pt => exact ⟨cpu, pt⟩
  | unused st0 | asleep _ st0 | napping _ st0 | ready st0 | running st0 | leaving st0
      | zombie st0 =>
    rw [st] at st0; cases st0

/-- A zombie that nobody holds has left its hart. -/
theorem zombie_inv (st : p.state = .zombie) (lock : p.locked = false) :
    p.cpu = none ∧ p.point = .dead := by
  cases h with
  | zombie _ cpu _ pt => exact ⟨cpu, pt⟩
  | leaving _ _ lock0 pt => rcases pt with pt | pt <;> rw [pt, lock] at lock0 <;> cases lock0
  | unused st0 | used st0 | asleep _ st0 | napping _ st0 | ready st0 | running st0 =>
    rw [st] at st0; cases st0

theorem leaving_inv (run : p.cpu ≠ none) (pt : active p.point = false) : p.state = .zombie := by
  cases h with
  | leaving st => exact st
  | running _ _ _ act => rw [pt] at act; cases act
  | unused _ cpu | used _ cpu | asleep _ _ cpu | napping _ _ cpu | ready _ cpu | zombie _ cpu =>
    exact absurd cpu run

/-- A process on a hart has its own lock as its control point says. -/
theorem locked_eq (run : p.cpu ≠ none) : p.locked = holdsLock p.point := by
  cases h with
  | running _ _ lock | leaving _ _ lock => exact lock
  | unused _ cpu | used _ cpu | asleep _ _ cpu | napping _ _ cpu | ready _ cpu | zombie _ cpu =>
    exact absurd cpu run

theorem made (run : p.cpu ≠ none) : Made p :=
  ⟨fun st => run (h.unused_inv st).1, fun st => absurd (h.used_inv st).1 run⟩

/-- The running process goes on to another active point. -/
theorem step (run : p.cpu ≠ none) (pt : active p.point = true)
    (st : p'.state = p.state) (cpu : p'.cpu = p.cpu) (pt' : active p'.point = true)
    (lock : p'.locked = holdsLock p'.point) : Shape i p' :=
  .running (st.trans (h.running_of_active run pt).1) (by rw [cpu]; exact run) lock pt'

/-- Fields outside the shape of an entry in use. -/
theorem congr (st : p'.state = p.state) (cpu : p'.cpu = p.cpu)
    (lock : p'.locked = p.locked) (pt : p'.point = p.point) (chan : p'.chan = p.chan)
    (clean : p.state = .unused → Clean p → Clean p') : Shape i p' := by
  cases h with
  | unused st0 cpu0 lock0 pt0 c =>
    exact .unused (st.trans st0) (cpu.trans cpu0) (lock.trans lock0) (pt ▸ pt0) (clean st0 c)
  | used st0 cpu0 pt0 => exact .used (st.trans st0) (cpu.trans cpu0) (pt ▸ pt0)
  | asleep c st0 cpu0 lock0 pt0 chan0 =>
    exact .asleep c (st.trans st0) (cpu.trans cpu0) (lock.trans lock0) (pt ▸ pt0) (chan.trans chan0)
  | napping n st0 cpu0 lock0 pt0 chan0 =>
    exact .napping n (st.trans st0) (cpu.trans cpu0) (lock.trans lock0) (pt ▸ pt0)
      (chan.trans chan0)
  | ready st0 cpu0 lock0 pt0 =>
    exact .ready (st.trans st0) (cpu.trans cpu0) (lock.trans lock0) (pt ▸ pt0)
  | running st0 cpu0 lock0 pt0 =>
    exact .running (st.trans st0) (by rw [cpu]; exact cpu0) (by rw [lock, pt]; exact lock0)
      (pt ▸ pt0)
  | leaving st0 cpu0 lock0 pt0 =>
    exact .leaving (st.trans st0) (by rw [cpu]; exact cpu0) (by rw [lock, pt]; exact lock0)
      (pt ▸ pt0)
  | zombie st0 cpu0 lock0 pt0 =>
    exact .zombie (st.trans st0) (cpu.trans cpu0) (lock.trans lock0) (pt ▸ pt0)

theorem of_same (same : SameBut p p') (pt : p'.point = p.point) : Shape i p' :=
  h.congr same.state same.cpu same.locked pt same.chan fun _ c =>
    ⟨same.pid.trans c.pid, same.parent.trans c.parent, same.chan.trans c.chan,
      same.xstate.trans c.xstate, same.ipcReady.trans c.ipcReady, same.ipcLen.trans c.ipcLen⟩

theorem of_used (st : p.state ≠ .unused) (st' : p'.state = p.state)
    (cpu : p'.cpu = p.cpu) (lock : p'.locked = p.locked) (pt : p'.point = p.point)
    (chan : p'.chan = p.chan) : Shape i p' :=
  h.congr st' cpu lock pt chan fun h' _ => absurd h' st

/-- A sleeper becomes `RUNNABLE`, on its channel or by a kill. -/
theorem wakes (st : p.state = .sleeping) (st' : p'.state = .runnable)
    (cpu : p'.cpu = p.cpu) (lock : p'.locked = p.locked) (pt : p'.point = p.point) :
    Shape i p' := by
  cases h with
  | asleep c _ cpu0 lock0 pt0 =>
    exact .ready st' (cpu.trans cpu0) (lock.trans lock0) (.inr (.inl ⟨c, pt.trans pt0⟩))
  | napping n _ cpu0 lock0 pt0 =>
    exact .ready st' (cpu.trans cpu0) (lock.trans lock0) (.inr (.inr (pt.trans pt0)))
  | unused st0 | used st0 | ready st0 | running st0 | leaving st0 | zombie st0 =>
    rw [st] at st0; cases st0

theorem wake (chan : Option Slot) : Shape i (Machine.wake chan p) := by
  unfold Machine.wake
  split
  · exact h.wakes (by tauto) rfl rfl rfl rfl
  · exact h

theorem kill : Shape i (Machine.kill p) := by
  by_cases st : p.state = .sleeping
  · exact h.wakes st (by simp [Machine.kill, st]) rfl rfl rfl
  · exact h.congr (by simp [Machine.kill, st]) rfl rfl rfl rfl
      fun _ c => ⟨c.pid, c.parent, c.chan, c.xstate, c.ipcReady, c.ipcLen⟩

theorem freeproc (st : p.state = .zombie) (lock : p.locked = false) :
    Shape i (ProcTable.freeproc p) :=
  .unused rfl (h.zombie_inv st lock).1 lock (.inl (h.zombie_inv st lock).2)
    ⟨rfl, rfl, rfl, rfl, rfl, rfl⟩

theorem resume (st : p.state = .runnable) (hart : Nat) :
    Shape i { Machine.resume p with state := .running, cpu := some hart } := by
  cases h with
  | ready _ _ lock pt =>
    rcases pt with pt | ⟨c, pt⟩ | pt
    · have hr : Machine.resume p = p := by
        unfold Machine.resume
        split <;> simp_all [Point.preemptible]
      rw [hr]
      exact .running rfl (by simp) (by rw [holdsLock_of_preemptible pt]; exact lock)
        (active_of_preemptible pt)
    · have hr : Machine.resume p = { p with chan := none, point := .enter c } := by
        simp [Machine.resume, pt]
      rw [hr]
      exact .running rfl (by simp) lock rfl
    · have hr : Machine.resume p = { p with chan := none, point := .other } := by
        simp [Machine.resume, pt]
      rw [hr]
      exact .running rfl (by simp) lock rfl
  | unused st0 | used st0 | asleep _ st0 | napping _ st0 | running st0 | leaving st0 | zombie st0 =>
    rw [st] at st0; cases st0

end Shape

section shape_step
variable {k k' : Kernel} {i : Slot} {c : Choice} {e : Event}

/-- The children that a fork has allocated but not yet released stay `USED`. -/
def Held (k : Kernel) : Prop :=
  ∀ i j, making (k i).point = some j ∨ (∃ pid, (k i).point = .forkReady j pid) →
    (k j).state = .used

section goes
variable {j : Slot} {f g : Proc → Proc} {q : Point} (h : ∀ m, Shape m (k m))
  (run : (k i).cpu ≠ none)
include h run

/-- The running process goes on to another active point, keeping or not keeping its own lock. -/
theorem shape_goes (pt : (k i).point = q) (act : active q = true := by rfl)
    (go : ∀ p, (g p).state = p.state ∧ (g p).cpu = p.cpu ∧ (g p).locked = p.locked ∧
      active (g p).point = true ∧ holdsLock q = holdsLock (g p).point := by
        intro; exact ⟨rfl, rfl, rfl, rfl, rfl⟩) :
    ∀ m, Shape m ((k.upd i g).proc m) := by
  obtain ⟨st, cpu, lock, act', same⟩ := go (k i)
  exact upd_all h ((h i).step run (pt ▸ act) st cpu act'
    (by rw [lock, (h i).locked_eq run, pt, same]))

/-- The same after a write to an entry, its own or another. -/
theorem shape_writes (entry : Shape j (f (k j))) (pt : (k i).point = q)
    (frame : (f (k j)).cpu = (k j).cpu ∧ (f (k j)).point = (k j).point := by
      exact ⟨rfl, rfl⟩) (act : active q = true := by rfl)
    (go : ∀ p, (g p).state = p.state ∧ (g p).cpu = p.cpu ∧ (g p).locked = p.locked ∧
      active (g p).point = true ∧ holdsLock q = holdsLock (g p).point := by
        intro; exact ⟨rfl, rfl, rfl, rfl, rfl⟩) :
    ∀ m, Shape m (((k.upd j f).upd i g).proc m) :=
  shape_goes (upd_all h entry) ((upd_frame Proc.cpu frame.1).trans_ne run)
    ((upd_frame Proc.point frame.2).trans pt) act go

end goes

theorem shape_act (h : ∀ m, Shape m (k m)) (held : Held k) (run : (k i).cpu ≠ none)
    (a : Act k i e k') : ∀ m, Shape m (k' m) := by
  have used : active (k i).point = true → (k i).state ≠ .unused := fun act st => by
    rw [((h i).running_of_active run act).1] at st
    cases st
  cases a with
  | sect sec =>
    have q := sec.quiet
    intro m
    by_cases hm : m = i
    · subst hm
      refine (h m).step run (active_of_quiet q.before) (q.life m).state (q.life m).cpu
        (active_of_quiet q.after) ?_
      rw [(q.life m).locked, (h m).locked_eq run, holdsLock_of_quiet q.before,
        holdsLock_of_quiet q.after]
    · exact (h m).of_same (q.life m) (q.others m hm)
  | found f j pt un =>
    have cpu := ((h j).unused_inv un).1
    have hij : i ≠ j := by rintro rfl; exact run cpu
    exact shape_goes (upd_all h (.used rfl cpu rfl)) (by rwa [upd_ne hij])
      ((congrArg _ (upd_ne hij)).trans pt)
  | clearReady _ j _ pt | clearLen _ j _ pt | link j _ pt =>
    have used := held i j (.inl (by rw [pt]; rfl))
    exact shape_writes h run ((h j).of_used (by simp [used]) rfl rfl rfl rfl rfl) pt
  | made f j pid pt =>
    have used := held i j (.inl (by rw [pt]; rfl))
    obtain ⟨cpu, hpt⟩ := (h j).used_inv used
    exact shape_writes h run (.used used cpu hpt) pt
  | allocFail f j pid pt =>
    obtain ⟨cpu, hpt⟩ := (h j).used_inv (held i j (.inl (by rw [pt]; rfl)))
    exact shape_writes h run (.unused rfl cpu rfl (.inr hpt) ⟨rfl, rfl, rfl, rfl, rfl, rfl⟩) pt
  | ready j pid pt lock =>
    obtain ⟨cpu, hpt⟩ := (h j).used_inv (held i j (.inr ⟨pid, pt⟩))
    exact shape_writes h run (.ready rfl cpu lock (.inl (by rw [hpt]; rfl))) pt
  | store _ _ pt | recvFail _ _ _ pt =>
    exact shape_writes h run ((h i).of_used (used (by rw [pt]; rfl)) rfl rfl rfl rfl rfl) pt
  | exitStore status q v pt =>
    exact shape_writes h run ((h q).congr rfl rfl rfl rfl rfl
      fun _ c => ⟨c.pid, c.parent, c.chan, c.xstate, c.ipcReady, c.ipcLen⟩) pt
  | adopt status j pt par =>
    refine shape_writes h run ((h j).of_used (fun st => ?_) rfl rfl rfl rfl rfl) pt
    rw [((h j).unused_inv st).2.2.2.parent] at par
    cases par
  | wake chan j w pt ne lock =>
    exact shape_writes h run ((h j).wake chan) pt
      (by unfold Machine.wake; split <;> exact ⟨rfl, rfl⟩)
  | zombie status pt => exact upd_all h (.leaving rfl run rfl (.inl rfl))
  | exitUnlock pt =>
    have lock : (k i).locked = true := by rw [(h i).locked_eq run, pt]; rfl
    exact upd_all h (.leaving ((h i).leaving_inv run (by rw [pt]; rfl)) run lock (.inr rfl))
  | exitSched pt => exact upd_all h (.zombie ((h i).leaving_inv run (by rw [pt]; rfl)) rfl rfl rfl)
  | enter c pt lock =>
    cases c with
    | wait | waitpid | recv => exact shape_goes h run pt
  | hold hh =>
    exact shape_goes h run rfl (hold_active hh).1 fun _ =>
      ⟨rfl, rfl, rfl, (hold_active hh).2, (hold_lock hh).1.trans (hold_lock hh).2.symm⟩
  | reapFail j addr m ok pt par dead copy =>
    rcases pt with ⟨n, kids, pt⟩ | ⟨n, pt⟩ <;>
      exact shape_writes h run ((h i).of_used (used (by rw [pt]; rfl)) rfl rfl rfl rfl rfl) pt
  | reap j addr m ok pt par lock dead copy =>
    have copied : ∀ {q}, (k i).point = q → active q = true → ∀ n,
        Shape n ((k.upd i fun p => { p with mem := m }).proc n) := fun pt act =>
      upd_all h ((h i).of_used (used (pt ▸ act)) rfl rfl rfl rfl rfl)
    rcases pt with ⟨n, kids, pt⟩ | ⟨n, pt⟩ <;>
      exact shape_writes (copied pt rfl) ((upd_frame Proc.cpu rfl).trans_ne run)
        ((copied pt rfl j).freeproc ((upd_frame Proc.state rfl).trans dead)
          ((upd_frame Proc.locked rfl).trans lock)) ((upd_frame Proc.point rfl).trans pt)
  | sleepLock c pt => exact upd_all h ((h i).step run (by rw [pt]; rfl) rfl rfl rfl rfl)
  | sleepSwitch c pt => exact upd_all h (.asleep c rfl rfl rfl rfl rfl)
  | sent pid msg t pt same live empty =>
    exact shape_writes h run ((h t).of_used live rfl rfl rfl rfl rfl) pt
  | kill pid j pt same lock => exact shape_writes h run (h j).kill pt
  | nap n pt => exact upd_all h (.napping n rfl rfl (by rw [(h i).locked_eq run, pt]; rfl) rfl rfl)
  | load _ pt | exitLoad _ _ pt | exitSkip _ pt | exitClose _ pt | exitLock _ pt
      | received _ _ _ _ pt
  | sleepRelease _ pt | unlock _ pt | sendLock _ _ pt | childLock _ _ pt
      | childUnlock _ _ _ _ _ pt =>
    exact shape_goes h run pt

theorem shape_sched (h : ∀ m, Shape m (k m)) (s : Sched k i k') : ∀ m, Shape m (k' m) := by
  cases s with
  | yield run pt =>
    have lock := ((h i).running_of_active run (active_of_preemptible pt)).2
    rw [holdsLock_of_preemptible pt] at lock
    exact upd_all h (.ready rfl rfl lock (.inl pt))
  | dispatch hart st lock idle => exact upd_all h ((h i).resume st hart)
  | rouse n ch st => exact upd_all h ((h i).wakes st rfl rfl rfl rfl)

theorem shape_step (h : ∀ m, Shape m (k m)) (held : Held k) (s : LifeStep k i c e k') :
    ∀ m, Shape m (k' m) := by
  cases s with
  | act go run a => exact shape_act h held run a
  | sched go s => exact shape_sched h s

end shape_step

/-! ## Who holds `wait_lock` -/

section holder
variable {k k' : Kernel} {i m : Slot} {c : Choice} {e : Event}

/-- A step moves nobody but its actor, except that a fresh child starts at `forkret`. -/
theorem act_point (a : Act k i e k') (hm : m ≠ i) : (k' m).point = (k m).point ∨
      ((k m).state = .unused ∧ takes m e = true ∧ (k' m).point = .forkret) := by
  obtain sec | writes := a.writes
  · exact .inl (sec.quiet.others m hm)
  · obtain ⟨f, write, -, others⟩ := writes m
    rw [others hm]
    cases write with
    | found f un => exact .inr ⟨un, decide_eq_true rfl, rfl⟩
    | _ => exact .inl rfl

/-- `wait_lock` belongs to the one process that is inside its sections. -/
def Holder (k : Kernel) : Prop :=
  ∀ m, k.waitLock = some m ↔ holdsWait (k m).point = true

theorem Holder.keep (h : Holder k) (lock : k'.waitLock = k.waitLock)
    (pts : ∀ m, holdsWait (k' m).point = holdsWait (k m).point) : Holder k' := fun m => by
  rw [lock, pts m]
  exact h m

theorem Holder.take (h : Holder k) (free : k.waitLock = none) (lock : k'.waitLock = some i)
    (self : holdsWait (k' i).point = true)
    (pts : ∀ m, m ≠ i → holdsWait (k' m).point = holdsWait (k m).point) :
    Holder k' := fun m => by
  by_cases hm : m = i
  · subst hm
    exact iff_of_true lock self
  · rw [lock, pts m hm, ← h m, free]
    simp [Ne.symm hm]

theorem Holder.drop (h : Holder k) (was : holdsWait (k i).point = true)
    (lock : k'.waitLock = none) (self : holdsWait (k' i).point = false)
    (pts : ∀ m, m ≠ i → holdsWait (k' m).point = holdsWait (k m).point) :
    Holder k' := fun m => by
  by_cases hm : m = i
  · subst hm
    simp [lock, self]
  · rw [lock, pts m hm, ← h m, (h i).2 was]
    simp [Ne.symm hm]

theorem holder_act (h : Holder k) (hs : ∀ m, Shape m (k m)) (a : Act k i e k') : Holder k' := by
  have others : ∀ m, m ≠ i → holdsWait (k' m).point = holdsWait (k m).point := by
    intro m hm
    rcases act_point a hm with hp | ⟨st, -, hp⟩
    · rw [hp]
    · rcases ((hs m).unused_inv st).2.2.1 with hp0 | hp0
      · rw [hp, hp0]; rfl
      · rw [hp, hp0]
  have keep : k'.waitLock = k.waitLock →
      holdsWait (k' i).point = holdsWait (k i).point → Holder k' := by
    intro lock self
    refine h.keep lock fun m => ?_
    by_cases hm : m = i
    · subst hm; exact self
    · exact others m hm
  cases a with
  | sect sec =>
    have q := sec.quiet
    exact keep q.waitLock (by rw [holdsWait_of_quiet q.before, holdsWait_of_quiet q.after])
  | hold hh => exact keep rfl (by rw [goto_self, (hold_wait hh).1]; exact (hold_wait hh).2)
  | found _ _ pt | clearReady _ _ _ pt | clearLen _ _ _ pt | made _ _ _ pt | link _ _ pt
  | ready _ _ pt | load _ pt | exitLoad _ _ pt | exitSkip _ pt
  | exitStore _ _ _ pt | exitClose _ pt | adopt _ _ pt | wake _ _ _ pt | zombie _ pt
  | exitSched pt | recvFail _ _ _ pt | received _ _ _ _ pt | sleepLock _ pt | sleepSwitch _ pt
  | sent _ _ _ pt | nap _ pt => exact keep rfl (by simp [pt, holdsWait])
  | allocFail _ _ _ pt | store _ _ pt | kill _ _ pt => exact keep rfl (by rw [ret_point, pt]; rfl)
  | reapFail _ _ _ _ pt | reap _ _ _ _ pt =>
    rcases pt with ⟨n, kids, pt⟩ | ⟨n, pt⟩ <;> exact keep rfl (by simp [pt, holdsWait])
  | exitLock _ pt lock | sendLock _ _ pt lock | childLock _ _ pt lock =>
    exact h.take lock rfl (by simp [holdsWait]) others
  | enter c pt lock => exact h.take lock rfl (by cases c <;> simp [holdsWait, Call.start]) others
  | exitUnlock pt | sleepRelease _ pt | childUnlock _ _ _ _ _ pt =>
    exact h.drop (by rw [pt]; rfl) rfl (by simp [holdsWait]) others
  | unlock v pt => exact h.drop (by rw [pt]; rfl) rfl (by rw [ret_point]; rfl) others

/-- No scheduler touches a process inside the sections of `wait_lock`. -/
theorem sched_wait (h : Shape i (k i)) (s : Sched k i k') :
    holdsWait (k i).point = false ∧ holdsWait (k' i).point = false := by
  rw [s.at holdsWait, and_self]
  cases s with
  | yield run pt => exact holdsWait_of_preemptible pt
  | dispatch hart st lock idle =>
    cases h with
    | ready _ _ _ pt =>
      rcases pt with pt | ⟨c, pt⟩ | pt
      · exact holdsWait_of_preemptible pt
      · rw [pt]; rfl
      · rw [pt]; rfl
    | unused st0 | used st0 | asleep _ st0 | napping _ st0 | running st0 | leaving st0
        | zombie st0 =>
      rw [st] at st0; cases st0
  | rouse n ch st =>
    cases h with
    | asleep _ _ _ _ pt | napping _ _ _ _ pt => rw [pt]; rfl
    | unused st0 | used st0 | ready st0 | running st0 | leaving st0 | zombie st0 =>
      rw [st] at st0; cases st0

theorem holder_step (h : Holder k) (hs : ∀ m, Shape m (k m)) (s : LifeStep k i c e k') :
    Holder k' := by
  cases s with
  | act go run a => exact holder_act h hs a
  | sched go s => exact h.keep (by cases s <;> rfl) (s.at holdsWait)

end holder

end OsProject.Xv6.Table
