import OsProject.Xv6.Table

/-! # Parents and children

The parent links of the table: a parent is alive, an exiting process has
handed every child behind its scan to init, and a child being made belongs to
the one process that makes it. Together with the shapes of the entries and
the holder of `wait_lock` this is `Wf`, which every history keeps. -/
namespace OsProject.Xv6.Family
open Lib.Transition Memory ProcTable Machine
open Lifecycle Table

/-- A process is being made, lives, or has exited. -/
inductive Phase where
  | unused | used | live | zombie
  deriving DecidableEq

def phase : ProcState → Phase
  | .unused => .unused
  | .used => .used
  | .sleeping | .runnable | .running => .live
  | .zombie => .zombie

theorem phase_unused {s} : phase s = .unused ↔ s = .unused := by cases s <;> decide
theorem phase_used {s} : phase s = .used ↔ s = .used := by cases s <;> decide
theorem phase_zombie {s} : phase s = .zombie ↔ s = .zombie := by cases s <;> decide

/-- How many slots `reparent` has scanned at this point of `kexit`. -/
def reparented : Point → Nat
  | .exitReparent _ n => n
  | .wakeup _ _ (.reparent _ n) => n + 1
  | .wakeup _ _ (.exit _) | .exitZombie _ => nproc
  | _ => 0

/-- The part of `kexit` behind the `init exiting` panic. -/
def past : Point → Bool
  | .exitLock _ | .exitReparent _ _ | .wakeup _ _ (.reparent _ _) | .wakeup _ _ (.exit _)
  | .exitZombie _ | .exitUnlock | .exitSched | .dead => true
  | _ => false

/-- Points outside the last steps of `kfork` and of `kexit`. -/
def plain : Point → Bool
  | .allocReady _ _ _ | .allocLen _ _ _ | .allocRest _ _ _ | .forkLink _ _ | .forkReady _ _ => false
  | pt => !past pt

structure Links (k : Kernel) : Prop where
  making : ∀ i j, making (k i).point = some j →
    (k j).state = .used ∧ (k j).parent = none
  readying : ∀ i j pid, (k i).point = .forkReady j pid →
    (k j).state = .used ∧ (k j).parent = some i
  maker : ∀ i i' j, Table.making (k i).point = some j →
    Table.making (k i').point = some j → i = i'
  parents : ∀ m q, (k m).parent = some q → phase (k q).state = .live
  passed : ∀ (m q : Slot), m.val < reparented (k q).point → (k m).parent ≠ some q
  init : phase (k initproc).state = .live ∧ past (k initproc).point = false

theorem Links.held {k} (h : Links k) : Held k := by
  rintro i j (pt | ⟨pid, pt⟩)
  · exact (h.making i j pt).1
  · exact (h.readying i j pid pt).1

theorem Links.linking {k i j pid} (h : Links k) (pt : (k i).point = .forkLink j pid) :
    (k j).state = .used ∧ (k j).parent = none := h.making i j (by rw [pt]; rfl)

/-! ## What a step does to the parent links -/

/-- The parent of `m` after a step of `i`. -/
inductive ParentStep (k k' : Kernel) (i m : Slot) (e : Event) : Option Slot → Prop
  | same : ParentStep k k' i m e (k m).parent
  | cleared (was : (k m).state = .zombie ∨ making (k i).point = some m ∧
        making (k' i).point = none) (now : (k' m).state = .unused)
      (free : e = .allocFail m ∨ ∃ pid addr, e = .reap m pid addr) : ParentStep k k' i m e none
  | linked (pid : Int32) (pt : (k i).point = .forkLink m pid)
      (pt' : (k' i).point = .forkReady m pid) (lock : k.waitLock = none) :
      ParentStep k k' i m e (some i)
  | adopted (status : Int32) (pt : (k i).point = .exitReparent status m.val)
      (pt' : (k' i).point = .wakeup (some initproc) 0 (.reparent status m.val))
      (par : (k m).parent = some i) : ParentStep k k' i m e (some initproc)

/-- The phase of `m` over a step of `i`. -/
inductive PhaseStep (k k' : Kernel) (i m : Slot) (e : Event) : Prop
  | same (ph : phase (k' m).state = phase (k m).state)
  | made (was : (k m).state = .unused) (st : (k' m).state = .used) (ev : e = .alloc m)
  | readied (pid : Int32) (pt : (k i).point = .forkReady m pid)
      (pt' : (k' i).point = .forkLoad pid) (st : (k' m).state = .runnable)
  | died (status : Int32) (self : m = i) (pt : (k i).point = .exitZombie status)
      (ev : e = .exit status) (st : (k' m).state = .zombie)
  | dropped (was : building (k i).point = some m) (pt' : making (k' i).point = none)
      (ev : e = .allocFail m) (st : (k' m).state = .unused)
  | freed (addr : UInt64) (was : (k m).state = .zombie) (par : (k m).parent = some i)
      (ev : e = .reap m (k m).pid addr) (st : (k' m).state = .unused)

/-- Where a step may take its actor, as far as the parent links go. -/
structure Moves (k k' : Kernel) (i : Slot) (e : Event) : Prop where
  make : ∀ j, making (k' i).point = some j →
    making (k i).point = some j ∨ e = .alloc j ∧ (k j).state = .unused ∧
      (k' j).state = .used ∧ (k' j).parent = (k j).parent
  ready : ∀ j pid, (k' i).point = .forkReady j pid →
    (k i).point = .forkReady j pid ∨
      (k i).point = .forkLink j pid ∧ (k' j).parent = some i ∧
        (k' j).state = (k j).state
  past : past (k' i).point = true → past (k i).point = true ∨ i ≠ initproc
  passed : ∀ n : Slot, n.val < reparented (k' i).point →
    n.val < reparented (k i).point ∨ (k' n).parent ≠ some i

section steps
variable {k k' : Kernel} {i : Slot} {c : Choice} {e : Event}

theorem parent_act (a : Act k i e k') (m : Slot) : ParentStep k k' i m e (k' m).parent := by
  obtain sec | writes := a.writes
  · rw [(sec.quiet.life m).parent]
    exact .same
  · obtain ⟨f, write, eq, -⟩ := writes m
    have new : (k' m).parent = (f (k m)).parent := by rw [eq]
    rw [new]
    cases write with
    | allocFail f pid pt pt' =>
      exact .cleared (.inr (by rw [pt, pt']; exact ⟨rfl, rfl⟩)) (by rw [eq]; rfl) (.inl rfl)
    | reap addr _ _ dead => exact .cleared (.inl dead) (by rw [eq]; rfl) (.inr ⟨_, _, rfl⟩)
    | link pid pt pt' lock => exact .linked pid pt pt' lock
    | adopt status pt pt' par => exact .adopted status pt pt' par
    | _ => exact .same

theorem parent_step (s : LifeStep k i c e k') (m : Slot) : ParentStep k k' i m e (k' m).parent := by
  cases s with
  | act go run a => exact parent_act a m
  | sched go s =>
    rw [s.frame Proc.parent]
    exact .same

theorem phase_act (hs : ∀ m, Shape m (k m)) (run : (k i).cpu ≠ none)
    (a : Act k i e k') (m : Slot) : PhaseStep k k' i m e := by
  obtain sec | writes := a.writes
  · exact .same (by rw [(sec.quiet.life m).state])
  · obtain ⟨f, write, eq, -⟩ := writes m
    have st : (k' m).state = (f (k m)).state := by rw [eq]
    cases write with
    | found f un => exact .made un st rfl
    | allocFail f pid pt pt' => exact .dropped (by rw [pt]; rfl) (by rw [pt']; rfl) rfl st
    | ready pid pt pt' => exact .readied pid pt pt' st
    | zombie status self pt => exact .died status self pt rfl st
    | reap addr par _ dead => exact .freed addr dead par rfl st
    | wake was => exact .same (by rw [st, was]; rfl)
    | kill =>
      refine .same ?_
      rw [st]
      unfold Machine.kill
      split
      · rename_i was
        rw [was]
        rfl
      · rfl
    | sleep self l ch pt =>
      subst self
      have act : active (k m).point = true := by
        rcases pt with ⟨c, pt⟩ | pt <;> rw [pt] <;> rfl
      exact .same (by rw [st, ((hs m).running_of_active run act).1]; rfl)
    | _ => exact .same (congrArg phase st)

theorem phase_step (hs : ∀ m, Shape m (k m)) (s : LifeStep k i c e k') (m : Slot) :
    PhaseStep k k' i m e := by
  cases s with
  | act go run a => exact phase_act hs run a m
  | sched go s =>
    cases s with
    | yield run pt =>
      have st := ((hs i).running_of_active run (active_of_preemptible pt)).1
      exact .same (upd_frame (fun p => phase p.state) (by rw [st]; rfl))
    | dispatch _ st | rouse _ _ st =>
      exact .same (upd_frame (fun p => phase p.state) (by rw [st]; rfl))

theorem Moves.of_same (pt : (k' i).point = (k i).point) : Moves k k' i e :=
  ⟨fun _ h => .inl (pt ▸ h), fun _ _ h => .inl (pt ▸ h), fun h => .inl (pt ▸ h),
    fun _ h => .inl (pt ▸ h)⟩

theorem Moves.of_plain (h : plain (k' i).point = true) : Moves k k' i e := by
  generalize hp : (k' i).point = pt at h
  constructor <;> rw [hp]
  · intro j hj
    cases pt <;> first | (cases h; done) | cases hj
  · rintro j pid rfl; cases h
  · intro hpast
    unfold plain at h
    split at h <;> simp_all
  · intro n hn
    unfold reparented at hn
    split at hn <;> first | cases h | cases hn

theorem plain_of_quiet {pt} (h : quietPoint pt = true) : plain pt = true := by
  cases pt <;> first | rfl | cases h

/-- Inside `kexit` behind the panic, a move keeps the count of scanned slots. -/
theorem Moves.of_past {p q} (hp : (k i).point = p) (hq : (k' i).point = q)
    (was : Family.past p = true ∨ i ≠ initproc) (now : Family.past q = true)
    (scan : ∀ n : Slot, n.val < reparented q →
      n.val < reparented p ∨ (k' n).parent ≠ some i) : Moves k k' i e := by
  constructor <;> rw [hp, hq]
  · intro j hj
    cases q <;> first | (cases now; done) | cases hj
  · rintro j pid rfl; cases now
  · exact fun _ => was
  · exact scan

theorem hold_moves {pt'} (h : Hold k i (k i).point pt') : Moves k (k.goto i pt') i e := by
  generalize hp : (k i).point = pt at h
  have hp' : ((k.goto i pt').proc i).point = pt' := by rw [goto_self]
  cases h with
  | reparentSkip status j par =>
    refine .of_past hp hp' (.inl rfl) rfl fun n hn => ?_
    by_cases hj : n = j
    · subst hj; right; rw [goto_parent]; exact par
    · have := Fin.val_ne_of_ne hj
      simp only [reparented] at hn ⊢
      omega
  | reparentEnd status n last =>
    exact .of_past hp hp' (.inl rfl) rfl fun m _ => .inl (lt_of_lt_of_le m.isLt last)
  | wakeSelf chan w =>
    cases w with
    | reparent status n | exit status => exact .of_past hp hp' (.inl rfl) rfl fun _ hn => .inl hn
    | send n => exact .of_plain (by rw [hp']; rfl)
  | wakeEnd chan n w last =>
    cases w with
    | reparent status n | exit status => exact .of_past hp hp' (.inl rfl) rfl fun _ hn => .inl hn
    | send n => exact .of_plain (by rw [hp']; rfl)
  | _ => exact .of_plain (by rw [hp']; rfl)

theorem moves_act (hi : past (k initproc).point = false) (a : Act k i e k') : Moves k k' i e := by
  have exits : ∀ {p q : Point}, (k i).point = p → (k' i).point = q →
      (past p = true ∨ i ≠ initproc) → past q = true → reparented q = 0 → Moves k k' i e := by
    intro p q hp hq was now scan
    refine .of_past hp hq was now fun n hn => ?_
    rw [scan] at hn
    cases hn
  cases a with
  | sect sec => exact .of_plain (plain_of_quiet sec.quiet.after)
  | hold hh => exact hold_moves hh
  | found f j pt un =>
    constructor <;> rw [goto_self]
    · intro j' hp
      cases hp
      refine .inr ⟨rfl, un, by rw [goto_state, upd_self]; rfl, ?_⟩
      rw [goto_parent]
      exact upd_frame Proc.parent rfl
    all_goals nofun
  | clearReady f j pid pt | clearLen f j pid pt | made f j pid pt =>
    constructor <;> rw [goto_self]
    · intro j' hp
      exact .inl (by rw [pt]; exact hp)
    all_goals nofun
  | link j pid pt lock =>
    constructor <;> rw [goto_self]
    · nofun
    · intro j' pid' hp
      cases hp
      exact .inr ⟨pt, by rw [goto_parent, upd_self], by rw [goto_state, upd_self]⟩
    all_goals nofun
  | exitClose status pt ne =>
    exact exits (q := .exitLock status) pt (by rw [upd_self]) (.inr ne) rfl rfl
  | exitLock status pt lock =>
    exact exits (q := .exitReparent status 0) pt (by rw [goto_self]) (.inl rfl) rfl rfl
  | zombie status pt => exact exits (q := .exitUnlock) pt (by rw [upd_self]) (.inl rfl) rfl rfl
  | exitUnlock pt => exact exits (q := .exitSched) pt (by rw [goto_self]) (.inl rfl) rfl rfl
  | exitSched pt => exact exits (q := .dead) pt (by rw [upd_self]) (.inl rfl) rfl rfl
  | adopt status j pt par =>
    refine .of_past (q := .wakeup (some initproc) 0 (.reparent status j.val)) pt
      (by rw [goto_self]) (.inl rfl) rfl fun n hn => ?_
    by_cases hj : n = j
    · subst hj
      right
      rw [goto_parent, upd_self]
      rintro ⟨⟩
      rw [pt] at hi
      cases hi
    · have := Fin.val_ne_of_ne hj
      simp only [reparented] at hn ⊢
      omega
  | wake chan j w pt ne lock =>
    cases w with
    | reparent status n =>
      exact .of_past (q := .wakeup chan (j.val + 1) (.reparent status n)) pt (by rw [goto_self])
        (.inl rfl) rfl fun n hn => .inl hn
    | exit status =>
      exact .of_past (q := .wakeup chan (j.val + 1) (.exit status)) pt (by rw [goto_self])
        (.inl rfl) rfl fun n hn => .inl hn
    | send n => exact .of_plain (by rw [goto_self]; rfl)
  | enter c pt lock => cases c <;> exact .of_plain (by rw [goto_self]; rfl)
  | ready | load | exitLoad | exitSkip | exitStore | reapFail | reap | recvFail | sleepRelease
  | sendLock | sent | childLock | childUnlock => exact .of_plain (by rw [goto_self]; rfl)
  | allocFail | store | unlock | kill => exact .of_plain (by rw [ret_point]; rfl)
  | received | sleepLock | sleepSwitch | nap => exact .of_plain (by rw [upd_self]; rfl)

theorem moves_step (hi : past (k initproc).point = false) (s : LifeStep k i c e k') :
    Moves k k' i e := by
  cases s with
  | act go run a => exact moves_act hi a
  | sched go s =>
    rcases s.point i with hp | ⟨c, -, hp⟩ | ⟨-, hp⟩
    · exact .of_same hp
    · exact .of_plain (by rw [hp]; rfl)
    · exact .of_plain (by rw [hp]; rfl)

theorem point_step {m} (s : LifeStep k i c e k') (hm : m ≠ i) :
    (k' m).point = (k m).point ∨
      ((k m).state = .unused ∧ takes m e = true ∧ (k' m).point = .forkret) := by
  cases s with
  | act go run a => exact act_point a hm
  | sched go s => cases s <;> rw [upd_ne hm] <;> exact .inl rfl

/-- Others write a process's trapframe only to create or to free it. -/
theorem trapframe_act {m} (hs : ∀ m, Shape m (k m)) (held : Held k) (a : Act k i e k')
    (hm : m ≠ i) : (k' m).trapframe = (k m).trapframe ∨
      (k m).point = .dead ∨ (k m).point = .forkret := by
  obtain sec | writes := a.writes
  · left
    cases sec with
    | sigsend => rw [ret_ne hm]; exact upd_frame Proc.trapframe rfl
    | signal | exec | noCopy | children | finish => rw [ret_ne hm, upd_ne hm]
    | ret => rw [ret_ne hm]
    | offer => rw [goto_ne hm, upd_ne hm]
    | run | trap | sigreturn | deliver | userret => rw [upd_ne hm]
    | call | killed | alive | masked | unmasked | sigNext | sigFound | sigNone | sigLoad | forkCheck
    | forkNext | killNext | sigsendNext => rw [goto_ne hm]
  · obtain ⟨f, write, -, others⟩ := writes m
    rw [others hm]
    cases write with
    | made _ _ pt | allocFail _ _ pt =>
      exact .inr (.inr ((hs m).used_inv (held i m (.inl (by rw [pt]; rfl)))).2)
    | reap _ _ lock dead => exact .inr (.inl ((hs m).zombie_inv dead lock).2)
    | _ => exact .inl rfl

theorem trapframe_step {m} (hs : ∀ m, Shape m (k m)) (held : Held k)
    (s : LifeStep k i c e k') (hm : m ≠ i) : (k' m).trapframe = (k m).trapframe ∨
      (k m).point = .dead ∨ (k m).point = .forkret := by
  cases s with
  | act go run a => exact trapframe_act hs held a hm
  | sched go s => cases s <;> exact .inl (by rw [upd_ne hm])

/-! ## The invariant -/

theorem reparented_eq_zero {pt} (h : past pt = false) : reparented pt = 0 := by
  unfold reparented
  split <;> first | rfl | cases h

/-- A process that stands inside the kernel's code, before its exit, is alive. -/
def standing : Point → Bool
  | .forkret | .exitUnlock | .exitSched | .dead => false
  | _ => true

theorem live_of_point {m p} (h : Shape m p) (pt : standing p.point = true) :
    phase p.state = .live := by
  cases h with
  | unused _ _ _ hp | leaving _ _ _ hp => rcases hp with hp | hp <;> rw [hp] at pt <;> cases pt
  | used _ _ hp | zombie _ _ _ hp => rw [hp] at pt; cases pt
  | asleep _ st | napping _ st | ready st | running st => rw [st]; rfl

theorem links_step (h : Links k) (hs : ∀ m, Shape m (k m)) (s : LifeStep k i c e k') :
    Links k' := by
  have moves := moves_step h.init.2 s
  have par := parent_step s
  have ph := phase_step hs s
  have pts : ∀ m, m ≠ i → (k' m).point = (k m).point ∨ (k' m).point = .forkret :=
    fun m hm => (point_step s hm).imp_right fun h => h.2.2
  -- a child being made keeps its state and its parent as long as its maker is at it
  have used : ∀ a j, (making (k a).point = some j ∧ making (k' a).point = some j ∨
      ∃ pid, (k a).point = .forkReady j pid ∧ (k' a).point = .forkReady j pid) →
      (k' j).state = .used ∧ (k' j).parent = (k j).parent := by
    intro a j hp
    have st := h.held a j (hp.imp (·.1) fun ⟨pid, hp⟩ => ⟨pid, hp.1⟩)
    -- the section of another process that makes a child is about another child
    have away : making (k i).point = some j → making (k' i).point = some j := by
      intro made
      rcases hp with ⟨hp, hp'⟩ | ⟨pid, hp, -⟩
      · rwa [← h.maker a i j hp made]
      · have orphan := (h.making i j made).2
        rw [(h.readying a j pid hp).2] at orphan
        cases orphan
    refine ⟨?_, ?_⟩
    · cases ph j with
      | same ph => exact phase_used.1 (ph.trans (phase_used.2 st))
      | made was | freed _ was => rw [st] at was; cases was
      | readied pid' pt pt' =>
        have hpar := (h.readying i j pid' pt).2
        rcases hp with ⟨hp, -⟩ | ⟨pid, hp, hp'⟩
        · rw [(h.making a j hp).2] at hpar; cases hpar
        · rw [(h.readying a j pid hp).2] at hpar
          cases hpar
          rw [pt'] at hp'
          cases hp'
      | died status self pt =>
        subst self
        rw [((hs j).used_inv st).2] at pt
        cases pt
      | dropped was pt' => rw [away (making_of_building was)] at pt'; cases pt'
    · generalize hpar : (k' j).parent = new
      have step := par j
      rw [hpar] at step
      cases step with
      | same => rfl
      | cleared was =>
        rcases was with was | ⟨was, pt'⟩
        · rw [st] at was; cases was
        · rw [away was] at pt'; cases pt'
      | linked pid' pt pt' =>
        have made := away (by rw [pt]; rfl)
        rw [pt'] at made
        cases made
      | adopted status pt _ par0 =>
        rcases hp with ⟨hp, -⟩ | ⟨pid, hp, -⟩
        · rw [(h.making a j hp).2] at par0; cases par0
        · rw [(h.readying a j pid hp).2] at par0
          cases par0
          rw [hp] at pt
          cases pt
  -- nobody but the actor comes to a point in the last steps of a fork
  have old : ∀ a j, a ≠ i → making (k' a).point = some j → making (k a).point = some j := by
    intro a j ha hp
    rcases pts a ha with h' | h' <;> rw [h'] at hp
    · exact hp
    · cases hp
  have made : ∀ a j, making (k' a).point = some j → making (k a).point = some j ∨
      a = i ∧ e = .alloc j ∧ (k j).state = .unused ∧ (k' j).state = .used ∧
        (k' j).parent = (k j).parent := by
    intro a j hp
    by_cases ha : a = i
    · subst ha; exact (moves.make j hp).imp_right fun h' => ⟨rfl, h'⟩
    · exact .inl (old a j ha hp)
  have live : ∀ q, phase (k q).state = .live → phase (k' q).state = .live ∨
      q = i ∧ ∃ status, (k i).point = .exitZombie status := by
    intro q hq
    cases ph q with
    | same ph => exact .inl (ph.trans hq)
    | made was => rw [was] at hq; cases hq
    | readied pid pt pt' st => exact .inl (by rw [st]; rfl)
    | died status self pt => exact .inr ⟨self, status, pt⟩
    | dropped was => rw [(h.making i q (making_of_building was)).1] at hq; cases hq
    | freed addr was => rw [was] at hq; cases hq
  have initLive : phase (k' initproc).state = .live := by
    rcases live initproc h.init.1 with hl | ⟨rfl, status, pt⟩
    · exact hl
    · have := h.init.2
      rw [pt] at this
      cases this
  have initPast : past (k' initproc).point = false := by
    rw [Bool.eq_false_iff]
    intro hp
    by_cases hi : initproc = i
    · rw [hi] at hp
      rcases moves.past hp with hp | hp
      · rw [← hi, h.init.2] at hp; cases hp
      · exact hp hi.symm
    · rcases pts initproc hi with h' | h' <;> rw [h'] at hp
      · rw [h.init.2] at hp; cases hp
      · cases hp
  constructor
  · intro a j hp
    rcases made a j hp with hp0 | ⟨-, -, un, st, hpar⟩
    · obtain ⟨st, hpar⟩ := used a j (.inl ⟨hp0, hp⟩)
      exact ⟨st, hpar.trans (h.making a j hp0).2⟩
    · exact ⟨st, hpar.trans ((hs j).unused_inv un).2.2.2.parent⟩
  · intro a j pid hp
    have hp0 : (k a).point = .forkReady j pid ∨ a = i ∧
        (k i).point = .forkLink j pid ∧ (k' j).parent = some i ∧
          (k' j).state = (k j).state := by
      by_cases ha : a = i
      · subst ha; exact (moves.ready j pid hp).imp_right fun h' => ⟨rfl, h'⟩
      · rcases pts a ha with h' | h' <;> rw [h'] at hp
        · exact .inl hp
        · cases hp
    rcases hp0 with hp0 | ⟨rfl, hp0, hpar, st⟩
    · obtain ⟨st, hpar⟩ := used a j (.inr ⟨pid, hp0, hp⟩)
      exact ⟨st, hpar.trans (h.readying a j pid hp0).2⟩
    · exact ⟨st.trans (h.linking hp0).1, hpar⟩
  · intro a a' j hp hp'
    rcases made a j hp with hp0 | ⟨rfl, -, un, -⟩
    · rcases made a' j hp' with hp0' | ⟨rfl, -, un, -⟩
      · exact h.maker a a' j hp0 hp0'
      · rw [(h.making a j hp0).1] at un; cases un
    · rcases made a' j hp' with hp0' | ⟨rfl, -⟩
      · rw [(h.making a' j hp0').1] at un; cases un
      · rfl
  · intro m q hm
    have step := par m
    rw [hm] at step
    generalize hq : some q = new at step
    cases step with
    | same =>
      rcases live q (h.parents m q hq.symm) with hl | ⟨rfl, status, pt⟩
      · exact hl
      · exact absurd hq.symm (h.passed m q (by rw [pt]; exact m.isLt))
    | cleared => cases hq
    | linked pid pt =>
      cases hq
      rcases live i (live_of_point (hs i) (by rw [pt]; rfl)) with hl | ⟨-, status, pt'⟩
      · exact hl
      · rw [pt] at pt'; cases pt'
    | adopted status pt _ par0 =>
      cases hq
      exact initLive
  · intro m q hm hpar
    have step := par m
    rw [hpar] at step
    generalize hq : some q = new at step
    cases step with
    | same =>
      by_cases hqi : q = i
      · subst hqi
        rcases moves.passed m hm with hm | hm
        · exact h.passed m q hm hq.symm
        · exact hm hpar
      · rcases pts q hqi with hp | hp
        · exact h.passed m q (hp ▸ hm) hq.symm
        · rw [hp] at hm; cases hm
    | cleared => cases hq
    | linked pid pt pt' =>
      cases hq
      rw [pt'] at hm
      cases hm
    | adopted status pt _ par0 =>
      cases hq
      rw [reparented_eq_zero initPast] at hm
      cases hm
  · exact ⟨initLive, initPast⟩

end steps

/-! ## The lock of a child -/

/-- The lock of a child being made is held while its maker is inside `allocproc`. -/
def Guarded (k : Kernel) : Prop := ∀ j, (k j).state = .used →
  ((k j).locked = true ↔ ∃ i, building (k i).point = some j)

section guarded
variable {k k' : Kernel} {i : Slot} {c : Choice} {e : Event}

/-- The events of the sections inside `allocproc`, and of the one into it. -/
theorem building_event {j} (a : Act k i e k') :
    (building (k i).point = some j → e = .reset j ∨ e = .allocFail j) ∧
      (building (k' i).point = some j → e = .alloc j ∨ building (k i).point = some j) := by
  have flow := a.flow
  generalize (k i).point = p at flow
  generalize (k' i).point = q at flow
  cases flow with
  | found _ _ _ _ ev => exact ⟨nofun, by rintro ⟨⟩; exact .inl ev⟩
  | clearReady _ _ _ ev | clearLen _ _ _ ev =>
    exact ⟨by rintro ⟨⟩; exact .inl ev, by rintro ⟨⟩; exact .inr rfl⟩
  | made _ _ _ ev => exact ⟨by rintro ⟨⟩; exact .inl ev, nofun⟩
  | allocFail _ _ _ ev => exact ⟨by rintro ⟨⟩; exact .inr ev, nofun⟩
  | sect _ before after =>
    constructor <;> intro h
    · cases p <;> first | (cases h; done) | cases before
    · cases q <;> first | (cases h; done) | cases after
  | hold hh =>
    have held := hold_wait hh
    constructor <;> intro h
    · cases p <;> first | (cases h; done) | cases held.1
    · cases q <;> first | (cases h; done) | cases held.2
  | enter c eq => subst eq; cases c <;> exact ⟨nofun, nofun⟩
  | _ => exact ⟨nofun, nofun⟩

theorem building_other (hs : ∀ m, Shape m (k m)) (a : Act k i e k') {j m} (hm : m ≠ i) :
    building (k' m).point = some j ↔ building (k m).point = some j := by
  rcases act_point a hm with pt | ⟨un, -, pt⟩
  · rw [pt]
  · rw [pt]
    rcases ((hs m).unused_inv un).2.2.1 with hp | hp <;> rw [hp]
    exact ⟨nofun, nofun⟩

/-- Nobody starts to make a child but in the section that claims its slot. -/
theorem building_back (hs : ∀ m, Shape m (k m)) (s : LifeStep k i c e k') {j m}
    (h : building (k' m).point = some j) : e = .alloc j ∨ building (k m).point = some j := by
  cases s with
  | act go run a =>
    by_cases hm : m = i
    · subst hm; exact (building_event a).2 h
    · exact .inr ((building_other hs a hm).1 h)
  | sched go s => exact .inr ((s.at building m).symm.trans h)

theorem guarded_act (h : Guarded k) (hl : Links k) (hs : ∀ m, Shape m (k m))
    (run : (k i).cpu ≠ none) (a : Act k i e k') : Guarded k' := by
  intro j used
  have others : ∀ m, m ≠ i →
      (building (k' m).point = some j ↔ building (k m).point = some j) :=
    fun m hm => building_other hs a hm
  -- a section that is not about `j` leaves the lock of `j` and its holder alone
  have calm : e ≠ .alloc j → e ≠ .reset j → e ≠ .allocFail j →
      (k' j).state = (k j).state → (k' j).locked = (k j).locked →
      ((k' j).locked = true ↔ ∃ m, building (k' m).point = some j) := by
    intro alloc reset fail st lock
    rw [lock, h j (st.symm.trans used)]
    refine exists_congr fun m => ?_
    by_cases hm : m = i
    · subst hm
      obtain ⟨was, now⟩ := building_event (j := j) a
      have away : ¬ building (k m).point = some j := fun b => (was b).elim reset fail
      exact iff_of_false away fun b => (now b).elim alloc away
    · exact (others m hm).symm
  obtain sec | writes := a.writes
  · have life := sec.quiet.life j
    have ev := sec.event
    exact calm (by rintro rfl; cases ev) (by rintro rfl; cases ev) (by rintro rfl; cases ev)
      life.state life.locked
  · obtain ⟨f, write, eq, -⟩ := writes j
    have st : (k' j).state = (f (k j)).state := by rw [eq]
    have lock : (k' j).locked = (f (k j)).locked := by rw [eq]
    have self : j = i → ¬ (k j).state = .used := by
      rintro rfl st
      exact run ((hs j).used_inv st).1
    have was := st.symm.trans used
    cases write with
    | none away | mem _ away =>
      refine calm ?_ ?_ ?_ st lock <;> rintro rfl <;> exact of_decide_eq_false away rfl
    | found f un pt' => exact iff_of_true lock ⟨i, by rw [pt']; rfl⟩
    | clearReady f pid pt pt' | clearLen f pid pt pt' =>
      exact iff_of_true (lock.trans ((h j was).2 ⟨i, by rw [pt]; rfl⟩)) ⟨i, by rw [pt']; rfl⟩
    | made f pid pt pt' =>
      refine iff_of_false (by rw [lock]; nofun) ?_
      rintro ⟨m, b⟩
      by_cases hm : m = i
      · rw [hm, pt'] at b; cases b
      · exact hm (hl.maker m i j (making_of_building ((others m hm).1 b)) (by rw [pt]; rfl))
    | kill =>
      refine calm nofun nofun nofun (st.trans ?_) lock
      unfold Machine.kill at was ⊢
      dsimp only at was ⊢
      split at was
      · cases was
      · rw [if_neg ‹_›]
    | exitSched me | lock me => exact absurd was (self me)
    | allocFail | ready | wake | zombie | reap | sleep => cases was
    | link | increment | decrement | close | adopt | received | sent =>
      exact calm nofun nofun nofun st lock

theorem guarded_step (h : Guarded k) (hl : Links k) (hs : ∀ m, Shape m (k m))
    (s : LifeStep k i c e k') : Guarded k' := by
  cases s with
  | act go run a => exact guarded_act h hl hs run a
  | sched go s =>
    intro j used
    have st : (k j).state = .used := by
      cases s with
      | yield | dispatch | rouse =>
        rw [upd_proc] at used
        split at used
        · cases used
        · exact used
    rw [s.frame Proc.locked, h j st]
    exact exists_congr fun m => by rw [s.at building m]

end guarded

/-- Everything about locks, states and parents that later proofs start from. -/
structure Wf (k : Kernel) : Prop where
  shape : ∀ m, Shape m (k m)
  holder : Holder k
  links : Links k
  guarded : Guarded k

/-- Only an occupied slot has a parent. -/
theorem Wf.occupied {k} (h : Wf k) {m q} (par : (k m).parent = some q) : (k m).state ≠ .unused := by
  intro un
  rw [((h.shape m).unused_inv un).2.2.2.parent] at par
  cases par

theorem boot_point (b : Boot) (m : Slot) :
    ((boot b).proc m).point = .dead ∨ ((boot b).proc m).point = .forkret := by
  by_cases hm : m = initproc
  · simp only [boot, hm, if_true]; exact .inr rfl
  · simp only [boot, hm, if_false]; exact .inl rfl

theorem boot_parent (b : Boot) (m : Slot) : ((boot b).proc m).parent = none :=
  boot_frame b m Proc.parent rfl

theorem wf_boot (b : Boot) : Wf (boot b) := by
  have shape : ∀ m, Shape m ((boot b).proc m) := by
    intro m
    by_cases hm : m = initproc
    · simp only [boot, hm, if_true]
      exact .ready rfl rfl rfl (.inl rfl)
    · simp only [boot, hm, if_false]
      exact .unused rfl rfl rfl (.inl rfl) ⟨rfl, rfl, rfl, rfl, rfl, rfl⟩
  have pts := boot_point b
  have par := boot_parent b
  refine ⟨shape, fun m => ?_, ?_, fun j used => ?_⟩
  · rcases pts m with hp | hp <;> rw [hp] <;> simp [boot, holdsWait]
  · constructor
    · intro i j hp; rcases pts i with h | h <;> rw [h] at hp <;> cases hp
    · intro i j pid hp; rcases pts i with h | h <;> rw [h] at hp <;> cases hp
    · intro i i' j hp; rcases pts i with h | h <;> rw [h] at hp <;> cases hp
    · intro m q hm; rw [par m] at hm; cases hm
    · intro m q hm; rw [par m]; simp
    · exact ⟨rfl, rfl⟩
  · unfold boot at used
    dsimp only at used
    split at used <;> cases used

theorem wf_life {k k' i c e} (h : Wf k) (s : LifeStep k i c e k') : Wf k' :=
  ⟨shape_step h.shape h.links.held s, holder_step h.holder h.shape s, links_step h.links h.shape s,
    guarded_step h.guarded h.links h.shape s⟩

theorem wf_step {k k' l} (h : Wf k) (s : Step k l k') : Wf k' := wf_life h (step_life s)

/-- Every state of every history is well formed. -/
theorem history_wf {b t k} (h : History b t k) : Wf k :=
  h.keeps (wf_boot b) fun _ _ _ hk hs => wf_step hk hs

/-! ## Occupants of a slot -/

section occupants
variable {k k' : Kernel} {i : Slot} {c : Choice} {e : Event}

/-- Only an unused slot is given away. -/
theorem takes_unused {j} (s : LifeStep k i c e k') (h : takes j e = true) :
    (k j).state = .unused := by
  cases s with
  | act go run a =>
    cases a with
    | sect sec => have ev := sec.event; cases e <;> first | cases h | cases ev
    | found f j' pt un =>
      obtain rfl : j' = j := by simpa [takes] using h
      exact un
    | _ => cases h
  | sched go s => cases h

theorem occupied_step {j} (hw : Wf k) (s : LifeStep k i c e k')
    (h : (k' j).state ≠ .unused) : (k j).state ≠ .unused ∨ e = .alloc j := by
  cases phase_step hw.shape s j with
  | same ph => exact .inl fun un => h (phase_unused.1 (ph.trans (phase_unused.2 un)))
  | made was st ev => exact .inr ev
  | readied pid pt => exact .inl (by rw [(hw.links.readying i j pid pt).1]; simp)
  | died status self pt =>
    subst self
    refine .inl fun un => ?_
    rcases ((hw.shape j).unused_inv un).2.2.1 with hp | hp <;> rw [hp] at pt <;> cases pt
  | dropped was pt' ev st => exact absurd st h
  | freed addr was par ev st => exact absurd st h

/-- The pid of `m` over a step of `i`. -/
inductive PidStep (k k' : Kernel) (m : Slot) (e : Event) : Prop
  | same (old : e ≠ .alloc m) (eq : (k' m).pid = (k m).pid)
  | made (was : (k m).state = .unused) (ev : e = .alloc m)
      (eq : (k' m).pid = k.nextpid)
  | cleared (now : (k' m).state = .unused)

theorem pid_act (a : Act k i e k') (m : Slot) : PidStep k k' m e := by
  obtain sec | writes := a.writes
  · exact .same (by rintro rfl; cases sec.event) (sec.quiet.life m).pid
  · obtain ⟨f, write, eq, -⟩ := writes m
    have pid : (k' m).pid = (f (k m)).pid := by rw [eq]
    cases write with
    | none away | mem _ away => exact .same (by rintro rfl; exact of_decide_eq_false away rfl) pid
    | found f un => exact .made un rfl pid
    | allocFail | reap => exact .cleared (by rw [eq]; rfl)
    | _ => exact .same nofun pid

theorem pid_step (s : LifeStep k i c e k') (m : Slot) : PidStep k k' m e := by
  cases s with
  | act go run a => exact pid_act a m
  | sched go s => exact .same nofun (s.frame Proc.pid m)

/-- Behind the panic of `kexit` the only way out is a new occupant. -/
theorem past_act (a : Act k i e k')
    (h : past (k i).point = true) : past (k' i).point = true := by
  have flow := a.flow
  generalize (k i).point = p at flow h
  generalize (k' i).point = q at flow ⊢
  cases flow with
  | sect _ before => cases p <;> first | (cases h; done) | cases before
  | hold hh =>
    cases hh with
    | wakeSelf chan w | wakeEnd chan _ w _ => cases w <;> first | (cases h; done) | rfl
    | _ => first | (cases h; done) | rfl
  | wake chan j w => cases w <;> first | (cases h; done) | rfl
  | _ => first | (cases h; done) | rfl

theorem past_step {q} (s : LifeStep k i c e k') (h : past (k q).point = true) :
    past (k' q).point = true ∨ takes q e = true := by
  by_cases hq : q = i
  · subst hq
    cases s with
    | act go run a => exact .inl (past_act a h)
    | sched go s => exact .inl ((s.at past q).trans h)
  · rcases point_step s hq with hp | ⟨-, ht, -⟩
    · rw [hp]; exact .inl h
    · exact .inr ht

/-- While `h` holds `wait_lock`, no step of another process gives anyone a new parent. -/
theorem parent_back {h j q} (hw : Wf k) (s : LifeStep k i c e k') (hi : h ≠ i)
    (holds : holdsWait (k h).point = true) (par : (k' j).parent = some q) :
    (k j).parent = some q := by
  have lock : k.waitLock = some h := (hw.holder h).2 holds
  have hpar := parent_step s j
  rw [par] at hpar
  generalize hq : some q = o at hpar
  cases hpar with
  | same => rfl
  | cleared => cases hq
  | linked _ _ _ free => rw [lock] at free; cases free
  | adopted _ pt =>
    have held : holdsWait (k i).point = true := by rw [pt]; rfl
    exact absurd (Option.some.inj (lock.symm.trans ((hw.holder i).2 held))) hi

/-- A process that had a parent before a step and has one after it keeps its pid. -/
theorem pid_kept {j q q'} (hw : Wf k) (hw' : Wf k') (s : LifeStep k i c e k')
    (par : (k j).parent = some q) (par' : (k' j).parent = some q') :
    (k' j).pid = (k j).pid := by
  cases pid_step s j with
  | same _ eq => exact eq
  | made was => exact absurd was (hw.occupied par)
  | cleared now => exact absurd now (hw'.occupied par')

end occupants

end OsProject.Xv6.Family
