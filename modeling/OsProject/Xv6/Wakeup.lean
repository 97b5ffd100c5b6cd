import OsProject.Xv6.Mailbox
import OsProject.Xv6.Pids

/-! # No lost wakeup

`kwait`, `kwaitpid` and `kipc_recv` sleep on the caller's own slot under
`wait_lock`. While some process sleeps there and what it waits for is already
the case, the holder of `wait_lock` is inside a `wakeup` that has still to
come by its slot. So with `wait_lock` free nobody oversleeps, provided that
`kwaitpid`, which stops at the first child with the pid it looks for, is never
confused by a second one. -/
namespace OsProject.Xv6.Wakeup
open Lib.Transition ProcTable Machine
open Lifecycle Table Family Mailbox
open Pids

/-- The call that a process sleeps in, from its release of `wait_lock` until it is woken. -/
def doze (p : Proc) : Option Call :=
  match p.point with
  | .asleep c => if p.state = .sleeping then some c else none
  | .sleepSwitch c => some c
  | _ => none

/-- What the call of process `i` waits for is the case. -/
def Due (k : Kernel) (i : Slot) : Call → Prop
  | .wait _ => ∃ j, (k j).parent = some i ∧ (k j).state = .zombie
  | .waitpid pid _ => ∃ j, (k j).parent = some i ∧ (k j).state = .zombie ∧ (k j).pid = pid
  | .recv _ _ => (k i).ipcReady = true

/-- What the holder `i` of `wait_lock` has found out or brought about so far. -/
def Knows (k : Kernel) (i : Slot) : Point → Prop
  | .waitScan _ n _ => ∀ j, j.val < n → (k j).parent = some i → (k j).state ≠ .zombie
  | .waitpidScan pid _ n => ∀ j, j.val < n → (k j).parent = some i → (k j).pid ≠ pid
  | .callKilled c | .sleepLock c | .sleepRelease c => ¬ Due k i c
  | .wakeup chan m w => (∀ q, chan = some q → q.val < m → doze (k q) = none) ∧
      ∀ status, w = .exit status → chan = (k i).parent
  | .exitZombie _ => ∀ q, (k i).parent = some q → doze (k q) = none
  | _ => True

structure Wakeups (k : Kernel) : Prop where
  due : ∀ q c, doze (k q) = some c → Due k q c →
    ∃ h m w, (k h).point = .wakeup (some q) m w ∧ m ≤ q.val
  knows : ∀ h, Knows k h (k h).point

theorem knows_free {k i pt} (h : holdsWait pt = false) : Knows k i pt := by
  cases pt <;> trivial

section steps
variable {k k' : Kernel} {i : Slot} {c : Choice} {e : Event}

/-! ## What steps do to sleepers and to what they wait for -/

theorem doze_point {p c} (h : doze p = some c) :
    (p.point = .asleep c ∧ p.state = .sleeping) ∨ p.point = .sleepSwitch c := by
  unfold doze at h
  split at h
  · split at h
    · cases h
      exact .inl ⟨‹_›, ‹_›⟩
    · cases h
  · cases h
    exact .inr ‹_›
  · cases h

theorem doze_frame {p p' c} (pt : p'.point = p.point)
    (st : p'.state = .sleeping → p.state = .sleeping) (h : doze p' = some c) : doze p = some c := by
  unfold doze
  rcases doze_point h with ⟨hp, hs⟩ | hp <;> rw [pt] at hp <;> rw [hp]
  exact if_pos (st hs)

/-- Nobody puts another process to sleep. -/
theorem sleeping_act {m} (a : Act k i e k') (hm : m ≠ i)
    (h : (k' m).state = .sleeping) : (k m).state = .sleeping := by
  obtain sec | writes := a.writes
  · rwa [(sec.quiet.life m).state] at h
  · obtain ⟨f, write, -, others⟩ := writes m
    rw [others hm] at h
    cases write with
    | found | allocFail | ready | zombie | reap => cases h
    | wake st => exact st
    | kill =>
      unfold Machine.kill at h
      split at h
      · cases h
      · exact h
    | sleep self => exact absurd self hm
    | _ => exact h

/-- A process falls asleep only in its own `sleep`. -/
theorem doze_act {call} (a : Act k i e k') (h : doze (k' i) = some call) :
    doze (k i) = some call ∨ (k i).point = .sleepRelease call := by
  have flow := a.flow
  generalize hp : (k i).point = p at flow
  rcases doze_point h with ⟨pt, -⟩ | pt
  · rw [pt] at flow
    cases flow with
    | sect _ _ after => cases after
    | hold hh => cases (hold_wait hh).2
    | enter c eq => cases c <;> cases eq
    | sleepSwitch => exact .inl (by unfold doze; rw [hp])
  · rw [pt] at flow
    cases flow with
    | sect _ _ after => cases after
    | hold hh => cases (hold_wait hh).2
    | enter c eq => cases c <;> cases eq
    | sleepRelease => exact .inr rfl

theorem doze_step {m call} (s : LifeStep k i c e k') (h : doze (k' m) = some call) :
    doze (k m) = some call ∨ (m = i ∧ (k i).point = .sleepRelease call) := by
  by_cases hm : m = i
  · subst hm
    cases s with
    | act go run a => exact (doze_act a h).imp id fun pt => ⟨rfl, pt⟩
    | sched go s =>
      left
      have back : (k' m).point = .sleepSwitch call → (k m).point = .sleepSwitch call :=
        (s.at (· = .sleepSwitch call) m).mp
      cases s with
      | yield run pt =>
        rcases doze_point h with ⟨-, st⟩ | hp
        · rw [upd_self] at st; cases st
        · rw [back hp] at pt
          cases pt
      | dispatch hart st lock idle =>
        rcases doze_point h with ⟨-, st⟩ | hp
        · rw [upd_self] at st; cases st
        · unfold doze; rw [back hp]
      | rouse n ch st => exact doze_frame (by rw [upd_self]) (fun _ => st) h
  · left
    have pt : (k' m).point = (k m).point := by
      rcases point_step s hm with pt | ⟨-, -, pt⟩
      · exact pt
      · rcases doze_point h with ⟨hp, -⟩ | hp <;> rw [pt] at hp <;> cases hp
    refine doze_frame pt (fun st => ?_) h
    cases s with
    | act go run a => exact sleeping_act a hm st
    | sched go s => cases s <;> rwa [upd_ne hm] at st

/-- Why what `q` waits for is the case after a step of `i`. -/
inductive DueStep (k k' : Kernel) (i q : Slot) (call : Call) : Prop
  | old (h : Due k q call)
  | died (status : Int32) (pt : (k i).point = .exitZombie status)
      (par : (k i).parent = some q)
  | wakes (w : Wake) (pt : ∀ call, (k i).point ≠ .sleepRelease call)
      (pt' : (k' i).point = .wakeup (some q) 0 w)

/-- A zombie child has died just now, was handed to init just now, or is an old one. -/
theorem zombie_step {j q} (hw : Wf k) (s : LifeStep k i c e k')
    (par : (k' j).parent = some q) (dead : (k' j).state = .zombie) :
    ((k j).parent = some q ∧ (k j).state = .zombie ∧ (k' j).pid = (k j).pid) ∨
      (∃ status, (k i).point = .exitZombie status ∧ (k i).parent = some q) ∨
      ∃ status n, (k i).point = .exitReparent status n ∧
        (k' i).point = .wakeup (some q) 0 (.reparent status n) := by
  have hpar := parent_step s j
  rw [par] at hpar
  have old : (k j).state = .zombie ∨
      j = i ∧ ∃ status, (k i).point = .exitZombie status := by
    cases phase_step hw.shape s j with
    | same ph => exact .inl (phase_zombie.1 (ph.symm.trans (phase_zombie.2 dead)))
    | died status self pt => exact .inr ⟨self, status, pt⟩
    | made _ st | readied _ _ _ st | dropped _ _ _ st | freed _ _ _ _ st =>
      rw [dead] at st; cases st
  generalize hq : some q = o at hpar
  rcases old with old | ⟨rfl, status, pt⟩
  · cases hpar with
    | same =>
      refine .inl ⟨rfl, old, ?_⟩
      cases pid_step s j with
      | same _ eq => exact eq
      | made was => rw [old] at was; cases was
      | cleared now => rw [dead] at now; cases now
    | cleared => cases hq
    | linked pid pt => rw [(hw.links.linking pt).1] at old; cases old
    | adopted status pt pt' => cases hq; exact .inr (.inr ⟨status, _, pt, pt'⟩)
  · cases hpar with
    | same => exact .inr (.inl ⟨status, pt, rfl⟩)
    | cleared => cases hq
    | linked _ pt0 | adopted _ pt0 => rw [pt] at pt0; cases pt0

theorem due_step {q call} (hw : Wf k) (s : LifeStep k i c e k')
    (h : Due k' q call) : DueStep k k' i q call := by
  have child : ∀ {j}, (k' j).parent = some q → (k' j).state = .zombie →
      ((k j).parent = some q → (k j).state = .zombie →
        (k' j).pid = (k j).pid → Due k q call) → DueStep k k' i q call := by
    intro j par dead due
    rcases zombie_step hw s par dead with ⟨par, dead, pid⟩ | ⟨status, pt, par⟩ |
      ⟨status, n, pt, pt'⟩
    · exact .old (due par dead pid)
    · exact .died status pt par
    · exact .wakes _ (by rw [pt]; simp) pt'
  cases call with
  | wait addr =>
    obtain ⟨j, par, dead⟩ := h
    exact child par dead fun par dead _ => ⟨j, par, dead⟩
  | waitpid pid addr =>
    obtain ⟨j, par, dead, rfl⟩ := h
    exact child par dead fun par dead pid => ⟨j, par, dead, pid.symm⟩
  | recv dst n =>
    have ready : (k' q).ipcReady = true := h
    cases mail_step s q with
    | same _ _ eq | found _ _ eq => exact .old ((congrArg Prod.fst eq).symm.trans ready)
    | reset _ _ drained | freed _ _ _ _ drained => exact .old (drained.ready ready)
    | took _ _ _ _ _ eq => cases ready.symm.trans (congrArg Prod.fst eq)
    | put pid msg m ev pt pt' => exact .wakes _ (by rw [pt]; simp) pt'

/-- `wakeup` leaves nobody asleep on the channel: a process on its way to sleep
still holds its lock. -/
theorem woken_doze {q p} (h : Shape q p) (lock : p.locked = false) :
    doze (Machine.wake (some q) p) = none := by
  cases hd : doze (Machine.wake (some q) p) with
  | none => rfl
  | some call =>
    exfalso
    have pt : (Machine.wake (some q) p).point = p.point := by unfold Machine.wake; split <;> rfl
    rcases doze_point hd with ⟨hp, st⟩ | hp <;> rw [pt] at hp
    · unfold Machine.wake at st
      split at st
      · cases st
      · rename_i skip
        cases h with
        | asleep _ _ _ _ _ chan => exact skip ⟨st, chan⟩
        | napping _ _ _ _ pt0 => rw [hp] at pt0; cases pt0
        | unused st0 | used st0 | ready st0 | running st0 | leaving st0 | zombie st0 =>
          rw [st] at st0; cases st0
    · cases h with
      | running _ _ held => rw [held, hp] at lock; cases lock
      | _ => simp_all [Point.preemptible]

/-- The sections that a `wakeup` loop consists of. -/
theorem wakeup_act {chan m w} (a : Act k i e k') (pt : (k i).point = .wakeup chan m w) :
    (∃ j : Slot, m = j.val ∧ j ≠ i ∧ (k j).locked = false ∧
      k' = (k.upd j (Machine.wake chan)).goto i (.wakeup chan (j.val + 1) w)) ∨
    (m = i.val ∧ k' = k.goto i (.wakeup chan (i.val + 1) w)) ∨
    (nproc ≤ m ∧ k' = k.goto i (Wake.next w)) := by
  have flow := a.flow
  rw [pt] at flow
  generalize (k' i).point = q at flow
  cases flow with
  | sect _ before => cases before
  | hold hh eq =>
    cases hh with
    | wakeSelf => exact .inr (.inl ⟨rfl, eq⟩)
    | wakeEnd _ _ _ last => exact .inr (.inr ⟨last, eq⟩)
  | wake _ j _ ne lock eq => exact .inl ⟨j, rfl, ne, lock, eq⟩

/-- A `wakeup` that has still to come by a sleeper has so after a step of its own, too. -/
theorem waker_step {q m w call} (hw : Wf k)
    (s : LifeStep k i c e k') (pt : (k i).point = .wakeup (some q) m w) (le : m ≤ q.val)
    (doze' : doze (k' q) = some call) :
    ∃ m w, (k' i).point = .wakeup (some q) m w ∧ m ≤ q.val := by
  cases s with
  | act go run a =>
    rcases wakeup_act a pt with ⟨j, rfl, ne, lock, rfl⟩ | ⟨rfl, rfl⟩ | ⟨last, -⟩
    · refine ⟨_, _, goto_point, ?_⟩
      by_cases hj : j = q
      · subst hj
        rw [goto_ne ne, upd_self, woken_doze (hw.shape j) lock] at doze'
        cases doze'
      · have : j.val ≠ q.val := fun h => hj (Fin.ext h)
        omega
    · refine ⟨_, _, goto_point, ?_⟩
      -- the process inside `wakeup` does not sleep
      have hi : i ≠ q := by
        rintro rfl
        rw [goto_self] at doze'
        cases doze'
      have : i.val ≠ q.val := fun h => hi (Fin.ext h)
      omega
    · omega
  | sched go s => exact ⟨m, w, (s.at (· = .wakeup (some q) m w) i).mpr pt, le⟩

theorem wakeups_due (hw : Wf k) (h : Wakeups k) (s : LifeStep k i c e k') {q call}
    (doze' : doze (k' q) = some call) (due' : Due k' q call) :
    ∃ h m w, (k' h).point = .wakeup (some q) m w ∧ m ≤ q.val := by
  rcases doze_step s doze' with asleep | ⟨rfl, pt⟩
  · cases due_step hw s due' with
    | old due =>
      obtain ⟨w', m, w, pt, le⟩ := h.due q call asleep due
      by_cases hi : w' = i
      · subst hi
        exact ⟨w', waker_step hw s pt le doze'⟩
      · rcases point_step s hi with same | ⟨un, -, -⟩
        · exact ⟨w', m, w, same.trans pt, le⟩
        · rcases ((hw.shape w').unused_inv un).2.2.1 with hp | hp <;> rw [pt] at hp <;> cases hp
    | died status pt par =>
      have knows := h.knows i
      rw [pt] at knows
      rw [knows q par] at asleep
      cases asleep
    | wakes w pt pt' => exact ⟨i, 0, w, pt', Nat.zero_le _⟩
  · -- it goes to sleep only after it has found nothing
    cases due_step hw s due' with
    | old due =>
      have knows := h.knows q
      rw [pt] at knows
      exact absurd due knows
    | died status pt0 => rw [pt] at pt0; cases pt0
    | wakes w pt0 => exact absurd pt (pt0 call)

/-- What the holder of `wait_lock` knows outlives the steps of the others. -/
theorem knows_other (hw : Wf k) (hw' : Wf k') (s : LifeStep k i c e k') {h} (hi : h ≠ i)
    (holds : holdsWait (k h).point = true) (pt : (k' h).point = (k h).point)
    (knows : Knows k h (k h).point) : Knows k' h (k' h).point := by
  have lock : k.waitLock = some h := (hw.holder h).2 holds
  -- the actor is outside the sections of `wait_lock`, before the step and after it
  have out : ∀ {q : Point}, (k i).point = q → holdsWait q = true → False := by
    rintro q rfl hq
    exact hi (Option.some.inj (lock.symm.trans ((hw.holder i).2 hq)))
  have out' : ∀ {q : Point}, (k' i).point = q → holdsWait q = true → False := by
    rintro q rfl hq
    have lock' : k'.waitLock = some h := (hw'.holder h).2 (by rw [pt]; exact holds)
    exact hi (Option.some.inj (lock'.symm.trans ((hw'.holder i).2 hq)))
  have parent : ∀ j q, (k' j).parent = some q → (k j).parent = some q :=
    fun j q => parent_back hw s hi holds
  have pid : ∀ j q, (k' j).parent = some q → (k' j).pid = (k j).pid :=
    fun j q par => pid_kept hw hw' s (parent j q par) par
  have zombie : ∀ j q, (k' j).parent = some q → (k' j).state = .zombie →
      (k j).state = .zombie := by
    intro j q par dead
    rcases zombie_step hw s par dead with ⟨-, old, -⟩ | ⟨_, pt0, -⟩ | ⟨_, _, pt0, -⟩
    · exact old
    · exact (out pt0 rfl).elim
    · exact (out pt0 rfl).elim
  have due : ∀ call, Due k' h call → Due k h call := by
    intro call due'
    cases due_step hw s due' with
    | old due => exact due
    | died _ pt0 => exact (out pt0 rfl).elim
    | wakes _ _ pt' => exact (out' pt' rfl).elim
  have awake : ∀ q, doze (k q) = none → doze (k' q) = none := by
    intro q none
    cases hd : doze (k' q) with
    | none => rfl
    | some call =>
      rcases doze_step s hd with asleep | ⟨-, pt0⟩
      · rw [none] at asleep; cases asleep
      · exact (out pt0 rfl).elim
  have kept : (k h).state ≠ .zombie → (k' h).parent = (k h).parent := by
    intro live
    have hpar := parent_step s h
    generalize (k' h).parent = o at hpar
    cases hpar with
    | same => rfl
    | cleared was =>
      rcases was with dead | ⟨making, -⟩
      · exact absurd dead live
      · rw [((hw.shape h).used_inv (hw.links.making i h making).1).2] at holds
        cases holds
    | linked _ _ _ free => rw [lock] at free; cases free
    | adopted _ pt0 => exact (out pt0 rfl).elim
  have live : (k h).point ≠ .exitUnlock → (k h).state ≠ .zombie := by
    intro ne dead
    cases hw.shape h with
    | leaving _ _ _ hp =>
      rcases hp with hp | hp
      · exact ne hp
      · rw [hp] at holds; cases holds
    | zombie _ _ _ hp => rw [hp] at holds; cases holds
    | unused st | used st | asleep _ st | napping _ st | ready st | running st =>
      rw [dead] at st; cases st
  rw [pt]
  generalize (k h).point = q at knows live
  cases q with
  | waitScan addr n kids =>
    exact fun j hj par dead => knows j hj (parent j h par) (zombie j h par dead)
  | waitpidScan p addr n =>
    exact fun j hj par => by rw [pid j h par]; exact knows j hj (parent j h par)
  | callKilled call | sleepLock call | sleepRelease call => exact fun due' => knows (due _ due')
  | wakeup chan m w =>
    refine ⟨fun q hc hq => awake q (knows.1 q hc hq), fun status hs => ?_⟩
    rw [kept (live nofun)]
    exact knows.2 status hs
  | exitZombie status =>
    intro q par
    rw [kept (live nofun)] at par
    exact awake q (knows q par)
  | _ => trivial

/-- The fields that decide what is due. -/
def kin (p : Proc) : Option Slot × ProcState × Int32 × Bool :=
  (p.parent, p.state, p.pid, p.ipcReady)

theorem due_congr {q call} (h : ∀ m, kin (k' m) = kin (k m)) : Due k' q call ↔ Due k q call := by
  simp only [kin, Prod.mk.injEq] at h
  cases call <;> simp only [Due, h]

theorem due_goto {q pt call} : Due (k.goto i pt) q call ↔ Due k q call :=
  due_congr fun _ => upd_frame kin rfl

/-- What the holder of `wait_lock` learns from a section that only moves it on. -/
theorem knows_hold {pt pt'} (hw : Wf k) (distinct : Distinct k) (h : Hold k i pt pt')
    (hpt : (k i).point = pt) (knows : Knows k i pt) : Knows (k.goto i pt') i pt' := by
  have upto : ∀ {P : Slot → Prop} {j : Slot}, (∀ m, m.val < j.val → P m) → P j →
      ∀ m, m.val < j.val + 1 → P m := by
    intro P j old new m hm
    rcases Nat.lt_succ_iff_lt_or_eq.1 hm with lt | eq
    · exact old m lt
    · rw [Fin.ext eq]; exact new
  cases h with
  | waitOther addr j kids par =>
    refine upto (fun m hm => ?_) ?_ <;> rw [goto_parent, goto_state]
    · exact knows m hm
    · exact fun par' => absurd par' par
  | waitLive addr j kids par live =>
    refine upto (fun m hm => ?_) ?_ <;> rw [goto_parent, goto_state]
    · exact knows m hm
    · exact fun _ => live
  | waitEnd addr n last =>
    show ¬ Due (k.goto i (.callKilled (.wait addr))) i (.wait addr)
    rw [due_goto]
    rintro ⟨j, par, dead⟩
    exact knows j (lt_of_lt_of_le j.isLt last) par dead
  | pidOther pid addr j other =>
    refine upto (fun m hm => ?_) ?_ <;> rw [goto_parent, goto_pid]
    · exact knows m hm
    · exact fun par same => other ⟨par, same⟩
  | pidLive pid addr j par same live =>
    show ¬ Due (k.goto i (.callKilled (.waitpid pid addr))) i (.waitpid pid addr)
    rw [due_goto]
    rintro ⟨m, par', dead, rfl⟩
    -- the child it has stopped at is the only one with this pid
    obtain rfl := distinct j m (hw.occupied par) (hw.occupied par') same
    exact live dead
  | recvEmpty dst n empty =>
    show ¬ Due (k.goto i (.callKilled (.recv dst n))) i (.recv dst n)
    rw [due_goto]
    intro ready
    rw [show (k i).ipcReady = true from ready] at empty
    cases empty
  | sleeps call =>
    show ¬ Due (k.goto i (.sleepLock call)) i call
    rw [due_goto]
    exact knows
  | reparentEnd status n last => exact ⟨fun _ _ hq => absurd hq (Nat.not_lt_zero _), by simp⟩
  | wakeSelf chan w =>
    refine ⟨fun q hc hq => ?_, by simpa using knows.2⟩
    by_cases hi : q = i
    · subst hi; rw [goto_self]; rfl
    · rw [goto_ne hi]
      have : q.val ≠ i.val := fun h => hi (Fin.ext h)
      exact knows.1 q hc (by omega)
  | wakeEnd chan n w last =>
    cases w with
    | exit status =>
      intro q par
      rw [goto_parent, ← knows.2 status rfl] at par
      by_cases hi : q = i
      · subst hi; rw [goto_self]; rfl
      · rw [goto_ne hi]
        exact knows.1 q par (lt_of_lt_of_le q.isLt last)
    | reparent | send => trivial
  | reparentSkip | waitNone | pidNone | killed | sendOther | sendNone | childOther | childFound =>
    trivial

theorem knows_act (hw : Wf k) (distinct : Distinct k) (knows : Knows k i (k i).point)
    (a : Act k i e k') : Knows k' i (k' i).point := by
  have free : ∀ {pt : Point}, (k' i).point = pt → holdsWait pt = false →
      Knows k' i (k' i).point := fun hp hf => knows_free (by rw [hp]; exact hf)
  cases a with
  | hold hh => rw [goto_point]; exact knows_hold hw distinct hh rfl knows
  | wake chan j w pt ne lock =>
    rw [pt] at knows
    rw [goto_point]
    refine ⟨fun q hc hq => ?_, fun status hs => ?_⟩
    · by_cases hi : q = i
      · subst hi; rw [goto_self]; rfl
      rw [goto_ne hi]
      by_cases hj : q = j
      · subst hj hc
        rw [upd_self]
        exact woken_doze (hw.shape q) lock
      · rw [upd_ne hj]
        have : q.val ≠ j.val := fun h => hj (Fin.ext h)
        exact knows.1 q hc (by omega)
    · rw [goto_parent, upd_ne ne.symm]
      exact knows.2 status hs
  | sleepLock call pt =>
    rw [pt] at knows
    rw [upd_self]
    exact (due_congr fun _ => upd_frame kin rfl).not.2 knows
  | enter call pt lock =>
    rw [goto_point]
    cases call with
    | recv => trivial
    | wait | waitpid => exact fun _ hj => absurd hj (Nat.not_lt_zero _)
  | adopt | sent =>
    rw [goto_point]
    exact ⟨fun _ _ hq => absurd hq (Nat.not_lt_zero _), by simp⟩
  | sect sec => exact knows_free (holdsWait_of_quiet sec.quiet.after)
  | exitLock | sendLock | reapFail | reap | recvFail | childLock => rw [goto_point]; trivial
  | zombie | received => rw [upd_self]; trivial
  | found | clearReady | clearLen | made | link | ready | load | exitLoad | exitSkip | exitStore
  | exitUnlock | sleepRelease | childUnlock => exact free goto_point rfl
  | allocFail | store | unlock | kill => exact free ret_point rfl
  | exitClose | exitSched | sleepSwitch | nap => exact free (congrArg Proc.point upd_self) rfl

theorem wakeups_step (hw : Wf k) (hw' : Wf k') (distinct : Distinct k) (h : Wakeups k)
    (s : LifeStep k i c e k') : Wakeups k' := by
  refine ⟨fun q call => wakeups_due hw h s, fun m => ?_⟩
  cases held : holdsWait (k' m).point with
  | false => exact knows_free held
  | true =>
    by_cases hm : m = i
    · subst hm
      cases s with
      | act go run a => exact knows_act hw distinct (h.knows m) a
      | sched go s => rw [(sched_wait (hw.shape m) s).2] at held; cases held
    · rcases point_step s hm with pt | ⟨-, -, pt⟩
      · exact knows_other hw hw' s hm (by rw [← pt]; exact held) pt (h.knows m)
      · rw [pt] at held; cases held

end steps

/-! ## Whole runs -/

theorem boot_wakeups (b : Boot) : Wakeups (boot b) := by
  refine ⟨fun q c hd => ?_, fun m => knows_free ?_⟩
  · rcases doze_point hd with ⟨hp, -⟩ | hp <;> rcases boot_point b q with h | h <;>
      rw [h] at hp <;> cases hp
  · rcases boot_point b m with h | h <;> rw [h] <;> rfl

theorem run_wakeups {b t k} (h : Run (When Step FreshPid) (boot b) t k) : Wakeups k := by
  refine (h.keeps (I := fun k => Wf k ∧ Distinct k ∧ Wakeups k)
    ⟨wf_boot b, boot_distinct b, boot_wakeups b⟩ ?_).2.2
  rintro k ⟨i, c, e⟩ k' ⟨wf, distinct, wakeups⟩ ⟨s, fresh⟩
  have wf' := wf_step wf s
  have life := step_life s
  exact ⟨wf', distinct_step wf distinct life fresh, wakeups_step wf wf' distinct wakeups life⟩

/-- Asleep in kwaitpid for this pid. -/
def waitsFor (pid : Int32) : Point → Bool
  | .asleep (.waitpid pid' _) => pid' = pid
  | _ => false

theorem waitsFor_inv {pid pt} (h : waitsFor pid pt = true) :
    ∃ addr, pt = .asleep (.waitpid pid addr) := by
  unfold waitsFor at h
  split at h
  · obtain rfl := of_decide_eq_true h
    exact ⟨_, rfl⟩
  · cases h

end OsProject.Xv6.Wakeup
