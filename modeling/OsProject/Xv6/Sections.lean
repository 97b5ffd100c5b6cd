import OsProject.Xv6.PidCalls
import OsProject.Xv6.SignalScan

/-! # Threads and their sections

`wait_lock` is held across several sections, and a process that goes to sleep
or exits keeps its own `p->lock` across some: while a thread has to wait for
one of them, some holder of one can go on. And the code that `PidCalls`
and `SignalScan` have as one function is what its sections do when no other
process comes in between. -/
namespace OsProject.Xv6.Sections
open Lib.Transition ProcTable Machine
open Lifecycle Table Family PidCalls SignalScan

variable {k k' : Kernel} {i j : Slot}

/-! ## No deadlock -/

/-- The thread of `i` has a section to run. -/
def Enabled (k : Kernel) (i : Slot) : Prop := ∃ c, scheduling c = false ∧ (step k i c).isSome

/-- It has come to the panic `init exiting`. -/
def Panics (k : Kernel) (i : Slot) : Prop :=
  i = initproc ∧ ∃ status, (k i).point = .exitClose status

/-- A process has `wait_lock`, its own lock, or that of the child it is making. -/
def Holds (k : Kernel) (i : Slot) : Prop :=
  k.waitLock = some i ∨ (k i).locked = true ∧ (k i).state ≠ .used ∨
    ∃ j, building (k i).point = some j

/-- A process that is on no hart has no lock; that of a new one is its maker's. -/
theorem off_hart {p} (h : Shape i p) (off : p.cpu = none) :
    holdsWait p.point = false ∧ building p.point = none ∧ (p.locked = true → p.state = .used) := by
  cases h with
  | running _ cpu | leaving _ cpu => exact absurd off cpu
  | used st _ pt => rw [pt]; exact ⟨rfl, rfl, fun _ => st⟩
  | unused _ _ lock pt =>
    rw [lock]
    rcases pt with pt | pt <;> rw [pt] <;> exact ⟨rfl, rfl, nofun⟩
  | asleep _ _ _ lock pt | napping _ _ _ lock pt | zombie _ _ lock pt =>
    rw [lock, pt]
    exact ⟨rfl, rfl, nofun⟩
  | ready _ _ lock pt =>
    rw [lock]
    rcases pt with pt | ⟨c, pt⟩ | pt
    · refine ⟨holdsWait_of_preemptible pt, ?_, nofun⟩
      generalize p.point = q at pt
      cases q <;> first | rfl | cases pt
    · rw [pt]; exact ⟨rfl, rfl, nofun⟩
    · rw [pt]; exact ⟨rfl, rfl, nofun⟩

/-- A process inside `allocproc` needs no other lock. -/
theorem building_enabled (h : Shape i (k i)) (b : building (k i).point = some j) : Enabled k i := by
  have on : (k i).cpu ≠ none := fun off => by
    rw [(off_hart h off).2.1] at b
    cases b
  refine ⟨.alloc .ok, rfl, ?_⟩
  rw [step_section on rfl]
  generalize (k i).point = pt at b
  cases pt <;> first | rfl | cases b

/-- The holder of a process lock needs no other lock. -/
theorem locked_enabled (wf : Wf k) (lock : (k i).locked = true) : ∃ m, Holds k m ∧ Enabled k m := by
  by_cases used : (k i).state = .used
  · obtain ⟨m, b⟩ := (wf.guarded i used).1 lock
    exact ⟨m, .inr (.inr ⟨i, b⟩), building_enabled (wf.shape m) b⟩
  · have on : (k i).cpu ≠ none := fun off => used ((off_hart (wf.shape i) off).2.2 lock)
    refine ⟨i, .inr (.inl ⟨lock, used⟩), .go, rfl, ?_⟩
    rw [(wf.shape i).locked_eq on] at lock
    rw [step_section on rfl]
    generalize (k i).point = pt at lock
    cases pt <;> first | rfl | cases lock

/-- Where no process lock is held, a section waits for `wait_lock`, or panics, or can be run. -/
theorem section_enabled {pt} (on : (k i).cpu ≠ none) (act : active pt = true)
    (calm : ∀ status, pt = .exitClose status → i ≠ initproc) (unlocked : ∀ j, ¬ (k j).locked = true)
    (free : k.waitLock = none ∨ holdsWait pt = true) :
    ∃ c, scheduling c = false ∧ (threadStep k i c pt).isSome := by
  cases pt with
  | dead | exitUnlock | exitSched | asleep | napping => cases act
  | user => exact ⟨.trap .interrupt, rfl, rfl⟩
  | other => exact ⟨.nap 0, rfl, rfl⟩
  | syscall =>
    by_cases exec : syscallOf (argint (k i).trapframe.user.a7) = .exec
    · exact ⟨.exec none, rfl, by simp [threadStep, syscallStep, exec]⟩
    · refine ⟨.page fun _ => true, rfl, ?_⟩
      simp only [threadStep, syscallStep]
      split <;> first | rfl | contradiction | (split <;> rfl)
  | allocReady | allocLen | allocRest => exact ⟨.alloc .ok, rfl, rfl⟩
  | exitClose status => exact ⟨.go, rfl, by simp [threadStep, exitCloseStep, calm status rfl]⟩
  | forkLink | exitLock | enter | sendLock | childLock =>
    refine ⟨.go, rfl, ?_⟩
    simp [threadStep, forkLinkStep, exitLockStep, enterStep, sendLockStep, childLockStep,
      free.resolve_right Bool.false_ne_true]
  | childCopy addr maxn pids n =>
    by_cases wide : addr ≠ 0 ∧ maxn < 0
    · exact ⟨.spill (fun _ => true) [], rfl, by simp [threadStep, childCopyStep, wide]⟩
    · refine ⟨.page fun _ => true, rfl, ?_⟩
      simp only [threadStep, childCopyStep]
      split
      · rfl
      · rw [if_neg fun neg => wide ⟨‹_›, neg⟩]
        split <;> rfl
  | _ =>
    refine ⟨.page fun _ => true, rfl, ?_⟩
    simp only [threadStep, tailStep, sigTestStep, sigScanStep, prepareStep, forkCheckStep,
      forkScanStep, forkReadyStep, exitLoadStep, exitReparentStep, wakeupStep, waitScanStep,
      waitpidScanStep, recvTestStep, callKilledStep, sendScanStep, killScanStep, sigsendScanStep,
      childScanStep, collect, unlocked]
    repeat' split
    all_goals first | rfl | contradiction

/-- In every history a thread on a hart can go on, or one that holds a lock
can, unless it is init at the panic of `kexit`. -/
theorem never_deadlocks {b : Boot} {t : List Label} (h : History b t k)
    (on : (k i).cpu ≠ none) (calm : ¬ Panics k i) :
    Enabled k i ∨ ∃ m, Holds k m ∧ Enabled k m := by
  have wf := history_wf h
  by_cases lock : ∃ m, (k m).locked = true
  · obtain ⟨m, lock⟩ := lock
    exact .inr (locked_enabled wf lock)
  have unlocked := not_exists.1 lock
  have goes {m} (run : (k m).cpu ≠ none) (safe : ¬ Panics k m)
      (free : k.waitLock = none ∨ holdsWait (k m).point = true) : Enabled k m := by
    have act : active (k m).point = true := by
      rw [← Bool.not_eq_false]
      intro idle
      have dead := (wf.shape m).leaving_inv run idle
      exact run ((wf.shape m).zombie_inv dead (Bool.eq_false_iff.2 (unlocked m))).1
    obtain ⟨c, go, sec⟩ :=
      section_enabled run act (fun status pt init => safe ⟨init, status, pt⟩) unlocked free
    exact ⟨c, go, by rwa [step_section run go]⟩
  cases held : k.waitLock with
  | none => exact .inl (goes on calm (.inl held))
  | some m =>
    have pt := (wf.holder m).1 held
    refine .inr ⟨m, .inl held, goes (fun off => ?_) ?_ (.inr pt)⟩
    · rw [(off_hart (wf.shape m) off).1] at pt
      cases pt
    · rintro ⟨-, status, eq⟩
      rw [eq] at pt
      cases pt

/-- init has `wait_lock` in `kwait` while its child has come to `kexit`. -/
theorem exit_waits_for_wait : ∃ t k, History bareBoot t k ∧ k.waitLock = some initproc ∧
    (Enabled k 1 ∨ ∃ m, Holds k m ∧ Enabled k m) := by
  obtain ⟨t, k, h, lock, on⟩ :=
    exec_reaches (b := bareBoot)
      (starts initproc 0 ++ forks initproc 1 ++ starts 1 1 ++ ecall 1 2 0 0 0 .go ++ goes 1 3 ++
      ecall initproc 3 0 0 0 .go ++ goes initproc 1)
    (P := fun _ k => k.waitLock = some initproc ∧ (k 1).cpu ≠ none) (by decide +kernel)
  exact ⟨t, k, h, lock, never_deadlocks h on fun panic => absurd panic.1 (by decide)⟩

/-! ## Calls without interruption -/

/-- Process `i` alone leads from one state of the kernel to another. -/
def Alone (i : Slot) (k k' : Kernel) : Prop := ∃ t, Run (When Step fun _ l => l.actor = i) k t k'

theorem Alone.trans {k''} (h : Alone i k k') (h' : Alone i k' k'') : Alone i k k'' := by
  obtain ⟨t, run⟩ := h
  obtain ⟨t', run'⟩ := h'
  exact ⟨t' ++ t, run.trans run'⟩

/-- The section at a control point. -/
theorem Alone.section {pt e} (on : (k i).cpu ≠ none)
    (sec : threadStep (k.goto i pt) i .go pt = some (k', e)) : Alone i (k.goto i pt) k' := by
  refine ⟨_, .single (e := ⟨i, .go, e⟩) ⟨?_, rfl⟩⟩
  rwa [Step, step_section (by rwa [goto_cpu]) rfl, goto_point]

theorem goto_upd_ret {pt f v}
    (keeps : f { k.proc i with point := pt } = { f (k i) with point := pt }) :
    ((k.goto i pt).upd j f).ret i v = (k.upd j f).ret i v := by
  refine Kernel.ext (funext fun m => ?_) rfl rfl rfl rfl
  by_cases self : m = i
  · subst self
    by_cases found : m = j
    · subst found
      simp [Kernel.ret, keeps]
    · simp [Kernel.ret, found]
  · simp [Kernel.ret, Kernel.goto, Kernel.upd, self]

/-- The sections of a loop that does `f` to the first slot with the pid. -/
def pidScan (k : Kernel) (i : Slot) (pid : Int32) (pt : Nat → Point) (f : Proc → Proc)
    (ev : Slot → Event) (n : Nat) : Option (Kernel × Event) :=
  match slotAt n with
  | none => some (k.ret i (ofInt (-1)), .tau)
  | some j =>
    if (k j).locked then none
    else if (k j).pid = pid then some ((k.upd j f).ret i 0, ev j)
    else some (k.goto i (pt (n + 1)), .tau)

section
variable (on : (k i).cpu ≠ none)
include on

/-- It goes on to the slot with the pid, or to the end of the table. -/
theorem pidScan_alone {pid f ev} {pt : Nat → Point} (free : ∀ j, (k j).locked = false)
    (keeps : ∀ p q, f { p with point := q } = { f p with point := q })
    (sec : ∀ n, threadStep (k.goto i (pt n)) i .go (pt n) =
      pidScan (k.goto i (pt n)) i pid pt f ev n) :
    Alone i (k.goto i (pt 0)) (match firstSlot fun j => (k j).pid = pid with
      | some j => (k.upd j f).ret i 0
      | none => k.ret i (ofInt (-1))) := by
  have scan (n : Nat) (le : n ≤ nproc) (fails : ∀ j : Slot, j.val < n → (k j).pid ≠ pid) :
      Alone i (k.goto i (pt 0)) (k.goto i (pt n)) := by
    induction n with
    | zero => exact ⟨[], .nil⟩
    | succ n ih =>
      refine (ih (Nat.le_of_succ_le le) fun j lt => fails j (Nat.lt_succ_of_lt lt)).trans ?_
      refine .section (e := .tau) on ((sec n).trans ?_)
      simp [pidScan, slotAt, Nat.lt_of_succ_le le, free, fails ⟨n, le⟩ (Nat.lt_succ_self n),
        goto_goto]
  cases found : firstSlot fun j => (k j).pid = pid with
  | none =>
    refine (scan nproc le_rfl fun m _ => of_decide_eq_false (firstSlot_none found m)).trans ?_
    refine .section (e := .tau) on ((sec nproc).trans ?_)
    simp [pidScan, slotAt, Kernel.ret, Kernel.goto, upd_upd]
  | some j =>
    obtain ⟨here, before⟩ := firstSlot_some found
    refine (scan j.val j.isLt.le fun m lt => of_decide_eq_false (before m lt)).trans ?_
    refine .section (e := ev j) on ((sec j.val).trans ?_)
    simp [pidScan, slotAt, free, of_decide_eq_true here, goto_upd_ret (keeps _ _)]

theorem signalLoop_alone {n rounds} (all : n + rounds = nsig) :
    Alone i (k.goto i (.sigScan n)) (k.upd i (signalLoop · n rounds)) := by
  induction rounds generalizing n with
  | zero =>
    refine .section (e := .tau) on ?_
    simp only [threadStep, sigScanStep, goto_goto]
    exact dif_neg (by omega)
  | succ rounds ih =>
    have hn : n < nsig := by omega
    by_cases due : Due (k i) ⟨n, hn⟩
    · have found : Alone i (k.goto i (.sigScan n)) (k.goto i (.sigLoad ⟨n, hn⟩)) := by
        refine .section (e := .sigbegin ⟨n, hn⟩) on ?_
        simp only [threadStep, sigScanStep, hn, dif_pos, goto_self, goto_goto]
        exact if_pos due
      have load : Alone i (k.goto i (.sigLoad ⟨n, hn⟩))
          (k.goto i (.sigStore ⟨n, hn⟩ (k i).pendingSignals)) := by
        refine .section (e := .tau) on ?_
        simp only [threadStep, goto_goto, goto_self]
      have same : k.upd i (signalLoop · n (rounds + 1)) = k.upd i fun p =>
        deliver ⟨n, hn⟩ p.pendingSignals p :=
        upd_congr ((signalLoop_succ hn).trans (if_pos due))
      refine (found.trans load).trans (.section (e := .deliver ⟨n, hn⟩ (k i).trapframe) on ?_)
      simp only [same, threadStep, Kernel.goto, upd_upd, upd_self]
      exact congrArg (fun k => some (k, _)) (upd_congr rfl)
    · have next : Alone i (k.goto i (.sigScan n)) (k.goto i (.sigScan (n + 1))) := by
        refine .section (e := .tau) on ?_
        simp only [threadStep, sigScanStep, hn, dif_pos, goto_self, goto_goto]
        exact if_neg due
      have same : k.upd i (signalLoop · n (rounds + 1)) = k.upd i (signalLoop · (n + 1) rounds) :=
        upd_congr ((signalLoop_succ hn).trans (if_neg due))
      exact same ▸ next.trans (ih (by omega))

theorem signalPass_alone : Alone i (k.goto i .sigTest) (k.upd i signalPass) := by
  by_cases masked : (k i).handlingSignal = true
  · have same : k.upd i signalPass = k.goto i .prepare := upd_congr (if_pos masked)
    rw [same]
    refine .section (e := .tau) on ?_
    simp only [threadStep, sigTestStep, goto_self, goto_goto]
    exact if_pos masked
  · have same : k.upd i signalPass = k.upd i (signalLoop · 0 nsig) := upd_congr (if_neg masked)
    have test : Alone i (k.goto i .sigTest) (k.goto i (.sigScan 0)) := by
      refine .section (e := .tau) on ?_
      simp only [threadStep, sigTestStep, goto_self, goto_goto]
      exact if_neg masked
    exact same ▸ test.trans (signalLoop_alone on (zero_add _))

/-- `kkill`, `ksigsend` and the signal delivery of `usertrap` up to `prepare_return`. -/
theorem calls_alone (free : ∀ j, (k j).locked = false) (pid : Int32) (s : Fin nsig) :
    Alone i (k.goto i (.killScan pid 0)) ((kkill k pid).2.ret i (ofInt (kkill k pid).1)) ∧
    Alone i (k.goto i (.sigsendScan pid s 0))
      ((ksigsend k pid s).2.ret i (ofInt (ksigsend k pid s).1)) ∧
    Alone i (k.goto i .sigTest) (k.upd i signalPass) := by
  have kills := pidScan_alone on free (fun _ _ => rfl) fun n =>
    (rfl : threadStep _ i .go (.killScan pid n) = _)
  have sends := pidScan_alone on free (fun _ _ => rfl) fun n =>
    (rfl : threadStep _ i .go (.sigsendScan pid s n) = _)
  unfold kkill ksigsend
  generalize (firstSlot fun j => (k j).pid = pid) = found at kills sends ⊢
  cases found with
  | none | some => exact ⟨kills, sends, signalPass_alone on⟩

end

/-- init on hart 0 kills itself. -/
theorem calls_alone_init : ∃ t k, History bareBoot t k ∧
    Alone initproc (k.goto initproc (.killScan 1 0))
      ((kkill k 1).2.ret initproc (ofInt (kkill k 1).1)) := by
  obtain ⟨t, k, h, on, free⟩ := exec_reaches (b := bareBoot) (starts initproc 0)
    (P := fun _ k => (k initproc).cpu ≠ none ∧ ∀ j, (k j).locked = false) (by decide +kernel)
  exact ⟨t, k, h, (calls_alone on free 1 ⟨0, by decide⟩).1⟩

end OsProject.Xv6.Sections
