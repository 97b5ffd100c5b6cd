import OsProject.Xv6.Family

/-! # Pids

`allocpid` counts in an `int` and does not look at the pids in use. As long as
it does not come upon one of them, no two processes have the same pid. But
every attempt of `allocproc` takes a number, also one that fails for lack of
memory: a process that keeps trying moves `nextpid` on by as much as it likes,
and changes nothing else. -/
namespace OsProject.Xv6.Pids
open Lib.Transition ProcTable Machine
open Lifecycle Table Family

/-- No two processes have the same pid. -/
def Distinct (k : Kernel) : Prop :=
  ∀ m m', (k m).state ≠ .unused → (k m').state ≠ .unused →
    (k m).pid = (k m').pid → m = m'

/-- A new process gets a pid that no other process has. -/
def FreshPid (k : Kernel) (l : Label) : Prop :=
  match l.event with
  | .alloc _ => ∀ m, (k m).state ≠ .unused → (k m).pid ≠ k.nextpid
  | _ => True

instance (k : Kernel) (l : Label) : Decidable (FreshPid k l) :=
  decidable_of_iff ((match l.event with
    | .alloc _ => decide (∀ m, (k m).state ≠ .unused → (k m).pid ≠ k.nextpid)
    | _ => true) = true) (by unfold FreshPid; split <;> simp)

theorem distinct_step {k k' i c e} (hw : Wf k) (h : Distinct k) (s : LifeStep k i c e k')
    (fresh : FreshPid k ⟨i, c, e⟩) : Distinct k' := by
  -- a process is an old one with its old pid, or the new one
  have was : ∀ m, (k' m).state ≠ .unused →
      ((k m).state ≠ .unused ∧ (k' m).pid = (k m).pid) ∨
        (e = .alloc m ∧ (k' m).pid = k.nextpid) := by
    intro m st
    cases pid_step s m with
    | same old eq => exact .inl ⟨(occupied_step hw s st).resolve_right old, eq⟩
    | made was ev eq => exact .inr ⟨ev, eq⟩
    | cleared now => exact absurd now st
  intro m m' st st' eq
  rcases was m st with ⟨old, pid⟩ | ⟨ev, pid⟩ <;> rcases was m' st' with ⟨old', pid'⟩ | ⟨ev', pid'⟩
  · exact h m m' old old' (by rw [← pid, ← pid', eq])
  · subst ev'
    exact absurd (by rw [← pid, ← pid', eq]) (fresh m old)
  · subst ev
    exact absurd (by rw [← pid, ← pid', eq]) (fresh m' old')
  · rw [ev] at ev'
    exact Event.alloc.inj ev'

theorem boot_distinct (b : Boot) : Distinct (boot b) := by
  have only : ∀ m, ((boot b).proc m).state ≠ .unused → m = initproc := by
    intro m st
    by_contra hm
    simp only [boot, hm, if_false] at st
    exact st rfl
  intro m m' st st' _
  rw [only m st, only m' st']

theorem run_distinct {b t k} (h : Run (When Step FreshPid) (boot b) t k) : Distinct k := by
  refine (h.keeps (I := fun k => Wf k ∧ Distinct k) ⟨wf_boot b, boot_distinct b⟩ ?_).2
  rintro k ⟨i, c, e⟩ k' ⟨wf, distinct⟩ ⟨s, fresh⟩
  exact ⟨wf_step wf s, distinct_step wf distinct (step_life s) fresh⟩

/-- Every process has a positive pid. -/
def Positive (k : Kernel) : Prop := ∀ m, (k m).state ≠ .unused → 0 < (k m).pid

/-- A new process gets a positive pid that no other process has. -/
def NewPid (k : Kernel) (l : Label) : Prop :=
  match l.event with
  | .alloc _ => 0 < k.nextpid ∧ ∀ m, (k m).state ≠ .unused → (k m).pid ≠ k.nextpid
  | _ => True

instance (k : Kernel) (l : Label) : Decidable (NewPid k l) :=
  decidable_of_iff ((match l.event with
    | .alloc _ => decide (0 < k.nextpid ∧
        ∀ m, (k m).state ≠ .unused → (k m).pid ≠ k.nextpid)
    | _ => true) = true) (by unfold NewPid; split <;> simp)

theorem NewPid.fresh {k l} (h : NewPid k l) : FreshPid k l := by
  unfold FreshPid
  unfold NewPid at h
  split at h
  · exact h.2
  · trivial

theorem positive_step {k k' i c e} (hw : Wf k)
    (h : Positive k) (s : LifeStep k i c e k') (new : NewPid k ⟨i, c, e⟩) : Positive k' := by
  intro m st
  cases pid_step s m with
  | same old eq => rw [eq]; exact h m ((occupied_step hw s st).resolve_right old)
  | made was ev eq =>
    subst ev
    rw [eq]
    exact new.1
  | cleared now => exact absurd now st

theorem boot_positive (b : Boot) : Positive (boot b) := by
  intro m st
  by_cases hm : m = initproc
  · simp only [boot, hm, if_true]
    show (0 : Int32) < 1
    decide
  · simp only [boot, hm, if_false] at st; exact absurd rfl st

/-- Process `i` is in user space on hart `h`, inside a handler, about to call
fork, and slot `j` is the first unused one. -/
structure Forker (k : Kernel) (i j : Slot) (h : Nat) (r : UserRegs) (pc : UInt64) : Prop where
  cpu : (k i).cpu = some h
  pt : (k i).point = .user r pc
  call : syscallOf (argint r.a7) = .fork
  alive : (k i).killed = false
  handling : (k i).handlingSignal = true
  room : (k i).forkCount < 10
  ne : i ≠ j
  busy : ∀ m : Slot, m.val < j.val → (k m).locked = false ∧ (k m).state ≠ .unused
  free : (k j).state = .unused
  lock : (k j).locked = false

/-- The slot after an `allocproc` that could not allocate a trapframe. -/
def dropped (pid : Int32) (np : Proc) : Proc := release (freeproc (allocReset (allocFound np pid)))

/-- The kernel after a fork of `i` for which no trapframe could be allocated,
with `i` about to try again. -/
def failed (k : Kernel) (i j : Slot) (h : Nat) (r : UserRegs) (pc : UInt64) : Kernel :=
  { (k.upd j (dropped k.nextpid)).upd i fun p =>
      { p with trapframe := ⟨k.satp h, kstackTop i, k.usertrap, pc + 4, UInt64.ofNat h,
        { r with a0 := ofInt (-1) }⟩ } with
    nextpid := k.nextpid + 1 }

section fork
variable {k k' : Kernel} {i j : Slot} {h : Nat} {r : UserRegs} {pc : UInt64}
    {c : Choice} {e : Event}

theorem thread_step (cpu : (k i).cpu = some h) (go : scheduling c = false)
    (s : threadStep k i c (k i).point = some (k', e)) : Step k ⟨i, c, e⟩ k' := by
  exact (step_section (by rw [cpu]; nofun) go).trans s

/-- `allocproc` passes over the slots in use. -/
theorem scan_run (cpu : (k i).cpu = some h)
    (busy : ∀ m : Slot, m.val < j.val → (k m).locked = false ∧ (k m).state ≠ .unused)
    (f : Fork) {n} (hn : n ≤ j.val) :
    ∃ t, Run Step (k.goto i (.forkScan f 0)) t (k.goto i (.forkScan f n)) := by
  induction n with
  | zero => exact ⟨[], .nil⟩
  | succ n ih =>
    obtain ⟨t, run⟩ := ih (by omega)
    have hlt : n < nproc := lt_trans hn j.isLt
    obtain ⟨lock, st⟩ := busy ⟨n, hlt⟩ hn
    refine ⟨⟨i, .go, .tau⟩ :: t, .cons run (thread_step (h := h) (by rw [goto_cpu, cpu]) rfl ?_)⟩
    rw [goto_point]
    simp only [threadStep, forkScanStep, slotAt, hlt, dif_pos, goto_locked, goto_state, lock, st,
      Bool.false_eq_true, if_false, goto_goto]

/-- `i` has trapped and is in the system call. -/
def trapped (k : Kernel) (i : Slot) (r : UserRegs) (pc : UInt64) : Kernel :=
  k.upd i fun p => { p with trapframe := { p.trapframe with user := r, epc := pc + 4 } }

theorem trapped_cpu : ((trapped k i r pc).proc i).cpu = (k i).cpu := by
  simp [trapped]

theorem trap_run (f : Forker k i j h r pc) :
    Run Step k [⟨i, .go, .tau⟩, ⟨i, .go, .tau⟩, ⟨i, .trap .syscall, .trap⟩]
      ((trapped k i r pc).goto i (.forkScan .fork 0)) := by
  have cpu : ((trapped k i r pc).proc i).cpu = some h := trapped_cpu.trans f.cpu
  have s1 : Step k ⟨i, .trap .syscall, .trap⟩ ((trapped k i r pc).goto i .syscall) := by
    refine thread_step f.cpu rfl ?_
    rw [f.pt, trapped, Kernel.goto, upd_upd]
    simp only [threadStep, userStep]
    congr 2
    refine upd_congr ?_
    simp only [trapEntry, f.alive, Bool.false_eq_true, if_false]
  have s2 : Step ((trapped k i r pc).goto i .syscall) ⟨i, .go, .tau⟩
      ((trapped k i r pc).goto i (.forkCheck .fork)) := by
    refine thread_step (by rw [goto_cpu, cpu]) rfl ?_
    have call : syscallOf (argint (((trapped k i r pc).goto i .syscall).proc i).trapframe.user.a7) =
        .fork := by
      rw [goto_self, trapped, upd_self]; exact f.call
    rw [goto_point]
    simp only [threadStep, syscallStep, call, goto_goto]
  have s3 : Step ((trapped k i r pc).goto i (.forkCheck .fork)) ⟨i, .go, .tau⟩
      ((trapped k i r pc).goto i (.forkScan .fork 0)) := by
    refine thread_step (by rw [goto_cpu, cpu]) rfl ?_
    have room : ¬ (((trapped k i r pc).goto i (.forkCheck .fork)).proc i).forkCount ≥ 10 := by
      rw [goto_forkCount, trapped, upd_self]; exact Int.not_le.2 f.room
    rw [goto_point]
    simp only [threadStep, forkCheckStep, room, if_false, goto_goto]
  exact .cons (.cons (.cons .nil s1) s2) s3

/-- `i` is back in `usertrap` after `allocproc` has failed at slot `j`. -/
def refused (k : Kernel) (i j : Slot) : Kernel :=
  ({ k with nextpid := k.nextpid + 1 }.upd j (dropped k.nextpid)).ret i (ofInt (-1))

variable (f : Forker k i j h r pc)
include f

/-- The sections of an `allocproc` that claims slot `j` and gets no trapframe. -/
theorem alloc_run : Run Step ((trapped k i r pc).goto i (.forkScan .fork j.val))
    [⟨i, .alloc .noTrapframe, .allocFail j⟩, ⟨i, .go, .reset j⟩, ⟨i, .go, .reset j⟩,
      ⟨i, .go, .alloc j⟩]
    (refused ((trapped k i r pc).goto i (.forkScan .fork j.val)) i j) := by
  have same : ((trapped k i r pc).goto i (.forkScan .fork j.val)).proc j = k.proc j := by
    rw [goto_ne f.ne.symm, trapped, upd_ne f.ne.symm]
  have cpu : (((trapped k i r pc).goto i (.forkScan .fork j.val)).proc i).cpu = some h := by
    rw [goto_cpu]
    exact trapped_cpu.trans f.cpu
  have pt : (((trapped k i r pc).goto i (.forkScan .fork j.val)).proc i).point =
      .forkScan .fork j.val := goto_point
  generalize (trapped k i r pc).goto i (.forkScan .fork j.val) = k0 at same cpu pt
  have inside : ∀ {k : Kernel} {g : Proc → Proc} {p : Point}, (k i).cpu = some h →
      (∀ q, (g q).cpu = q.cpu) → (((k.upd j g).goto i p).proc i).cpu = some h :=
    fun cpu same => by rw [goto_cpu, upd_frame Proc.cpu (same _), cpu]
  have s1 : Step k0 ⟨i, .go, .alloc j⟩ (({ k0 with nextpid := k0.nextpid + 1 }.upd j
      (allocFound · k0.nextpid)).goto i (.allocReady .fork j k0.nextpid)) := by
    refine thread_step cpu rfl ?_
    rw [pt]
    simp only [threadStep, forkScanStep, slotAt_val, same, f.lock, f.free, Bool.false_eq_true,
      if_false, if_true]
  have cpu1 := inside (k := { k0 with nextpid := k0.nextpid + 1 }) (g := (allocFound · k0.nextpid))
    (p := .allocReady .fork j k0.nextpid) cpu fun _ => rfl
  have s2 := thread_step (c := .go) cpu1 rfl (by rw [goto_point]; rfl)
  have cpu2 := inside (g := fun np => { np with ipcReady := false })
    (p := .allocLen .fork j k0.nextpid) cpu1 fun _ => rfl
  have s3 := thread_step (c := .go) cpu2 rfl (by rw [goto_point]; rfl)
  have cpu3 := inside (g := fun np => { np with ipcLen := 0 })
    (p := .allocRest .fork j k0.nextpid) cpu2 fun _ => rfl
  have s4 := thread_step (c := .alloc .noTrapframe) cpu3 rfl (by rw [goto_point]; rfl)
  convert Run.cons (.cons (.cons (.cons .nil s1) s2) s3) s4 using 1
  refine Kernel.ext (funext fun m => ?_) rfl rfl rfl rfl
  by_cases hi : m = i
  · subst hi
    simp [refused, Kernel.ret, Kernel.goto, f.ne]
  · by_cases hj : m = j
    · subst hj
      simp [refused, ret_ne hi, goto_ne hi]
      rfl
    · simp [refused, ret_ne hi, goto_ne hi, upd_ne hj]

theorem return_run :
    ∃ t, Run Step (refused ((trapped k i r pc).goto i (.forkScan .fork j.val)) i j) t
      (failed k i j h r pc) := by
  generalize hk : refused ((trapped k i r pc).goto i (.forkScan .fork j.val)) i j = k1
  have self : k1.proc i = { k.proc i with
      trapframe := { (k i).trapframe with user := { r with a0 := ofInt (-1) }, epc := pc + 4 }
      point := .tail } := by
    subst hk
    simp [refused, trapped, Kernel.ret, f.ne, Trapframe.setA0]
  have cpu : (k1 i).cpu = some h := by rw [self]; exact f.cpu
  have s1 : Step k1 ⟨i, .go, .tau⟩ (k1.goto i .sigTest) := by
    refine thread_step cpu rfl ?_
    have alive : (k1 i).killed = false := by rw [self]; exact f.alive
    rw [self]
    simp only [threadStep, tailStep, alive, Bool.false_eq_true, if_false]
  have s2 : Step (k1.goto i .sigTest) ⟨i, .go, .tau⟩ (k1.goto i .prepare) := by
    refine thread_step (by rw [goto_cpu, cpu]) rfl ?_
    have handling : ((k1.goto i .sigTest).proc i).handlingSignal = true := by
      rw [goto_self, self]; exact f.handling
    rw [goto_point]
    simp only [threadStep, sigTestStep, handling, if_true, goto_goto]
  have s3 : Step (k1.goto i .prepare) ⟨i, .go, .tau⟩
      ((k1.goto i .prepare).upd i (prepareReturn (k1.goto i .prepare) i h)) := by
    refine thread_step (by rw [goto_cpu, cpu]) rfl ?_
    rw [goto_point]
    simp only [threadStep, prepareStep, goto_cpu, cpu]
  have s4 : Step ((k1.goto i .prepare).upd i (prepareReturn (k1.goto i .prepare) i h))
      ⟨i, .run r pc [], .tau⟩ (failed k i j h r pc) := by
    refine thread_step (h := h) (by rw [upd_self]; simp [prepareReturn, cpu]) rfl ?_
    have own : k.proc i = { k.proc i with point := .user r pc } := by rw [← f.pt]
    rw [upd_self]
    simp only [threadStep, userStep, prepareReturn, List.foldl_nil, Option.some.injEq,
      Prod.mk.injEq, and_true, upd_upd, Kernel.goto]
    refine Kernel.ext (funext fun m => ?_) (by subst hk; rfl) (by subst hk; rfl)
      (by subst hk; rfl) (by subst hk; rfl)
    by_cases hi : m = i
    · subst hi
      rw [upd_self, self, failed]
      simp only [upd_self, upd_ne f.ne]
      rw [own]
      subst hk
      rfl
    · rw [upd_ne hi, failed]
      simp only [upd_ne hi]
      subst hk
      have other : ((trapped k i r pc).goto i (.forkScan .fork j.val)).proc m = k.proc m := by
        rw [goto_ne hi, trapped, upd_ne hi]
      rw [refused, ret_ne hi, upd_proc, upd_proc, other]
      rfl
  exact ⟨_, .cons (.cons (.cons (.cons .nil s1) s2) s3) s4⟩

/-- A fork that fails takes a pid and leaves everything else as it was. -/
theorem fails_run : ∃ t, Run Step k t (failed k i j h r pc) := by
  have busy : ∀ m : Slot, m.val < j.val → ((trapped k i r pc).proc m).locked = false ∧
      ((trapped k i r pc).proc m).state ≠ .unused := by
    intro m hm
    rw [trapped, upd_frame Proc.locked rfl, upd_frame Proc.state rfl]
    exact f.busy m hm
  obtain ⟨t2, r2⟩ := scan_run (trapped_cpu.trans f.cpu) busy .fork (le_refl j.val)
  obtain ⟨t3, r3⟩ := return_run f
  exact ⟨_, (((trap_run f).trans r2).trans (alloc_run f)).trans r3⟩

/-- It can be tried again, whatever the next pid is. -/
theorem Forker.again (n : Int32) : Forker { failed k i j h r pc with nextpid := n } i j h r pc := by
  have self : (failed k i j h r pc).proc i = { k.proc i with
      trapframe := ⟨k.satp h, kstackTop i, k.usertrap, pc + 4, UInt64.ofNat h,
        { r with a0 := ofInt (-1) }⟩ } := by
    simp only [failed, upd_self, upd_ne f.ne]
  have slot : (failed k i j h r pc).proc j = dropped k.nextpid (k j) := by
    simp only [failed, upd_ne f.ne.symm, upd_self]
  refine ⟨?_, ?_, f.call, ?_, ?_, ?_, f.ne, fun m hm => ?_, ?_, ?_⟩ <;> dsimp only
  · rw [self]; exact f.cpu
  · rw [self]; exact f.pt
  · rw [self]; exact f.alive
  · rw [self]; exact f.handling
  · rw [self]; exact f.room
  · have hj : m ≠ j := by rintro rfl; exact lt_irrefl _ hm
    have same : ((failed k i j h r pc).proc m).locked = (k m).locked ∧
        ((failed k i j h r pc).proc m).state = (k m).state := by
      dsimp only [failed]
      rw [upd_frame Proc.locked rfl, upd_frame Proc.state rfl,
        upd_ne hj]
      exact ⟨rfl, rfl⟩
    rw [same.1, same.2]
    exact f.busy m hm
  · rw [slot]; rfl
  · rw [slot]; rfl

theorem failed_failed (n : Int32) :
    failed { failed k i j h r pc with nextpid := n } i j h r pc =
      { failed k i j h r pc with nextpid := n + 1 } := by
  refine Kernel.ext (funext fun m => ?_) rfl rfl rfl rfl
  by_cases hi : m = i
  · subst hi
    simp only [failed, upd_self, upd_ne f.ne]
    rfl
  · by_cases hj : m = j
    · subst hj
      simp only [failed, upd_self, upd_ne hi]
      rfl
    · simp only [failed, upd_ne hi, upd_ne hj]

/-- By failing often enough, a process makes `nextpid` any `int` it likes. -/
theorem nextpid_run (n : Nat) :
    ∃ t, Run Step k t { failed k i j h r pc with nextpid := k.nextpid + 1 + Int32.ofNat n } := by
  induction n with
  | zero =>
    obtain ⟨t, run⟩ := fails_run f
    refine ⟨t, ?_⟩
    have : k.nextpid + 1 + Int32.ofNat 0 = k.nextpid + 1 := by simp
    rw [this]
    exact run
  | succ n ih =>
    obtain ⟨t, run⟩ := ih
    obtain ⟨t', run'⟩ := fails_run (f.again (k.nextpid + 1 + Int32.ofNat n))
    refine ⟨t' ++ t, run.trans ?_⟩
    rw [failed_failed f] at run'
    rw [Int32.ofNat_add, ← Int32.add_assoc]
    exact run'

end fork

/-! ## Concrete runs -/

/-- `Forker`, as a test. -/
def forker (k : Kernel) (i j : Slot) (h : Nat) (r : UserRegs) (pc : UInt64) : Bool :=
  (match (k i).point with
    | .user r' pc' => decide (r' = r ∧ pc' = pc)
    | _ => false) &&
  decide ((k i).cpu = some h ∧ syscallOf (argint r.a7) = .fork ∧ (k i).killed = false ∧
    (k i).handlingSignal = true ∧ (k i).forkCount < 10 ∧ i ≠ j ∧
    (∀ m : Slot, m.val < j.val → (k m).locked = false ∧ (k m).state ≠ .unused) ∧
    (k j).state = .unused ∧ (k j).locked = false)

theorem forker_sound {k i j h r pc} (hf : forker k i j h r pc = true) : Forker k i j h r pc := by
  rw [forker, Bool.and_eq_true, decide_eq_true_eq] at hf
  obtain ⟨at_user, cpu, call, alive, handling, room, ne, busy, free, lock⟩ := hf
  refine ⟨cpu, ?_, call, alive, handling, room, ne, busy, free, lock⟩
  split at at_user
  · obtain ⟨rfl, rfl⟩ := of_decide_eq_true at_user
    assumption
  · cases at_user

/-- A replay, `n + 1` forks that fail, and another replay. -/
theorem exec_wrap {b : Boot} (as bs : Schedule) (i j : Slot) (h : Nat) (r : UserRegs)
    (pc : UInt64) (n : Nat) {P : Kernel → Prop} [∀ k, Decidable (P k)]
    (hex : ((exec (boot b) as).any fun r1 => forker r1.1 i j h r pc &&
      (exec { failed r1.1 i j h r pc with nextpid := r1.1.nextpid + 1 + Int32.ofNat n } bs).any
        fun r2 => decide (P r2.1)) = true) :
    ∃ t k, History b t k ∧ P k := by
  rw [Option.any_eq_true] at hex
  obtain ⟨⟨k1, t1⟩, hr, hex⟩ := hex
  rw [Bool.and_eq_true] at hex
  obtain ⟨t2, run2⟩ := nextpid_run (forker_sound hex.1) n
  obtain ⟨t3, k3, run3, hp⟩ := execWhen_reaches _ _ _ (fun _ k => P k) hex.2
  exact ⟨_, k3, ((execWhen_run hr).of_when.trans run2).trans run3.of_when, hp⟩

/-- init enters a handler, forks a child with pid 2 into slot 1, and is about to fork again. -/
def firstTwin : Schedule :=
  starts initproc 0 ++ ecall initproc 28 0 100 0 .go ++ returns initproc ++
    ecall initproc 29 1 0 0 .go ++ goes initproc 7 ++ ecall initproc 1 0 0 0 .go ++
    goes initproc 5 ++ [(initproc, .alloc .ok)] ++ goes initproc 7 ++
    (ecall initproc 1 0 0 0 .go).take 1

/-- It forks again, into slot 2. -/
def secondTwin : Schedule :=
  (ecall initproc 1 0 0 0 .go).drop 1 ++ goes initproc 6 ++ [(initproc, .alloc .ok)] ++
    goes initproc 7

/-- With allocations that fail in between until `nextpid` is 2 again, the two
children have the same pid. -/
theorem exec_twins (as : Schedule) {P : Kernel → Prop} [∀ k, Decidable (P k)]
    (h : ((exec (boot bareBoot) firstTwin).any fun r1 =>
      forker r1.1 initproc 2 0 { UserRegs.fill 0 with a7 := 1 } 0 &&
        (exec { failed r1.1 initproc 2 0 { UserRegs.fill 0 with a7 := 1 } 0 with
          nextpid := r1.1.nextpid + 1 + Int32.ofNat (2 ^ 32 - 2) } (secondTwin ++ as)).any
            fun r2 => decide (P r2.1)) = true) :
    ∃ t k, History bareBoot t k ∧ P k :=
  exec_wrap firstTwin (secondTwin ++ as) initproc 2 0 _ 0 (2 ^ 32 - 2) h

end OsProject.Xv6.Pids
