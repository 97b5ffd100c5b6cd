import OsProject.Xv6.Lockstep

/-! # A slot that is used again

Two histories that end in kernels which differ only in what earlier occupants
have left in an unused slot go on in lockstep. `freeproc`, `allocproc` and
`kfork` together rewrite every field of the entry but two: `killed`, which
kkill sets without looking at `p->state`, and `saved_trapframe`, which nobody
resets. -/
namespace OsProject.Xv6.Recycle
open Lib.Transition ProcTable Machine
open Lifecycle Table Family Lockstep

/-! ## An unused slot holds no open files -/

/-- `kexit` closes the files, and nobody opens one for a slot until it is given away. -/
def Closed (k : Kernel) : Prop :=
  ∀ m, ¬ Made (k m) ∨ past (k m).point = true → (k m).ofile = fun _ => none

section files
variable {k k' : Kernel} {i : Slot} {c : Choice} {e : Event}

theorem trapEntry_ofile (c : Cause) (r : UserRegs) (pc : UInt64) (p : Proc) :
    (trapEntry c r pc p).ofile = p.ofile := by
  cases c <;> simp only [trapEntry] <;> split <;> rfl

theorem ofile_act (hw : Wf k) (run : (k i).cpu ≠ none) (a : Act k i e k')
    (m : Slot) : (k' m).ofile = (k m).ofile ∨ (k' m).ofile = (fun _ => none) ∨
      (Made (k' m) ∧ past (k' m).point = false) := by
  have goto_ofile : ∀ (k : Kernel) (pt : Point), ((k.goto i pt).proc m).ofile = (k m).ofile :=
    fun k pt => upd_frame Proc.ofile rfl
  have ret_ofile : ∀ (k : Kernel) (v : UInt64), ((k.ret i v).proc m).ofile = (k m).ofile :=
    fun k v => upd_frame Proc.ofile rfl
  obtain sec | writes := a.writes
  · cases sec with
    | finish v mem ofile cwd pt =>
      by_cases hm : m = i
      · subst hm
        refine .inr (.inr ⟨?_, by rw [ret_point]; rfl⟩)
        rw [Made, ret_state, upd_self]
        exact ⟨((hw.shape m).made run).1, fun st => absurd ((hw.shape m).used_inv st).1 run⟩
      · rw [ret_ne hm, upd_ne hm]
        exact .inl rfl
    | trap cause r pc pt => exact .inl (upd_frame Proc.ofile (trapEntry_ofile ..))
    | ret => exact .inl (ret_ofile ..)
    | sigsend | signal | exec | noCopy | children =>
      exact .inl ((ret_ofile ..).trans (upd_frame Proc.ofile rfl))
    | offer => exact .inl ((goto_ofile ..).trans (upd_frame Proc.ofile rfl))
    | run | sigreturn | deliver | userret => exact .inl (upd_frame Proc.ofile rfl)
    | call | killed | alive | masked | unmasked | sigNext | sigFound | sigNone | sigLoad | forkCheck
    | forkNext | killNext | sigsendNext => exact .inl (goto_ofile ..)
  · obtain ⟨f, write, eq, others⟩ := writes m
    have new : (k' m).ofile = (f (k m)).ofile := by rw [eq]
    rw [new]
    cases write with
    | made f pid pt =>
      obtain ⟨used, -⟩ := hw.links.making i m (by rw [pt]; rfl)
      rw [others (by rintro rfl; exact run ((hw.shape m).used_inv used).1)]
      refine .inr (.inr ⟨⟨?_, fun _ => rfl⟩, ?_⟩)
      · exact fun un => by cases used.symm.trans un
      · rw [show (release (forkCopy f (k i) (allocproc (k m)))).point = (k m).point from
          rfl, ((hw.shape m).used_inv used).2]
        rfl
    | close => exact .inr (.inl rfl)
    | _ => exact .inl rfl

/-- The only way into the last part of `kexit` leads through the closing of the files. -/
theorem past_back (a : Act k i e k') (h : past (k' i).point = true) :
    past (k i).point = true ∨ (k' i).ofile = fun _ => none := by
  have flow := a.flow
  generalize (k i).point = p at flow
  generalize (k' i).point = q at flow h
  cases flow with
  | sect _ _ after => cases q <;> first | (cases h; done) | cases after
  | hold hh =>
    left
    cases hh with
    | wakeSelf chan w | wakeEnd chan n w last => cases w <;> first | rfl | cases h
    | _ => first | rfl | cases h
  | wake chan j w => cases w <;> first | exact .inl rfl | cases h
  | exitClose status closed => exact .inr closed
  | enter c eq =>
    subst eq
    cases c <;> cases h
  | _ => first | exact .inl rfl | cases h

theorem zombie_past {m p} (h : Shape m p) (st : p.state = .zombie) : past p.point = true := by
  cases h with
  | leaving _ _ _ pt => rcases pt with pt | pt <;> rw [pt] <;> rfl
  | zombie _ _ _ pt => rw [pt]; rfl
  | unused st0 | used st0 | asleep _ st0 | napping _ st0 | ready st0 | running st0 =>
    rw [st] at st0; cases st0

/-- A process stays one until it has gone through `kexit`. -/
theorem made_step (hw : Wf k) (s : LifeStep k i c e k') {m} (made : Made (k m))
    (gone : ¬ Made (k' m)) : past (k m).point = true := by
  have away : ∀ a, (k m).state = .used → building (k a).point ≠ some m := by
    intro a used b
    have lock := (hw.guarded m used).2 ⟨a, b⟩
    rw [made.2 used] at lock
    cases lock
  cases phase_step hw.shape s m with
  | same ph =>
    have un : (k' m).state ≠ .unused := fun un =>
      made.1 (phase_unused.1 (ph.symm.trans (phase_unused.2 un)))
    refine absurd ⟨un, fun used' => ?_⟩ gone
    have used := phase_used.1 (ph.symm.trans (phase_used.2 used'))
    -- nobody starts to make a child that is there already
    refine Bool.eq_false_iff.2 fun lock => ?_
    obtain ⟨a, b⟩ := ((wf_life hw s).guarded m used').1 lock
    rcases building_back hw.shape s b with rfl | b
    · exact made.1 (takes_unused s (decide_eq_true rfl))
    · exact away a used b
  | freed _ was => exact zombie_past (hw.shape m) was
  | made un => exact absurd un made.1
  | readied _ _ _ st | died _ _ _ _ st => exact absurd ⟨by rw [st]; nofun, by rw [st]; nofun⟩ gone
  | dropped was => exact absurd was (away i (hw.links.making i m (making_of_building was)).1)

theorem closed_step (hw : Wf k) (h : Closed k) (s : LifeStep k i c e k') : Closed k' := by
  intro m idle
  have free : ¬ Made (k' m) → ¬ Made (k m) ∨ past (k m).point = true := by
    intro open_
    by_cases made : Made (k m)
    · exact .inr (made_step hw s made open_)
    · exact .inl made
  have other : m ≠ i → past (k' m).point = true → past (k m).point = true := by
    intro hm hp
    rcases point_step s hm with pt | ⟨-, -, pt⟩
    · rwa [pt] at hp
    · rw [pt] at hp; cases hp
  cases s with
  | act go run a =>
    rcases ofile_act hw run a m with same | none | ⟨st, plain⟩
    · by_cases hm : m = i
      · subst hm
        rcases idle with un | hp
        · rw [same]; exact h m (free un)
        · rcases past_back a hp with hp | none
          · rw [same]; exact h m (.inr hp)
          · exact none
      · rw [same]
        exact h m (idle.elim free fun hp => .inr (other hm hp))
    · exact none
    · rcases idle with un | hp
      · exact absurd st un
      · rw [plain] at hp; cases hp
  | sched go s =>
    rw [s.frame Proc.ofile]
    exact h m (idle.elim free fun hp => .inr ((s.at past m).symm.trans hp))

end files

theorem history_closed {b t k} (h : History b t k) : Closed k := by
  refine (h.keeps (I := fun k => Wf k ∧ Closed k) ⟨wf_boot b, fun m _ => ?_⟩ ?_).2
  · exact boot_frame b m Proc.ofile rfl
  · rintro k ⟨i, c, e⟩ k' ⟨wf, closed⟩ s
    exact ⟨wf_step wf s, closed_step wf closed (step_life s)⟩

/-! ## Whole runs -/

/-- The process in slot `j` calls sigreturn only inside a handler, unless `same`. -/
def Returns (same : Prop) (j : Slot) (k : Kernel) (l : Label) : Prop :=
  l.event = .sigreturn → l.actor = j → same ∨ (k j).handlingSignal = true

instance (same : Prop) [Decidable same] (j : Slot) (k : Kernel) (l : Label) :
    Decidable (Returns same j k l) := by
  unfold Returns
  infer_instance

/-- Two unused slots of booted kernels are alike once their `killed` flags are. -/
theorem vacant {b b2 t t2 k k2 j} (h : History b t k)
    (h2 : History b2 t2 k2) (un : (k j).state = .unused) (un2 : (k2 j).state = .unused)
    (killed : (k2 j).killed = (k j).killed) :
    Blank ((k2 j).savedTrapframe = (k j).savedTrapframe) (k j) (k2 j) := by
  obtain ⟨cpu, lock, -, clean⟩ := ((history_wf h).shape j).unused_inv un
  obtain ⟨cpu2, lock2, -, clean2⟩ := ((history_wf h2).shape j).unused_inv un2
  have closed := history_closed h j (.inl fun made => made.1 un)
  have closed2 := history_closed h2 j (.inl fun made => made.1 un2)
  exact {
    state := un2.trans un.symm
    locked := lock2.trans lock.symm
    chan := clean2.chan.trans clean.chan.symm
    killed := killed
    xstate := clean2.xstate.trans clean.xstate.symm
    pid := clean2.pid.trans clean.pid.symm
    parent := clean2.parent.trans clean.parent.symm
    ofile := closed2.trans closed.symm
    ipcReady := clean2.ipcReady.trans clean.ipcReady.symm
    ipcLen := clean2.ipcLen.trans clean.ipcLen.symm
    cpu := cpu2.trans cpu.symm
    off := cpu
    saved := id }

theorem rel_step {same : Prop} {j k k2 k' l}
    (h : Wf k2 ∧ Rel same j k k2) (s : When Step (Returns same j) k l k') :
    ∃ k2', Step k2 l k2' ∧ Wf k2' ∧ Rel same j k' k2' := by
  obtain ⟨i, c, e⟩ := l
  obtain ⟨wf, rel⟩ := h
  obtain ⟨s, returns⟩ := s
  have both := step_follows rel wf c (i := i) fun hi go pt call => by
    subst hi
    refine returns ?_ rfl
    -- the section at this point is `sys_sigreturn`
    unfold Step step at s
    cases c <;> first | (cases go; done) | skip
    all_goals
      simp only [pt, threadStep, syscallStep, call] at s
      split at s
      · cases s
      · exact (congrArg Prod.snd (Option.some.inj s)).symm
  rw [show step k i c = some (k', e) from s] at both
  obtain ⟨k2', s2, rel'⟩ := both.inv
  exact ⟨k2', s2, wf_step (l := ⟨i, c, e⟩) wf s2, rel'⟩

/-- Two histories end in kernels that differ only in an unused slot, in which not
even the `killed` flags differ. Whatever happens next in one kernel, with sigreturn
called inside handlers only or the saved trapframes the same, happens in the
other one with the same labels; and the process that is then in the slot, as soon
as kfork has made it and let go of its lock, is the same one up to a saved
trapframe that no handler will return to. -/
theorem recycled_slot_leaks_nothing {b b2 : Boot} {t t2 t' : List Label}
    {k k2 k' : Kernel} {j : Slot}
    (h : History b t k) (h2 : History b2 t2 k2) (rest : EqualBut j k k2)
    (un : (k j).state = .unused) (un2 : (k2 j).state = .unused)
    (killed : (k2 j).killed = (k j).killed)
    (run : Run (When Step (Returns ((k2 j).savedTrapframe = (k j).savedTrapframe) j))
      k t' k') :
    ∃ k2', Run Step k2 t' k2' ∧ EqualBut j k' k2' ∧
      (k2' j).killed = (k' j).killed ∧
      (Made (k' j) →
        k2'.proc j = { k'.proc j with savedTrapframe := (k2' j).savedTrapframe } ∧
        ((k2 j).savedTrapframe = (k j).savedTrapframe ∨
            (k' j).handlingSignal = true →
          (k2' j).savedTrapframe = (k' j).savedTrapframe)) := by
  have start : Wf k2 ∧ Rel ((k2 j).savedTrapframe = (k j).savedTrapframe) j k k2 :=
    ⟨history_wf h2, rest.rel (.vacant un (vacant h h2 un un2 killed))⟩
  obtain ⟨k2', run2, -, rel⟩ := run.lockstep (R := fun k k2 => Wf k2 ∧ Rel _ j k k2) start
    fun _ _ _ _ => rel_step
  refine ⟨k2', run2, rel.rest, rel.slot.seen.2.2.2.1, fun made => ?_⟩
  exact (rel.slot.made (.inl made)).2

/-! ## Concrete runs -/

/-- init makes a system call that reaches the second slot of the table. -/
def calls (num a0 a1 : UInt64) : Schedule :=
  starts initproc 0 ++ ecall initproc num a0 a1 0 .go ++ goes initproc 2

/-- init is interrupted, with the registers that such a call leaves. -/
def ticks (num a0 a1 : UInt64) : Schedule :=
  starts initproc 0 ++
    [(initproc, .run { UserRegs.fill 0 with a7 := num, a0 := a0, a1 := a1 } 4 []),
      (initproc, .trap .interrupt)]

/-- It returns, and forks into the second slot. -/
def forkNext : Schedule :=
  returns initproc ++ ecall initproc 1 0 0 0 .go ++ goes initproc 5 ++ [(initproc, .alloc .ok)]

/-- The signal that init has sent to the unused slot does not reach the new process. -/
theorem recycled_slot_signalled : ∃ t t2 k k2 t' k' k2', History bareBoot t k ∧
    History bareBoot t2 k2 ∧ (k2 1).pendingSignals ≠ (k 1).pendingSignals ∧
    Run Step k t' k' ∧ Run Step k2 t' k2' ∧ (k' 1).state = .used ∧
    (k2' 1).pendingSignals = (k' 1).pendingSignals := by
  obtain ⟨t, h⟩ := after_run (boot bareBoot) (ticks 29 0 5)
  obtain ⟨t2, h2⟩ := after_run (boot bareBoot) (calls 29 0 5)
  have rest : EqualBut 1 (after (boot bareBoot) (ticks 29 0 5))
    (after (boot bareBoot) (calls 29 0 5)) :=
    ⟨Fin.cases (fun _ => rfl) (Fin.cases (fun ne => absurd rfl ne) fun _ _ => rfl), rfl,
    rfl, rfl, rfl⟩
  obtain ⟨t', k', run, used⟩ := execWhen_reaches
    (Returns (((after (boot bareBoot) (calls 29 0 5)).proc 1).savedTrapframe =
      ((after (boot bareBoot) (ticks 29 0 5)).proc 1).savedTrapframe) 1)
    (after (boot bareBoot) (ticks 29 0 5)) forkNext
    (fun _ k => (k 1).state = .used ∧ (k 1).locked = false) (by decide +kernel)
  obtain ⟨k2', run2, -, -, start⟩ := recycled_slot_leaks_nothing h h2 rest (by decide +kernel)
    (by decide +kernel) (by decide +kernel) run
  refine ⟨t, t2, _, _, t', k', k2', h, h2, by decide +kernel, run.of_when, run2, used.1, ?_⟩
  rw [(start ⟨by rw [used.1]; nofun, fun _ => used.2⟩).1]

/-- init kills pid 0, which is the unused slot, and the process that it then forks
into this slot starts out killed. -/
theorem recycled_slot_killed : ∃ t t2 k k2 k' k2' ls ls2, History bareBoot t k ∧
    History bareBoot t2 k2 ∧ EqualBut 1 k k2 ∧ (k 1).state = .unused ∧
    (k2 1).state = .unused ∧ exec k forkNext = some (k', ls) ∧
    exec k2 forkNext = some (k2', ls2) ∧ (k' 1).state = .used ∧ (k2' 1).state = .used ∧
    (k' 1).killed = false ∧ (k2' 1).killed = true := by
  obtain ⟨t, h⟩ := after_run (boot bareBoot) (ticks 6 0 0)
  obtain ⟨t2, h2⟩ := after_run (boot bareBoot) (calls 6 0 0)
  have rest : EqualBut 1 (after (boot bareBoot) (ticks 6 0 0))
    (after (boot bareBoot) (calls 6 0 0)) :=
    ⟨Fin.cases (fun _ => rfl) (Fin.cases (fun ne => absurd rfl ne) fun _ _ => rfl), rfl,
    rfl, rfl, rfl⟩
  have fork : ((exec (after (boot bareBoot) (ticks 6 0 0)) forkNext).any fun r =>
      decide ((r.1.proc 1).state = .used ∧ (r.1.proc 1).killed = false)) = true := by decide +kernel
  have fork2 : ((exec (after (boot bareBoot) (calls 6 0 0)) forkNext).any fun r =>
      decide ((r.1.proc 1).state = .used ∧ (r.1.proc 1).killed = true)) = true := by decide +kernel
  obtain ⟨⟨k', ls⟩, run, hp⟩ := (Option.any_eq_true _ _).1 fork
  obtain ⟨⟨k2', ls2⟩, run2, hp2⟩ := (Option.any_eq_true _ _).1 fork2
  obtain ⟨used, alive⟩ := of_decide_eq_true hp
  obtain ⟨used2, dead⟩ := of_decide_eq_true hp2
  exact ⟨t, t2, _, _, k', k2', ls, ls2, h, h2, rest, by decide +kernel,
    by decide +kernel, run, run2, used, used2, alive, dead⟩

end OsProject.Xv6.Recycle
