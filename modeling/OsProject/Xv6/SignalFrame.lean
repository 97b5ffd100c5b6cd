import OsProject.Xv6.Signals

/-! # Handlers, saved frames and sigreturn

`usertrap` saves the trapframe before it enters a handler, and `sys_sigreturn`
copies it back. Between the two a process resumes exactly where it was
interrupted. What the kernel does not do is remember for which program a frame
was saved or a handler registered: `sys_sigreturn` restores whatever
`saved_trapframe` holds, and `kexec` keeps the handlers and the handling flag
of the program it replaces. -/
namespace OsProject.Xv6.SignalFrame
open Lib.Transition ProcTable Machine
open Lifecycle Table Family Signals

/-! ## What the running program has done -/

/-- What the current program image of a process knows about its signals: the
handlers it has registered, and the frame saved by the delivery that it has
not returned from. -/
structure Program where
  handlers : Fin nsig → Option UInt64
  frame : Option Trapframe

def Program.new : Program := ⟨fun _ => none, none⟩

def Program.after (p i : Slot) (m : Program) : Event → Program
  | .exec => if i = p then .new else m
  | .sigreturn => if i = p then { m with frame := none } else m
  | .deliver _ saved => if i = p then { m with frame := some saved } else m
  | .signal s h =>
    if i = p then { m with handlers := fun n => if n = s then some h else m.handlers n } else m
  | _ => m

/-- The program that the current occupant of slot `p` runs. -/
def program (t : List Label) (p : Slot) : Program :=
  (tenure t p).foldr (fun l m => m.after p l.actor l.event) .new

/-- A process whose handling flag is set is in a handler of its program, and
can return to where that was entered. -/
def Framed (m : Program) (q : Proc) : Prop :=
  q.handlingSignal = true → m.frame = some q.savedTrapframe

/-- The handlers of a process are those of its program. -/
def Own (m : Program) (q : Proc) : Prop :=
  ∀ s, q.signalHandlers s ≠ noHandler → m.handlers s = some (q.signalHandlers s)

/-- A process that is about to deliver `s` has a handler for it. -/
def Armed (q : Proc) : Prop :=
  ∀ s, midway s q.point = true → q.signalHandlers s ≠ noHandler

section steps
variable {k k' : Kernel} {i p : Slot} {c : Choice} {e : Event} {t : List Label}

theorem program_cons (h : takes p e = false) :
    program (⟨i, c, e⟩ :: t) p = (program t p).after p i e := by
  rw [program, tenure_cons h, List.foldr_cons, program]

/-- Besides its own signal events, only an exec changes what a program has done. -/
theorem after_quiet (m : Program) (h : signals p i e = false) (hx : ¬ (e = .exec ∧ i = p)) :
    m.after p i e = m := by
  cases e with
  | signal | deliver | sigreturn => exact if_neg (of_decide_eq_false h)
  | exec => exact if_neg fun hi => hx ⟨rfl, hi⟩
  | _ => rfl

theorem framed_step (h : Framed (program t p) (k p)) (st : SigStep k k' i p e)
    (exec : e = .exec → (k i).handlingSignal = false) :
    Framed (program (⟨i, c, e⟩ :: t) p) (k' p) := by
  have keep : takes p e = false → ((program t p).after p i e).frame = (program t p).frame →
      (k' p).savedTrapframe = (k p).savedTrapframe →
      (k' p).handlingSignal = (k p).handlingSignal →
      Framed (program (⟨i, c, e⟩ :: t) p) (k' p) := by
    intro fresh skip saved handling hh
    rw [program_cons fresh, skip, saved]
    exact h (handling.symm.trans hh)
  cases st with
  | same fresh quiet eq pt | cleared fresh quiet eq pt =>
    have saved := sig_saved eq
    have handling : (k' p).handlingSignal = (k p).handlingSignal := (sig_handling eq :)
    by_cases hx : e = .exec ∧ i = p
    · intro hh
      obtain ⟨rfl, rfl⟩ := hx
      rw [handling, exec rfl] at hh
      cases hh
    · exact keep fresh (by rw [after_quiet _ quiet hx]) saved handling
  | fresh _ _ eq | returned _ _ eq =>
    intro hh
    rw [sig_handling eq] at hh
    cases hh
  | registered s a self ev eq pt pt' =>
    subst ev
    have saved := sig_saved eq
    have handling := sig_handling eq
    exact keep rfl (by simp [Program.after, self]) saved handling
  | raised _ ev eq | start _ ev _ eq | next _ _ ev eq | done _ _ ev eq | load _ _ ev eq
  | found _ _ ev _ _ eq =>
    subst ev
    exact keep rfl rfl (sig_saved eq :) (sig_handling eq :)
  | delivered s w self ev eq pt pt' =>
    subst ev
    intro hh
    rw [program_cons rfl, sig_saved eq]
    simp only [Program.after, self, if_true]
    rfl

/-- A child is let go of only after its handlers have been reset. -/
theorem made_back (hw : Wf k) (s : LifeStep k i c e k') (made : Made (k' p)) :
    Made (k p) ∨ (k' p).signalHandlers = fun _ => noHandler := by
  have same : (k' p).state = (k p).state → (k' p).locked = (k p).locked →
      Made (k p) := fun st lock =>
    ⟨fun un => made.1 (st.trans un), fun used => lock.symm.trans (made.2 (st.trans used))⟩
  cases s with
  | act go run a =>
    obtain sec | writes := a.writes
    · exact .inl (same (sec.quiet.life p).state (sec.quiet.life p).locked)
    obtain ⟨f, write, eq, -⟩ := writes p
    have st : (k' p).state = (f (k p)).state := by rw [eq]
    have lock : (k' p).locked = (f (k p)).locked := by rw [eq]
    have live := made.1
    cases write with
    | found => cases lock.symm.trans (made.2 st)
    | made => exact .inr (by rw [eq]; rfl)
    | allocFail | reap => exact absurd st live
    | zombie _ self | exitSched self | lock self | sleep self =>
      exact .inl (self ▸ (hw.shape i).made run)
    | wake asleep => exact .inl ⟨by rw [asleep]; decide, by rw [asleep]; rintro ⟨⟩⟩
    | ready pid pt _ free =>
      exact .inl ⟨by rw [(hw.links.readying i p pid pt).1]; decide, fun _ => free⟩
    | kill free =>
      refine .inl ⟨fun un => live (st.trans ?_), fun _ => free⟩
      simp [Machine.kill, un]
    | _ => exact .inl (same st lock)
  | sched go s =>
    by_cases hp : p = i
    · subst hp
      left
      cases s with
      | yield run => exact (hw.shape p).made run
      | dispatch _ st | rouse _ _ st => exact ⟨by rw [st]; decide, by rw [st]; rintro ⟨⟩⟩
    · exact .inl (same (by cases s <;> rw [upd_ne hp]) (s.frame Proc.locked p))

theorem armed_step (h : Armed (k p)) (st : SigStep k k' i p e) : Armed (k' p) := by
  have away : ∀ {q : Point}, (k' p).point = q → (∀ s, midway s q = false) →
      Armed (k' p) := fun pt hq s hm => by rw [pt, hq s] at hm; cases hm
  cases st with
  | same _ _ eq pt | raised _ _ eq pt =>
    intro s hm
    rw [sig_handlers eq]
    exact h s ((midway_place pt).symm.trans hm)
  | fresh taken un eq pt =>
    intro s hm
    rw [midway_out pt] at hm
    cases hm
  | cleared _ _ _ pt out =>
    intro s hm
    rw [midway_out (pt.trans out)] at hm
    cases hm
  | found s' self ev pending handler eq pt pt' =>
    intro s hm
    rw [pt'] at hm
    obtain rfl : s' = s := of_decide_eq_true hm
    rw [sig_handlers eq]
    exact handler
  | load s' self ev eq pt pt' =>
    intro s hm
    rw [pt'] at hm
    rw [sig_handlers eq]
    exact h s (by rw [pt]; exact hm)
  | registered _ _ _ _ _ _ pt' | returned _ _ _ _ pt' | start _ _ _ _ _ pt' | next _ _ _ _ _ pt'
  | done _ _ _ _ _ pt' | delivered _ _ _ _ _ _ pt' => exact away pt' fun _ => rfl

theorem own_step (h : Own (program t p) (k p)) (live : (k p).state ≠ .unused)
    (st : SigStep k k' i p e) (exec : e = .exec → ∀ s, (k i).signalHandlers s = noHandler) :
    Own (program (⟨i, c, e⟩ :: t) p) (k' p) := by
  have keep : takes p e = false →
      ((program t p).after p i e).handlers = (program t p).handlers →
      (k' p).signalHandlers = (k p).signalHandlers →
      Own (program (⟨i, c, e⟩ :: t) p) (k' p) := by
    intro fresh skip same s hs
    rw [program_cons fresh, skip, same]
    rw [same] at hs
    exact h s hs
  cases st with
  | same fresh quiet eq pt =>
    by_cases hx : e = .exec ∧ i = p
    · intro s hs
      obtain ⟨rfl, rfl⟩ := hx
      rw [sig_handlers eq] at hs
      exact absurd (exec rfl s) hs
    · exact keep fresh (by rw [after_quiet _ quiet hx]) (sig_handlers eq)
  | fresh taken un => exact absurd un live
  | cleared fresh quiet eq =>
    intro s hs
    rw [sig_handlers eq] at hs
    exact absurd rfl hs
  | registered s a self ev eq pt pt' =>
    subst ev
    intro n hn
    rw [sig_handlers eq] at hn ⊢
    rw [program_cons rfl]
    simp only [sysSignal, Program.after, self, if_true] at hn ⊢
    split
    · rfl
    · rename_i hns
      rw [if_neg hns] at hn
      exact h n hn
  | raised _ ev eq | start _ ev _ eq | next _ _ ev eq | done _ _ ev eq | load _ _ ev eq
  | found _ _ ev _ _ eq =>
    subst ev
    exact keep rfl rfl (sig_handlers eq :)
  | returned self ev eq | delivered _ _ self ev eq =>
    subst ev
    exact keep rfl (by simp [Program.after, self]) (sig_handlers eq :)

end steps

/-! ## sigreturn undoes a delivery -/

/-- A process calls sigreturn only in a handler, and exec only outside of one. -/
def Disciplined (k : Kernel) (l : Label) : Prop :=
  match l.event with
  | .sigreturn => (k l.actor).handlingSignal = true
  | .exec => (k l.actor).handlingSignal = false
  | _ => True

instance (k : Kernel) (l : Label) : Decidable (Disciplined k l) :=
  decidable_of_iff ((match l.event with
    | .sigreturn => decide ((k l.actor).handlingSignal = true)
    | .exec => decide ((k l.actor).handlingSignal = false)
    | _ => true) = true) (by unfold Disciplined; split <;> simp)

/-- A program execs only after it has taken its handlers back, and outside of them. -/
def CleanExec (k : Kernel) (l : Label) : Prop :=
  match l.event with
  | .exec => (k l.actor).handlingSignal = false ∧
      ∀ s, (k l.actor).signalHandlers s = noHandler
  | _ => True

instance (k : Kernel) (l : Label) : Decidable (CleanExec k l) :=
  decidable_of_iff ((match l.event with
    | .exec => decide ((k l.actor).handlingSignal = false ∧
        ∀ s, (k l.actor).signalHandlers s = noHandler)
    | _ => true) = true) (by unfold CleanExec; split <;> simp)

theorem boot_handling (b : Boot) (p : Slot) : ((boot b).proc p).handlingSignal = false :=
  boot_frame b p Proc.handlingSignal rfl

theorem boot_own (b : Boot) (p : Slot) (h : ((boot b).proc p).state ≠ .unused) :
    Own (program [] p) ((boot b).proc p) := by
  intro s hs
  by_cases hp : p = initproc
  · simp only [boot, hp, if_true] at hs; exact absurd rfl hs
  · simp only [boot, hp, if_false] at h; exact absurd rfl h

section runs
variable {b : Boot} {t : List Label} {k k' : Kernel} {i : Slot} {c : Choice} {l : Label}

theorem framed_run {cond} (h : Run (When Step cond) (boot b) t k)
    (exec : ∀ k i c, cond k ⟨i, c, .exec⟩ → (k i).handlingSignal = false) (p : Slot) :
    Framed (program t p) (k p) := by
  refine (h.invariant (I := fun t k => Wf k ∧ Framed (program t p) (k p))
    ⟨wf_boot b, ?_⟩ ?_).2
  · intro hh
    rw [boot_handling] at hh
    cases hh
  · rintro t k ⟨i, c, e⟩ k' - ⟨wf, framed⟩ ⟨st, ok⟩
    refine ⟨wf_step wf st, framed_step framed (sig_step wf (step_life st) p) ?_⟩
    rintro rfl
    exact exec k i c ok

theorem sigreturn_inv (s : LifeStep k i c .sigreturn k') : k' = k.upd i sysSigreturn := by
  cases s with
  | act go run a =>
    cases a with
    | sect sec => cases sec; rfl

theorem deliver_inv {s saved} (st : LifeStep k i c (.deliver s saved) k') :
    ∃ w, (k i).point = .sigStore s w ∧ saved = (k i).trapframe ∧
      k' = k.upd i (deliver s w) := by
  cases st with
  | act go run a =>
    cases a with
    | sect sec => cases sec with | deliver _ w pt => exact ⟨w, pt, rfl, rfl⟩

/-- Every sigreturn of a disciplined run restores the registers that were saved
by the delivery its program has not returned from yet. -/
theorem sigreturn_undoes_delivery (h : Run (When Step Disciplined) (boot b) t k)
    (s : Step k l k') (ok : Disciplined k l) (ev : l.event = .sigreturn) :
    ∃ saved, (program t l.actor).frame = some saved ∧
      (k' l.actor).trapframe.user = saved.user ∧
      (k' l.actor).trapframe.epc = saved.epc := by
  obtain ⟨i, c, e⟩ := l
  obtain rfl : e = .sigreturn := ev
  have framed := framed_run h (fun _ _ _ hx => hx) i
  rw [sigreturn_inv (step_life s)]
  exact ⟨_, framed ok, by rw [upd_self]; rfl, by rw [upd_self]; rfl⟩

/-- init returns from a handler to the call of sigsend that made it run. -/
theorem sigreturn_after_delivery : ∃ t k l k' saved,
    Run (When Step Disciplined) (boot bareBoot) t k ∧ Step k l k' ∧ l.event = .sigreturn ∧
      (program t l.actor).frame = some saved ∧
      (k' l.actor).trapframe.epc = saved.epc := by
  obtain ⟨t, k, e, k', h, s, ok, ev⟩ := execWhen_steps Disciplined (boot bareBoot)
    (starts initproc 0 ++ ecall initproc 28 0 100 0 .go ++ returns initproc ++
      ecall initproc 29 1 0 0 .go ++ goes initproc 7 ++ (ecall initproc 30 0 0 0 .go).dropLast)
    initproc .go (fun _ k e _ => Disciplined k ⟨initproc, .go, e⟩ ∧ e = .sigreturn)
    (by decide +kernel)
  obtain ⟨saved, frame, -, epc⟩ := sigreturn_undoes_delivery h s ok ev
  exact ⟨t, k, _, k', saved, h, s, ev, frame, epc⟩

/-- init calls sigreturn without having handled a signal, and resumes at address 0. -/
theorem sigreturn_without_delivery : ∃ t k e k', History bareBoot t k ∧
    Step k ⟨initproc, .go, e⟩ k' ∧ e = .sigreturn ∧ (program t initproc).frame = none ∧
      (k initproc).trapframe.epc = 4 ∧ (k' initproc).trapframe.epc = 0 :=
  exec_steps (starts initproc 0 ++ (ecall initproc 30 0 0 0 .go).dropLast) initproc .go
    (by decide +kernel)

/-! ## Handlers across exec -/

theorem own_run (h : Run (When Step CleanExec) (boot b) t k) (p : Slot)
    (made : Made (k p)) : Own (program t p) (k p) := by
  refine (h.invariant (I := fun t k => Wf k ∧ (Made (k p) → Own (program t p) (k p)))
    ⟨wf_boot b, fun made => boot_own b p made.1⟩ ?_).2 made
  rintro t k ⟨i, c, e⟩ k' - ⟨wf, own⟩ ⟨s, ok⟩
  have life := step_life s
  refine ⟨wf_step wf s, fun made => ?_⟩
  rcases made_back wf life made with old | none
  · refine own_step (own old) old.1 (sig_step wf life p) ?_
    rintro rfl
    exact ok.2
  · intro s hs
    rw [none] at hs
    exact absurd rfl hs

theorem history_armed (h : History b t k) (p : Slot) : Armed (k p) := by
  refine (h.invariant (I := fun _ k => Wf k ∧ Armed (k p)) ⟨wf_boot b, ?_⟩ ?_).2
  · intro s hm
    rw [midway_out (boot_unsignalled b p).2] at hm
    cases hm
  · rintro t k ⟨i, c, e⟩ k' - ⟨wf, armed⟩ s
    exact ⟨wf_step wf s, armed_step armed (sig_step wf (step_life s) p)⟩

/-- As long as programs take their handlers back before they exec, a delivery
enters a handler that the running program registered, and the handling flag
is set only in a handler of the running program. -/
theorem handlers_of_program (h : Run (When Step CleanExec) (boot b) t k) :
    (∀ l k' s saved, Step k l k' → l.event = .deliver s saved →
      (program t l.actor).handlers s = some (k' l.actor).trapframe.epc) ∧
    ∀ p, (k p).handlingSignal = true → (program t p).frame.isSome = true := by
  refine ⟨?_, fun p hh => ?_⟩
  · rintro ⟨i, c, e⟩ k' s saved st rfl
    obtain ⟨w, pt, -, rfl⟩ := deliver_inv (step_life st)
    have shape := (history_wf h.of_when).shape i
    have made : Made (k i) := by
      refine ⟨fun un => ?_, fun used => ?_⟩
      · rcases (shape.unused_inv un).2.2.1 with hp | hp <;> rw [hp] at pt <;> cases pt
      · rw [(shape.used_inv used).2] at pt; cases pt
    have armed := history_armed h.of_when i s (by rw [pt]; simp [midway])
    rw [own_run h i made s armed, upd_self]
    rfl
  · rw [framed_run h (fun _ _ _ hx => hx.1) p hh]
    rfl

/-- init registers a handler for signal 0 and sends itself the signal. -/
theorem handler_of_program : ∃ t k l k' saved, Run (When Step CleanExec) (boot bareBoot) t k ∧
    Step k l k' ∧ l.event = .deliver 0 saved ∧ (program t initproc).handlers 0 = some 100 := by
  obtain ⟨t, k, e, k', h, s, ev, epc⟩ := execWhen_steps CleanExec (boot bareBoot)
    (starts initproc 0 ++ ecall initproc 28 0 100 0 .go ++ returns initproc ++
      ecall initproc 29 1 0 0 .go ++ goes initproc 5)
    initproc .go (fun _ k e k' => e = .deliver 0 (k initproc).trapframe ∧
      (k' initproc).trapframe.epc = 100) (by decide +kernel)
  refine ⟨t, k, _, k', _, h, s, ev, ?_⟩
  rw [(handlers_of_program h).1 _ _ _ _ s ev, epc]

/-- init registers a handler and execs; the next program is sent signal 0 and
enters the handler of the old one. -/
theorem handler_of_old_program : ∃ t k e k', History bareBoot t k ∧
    Step k ⟨initproc, .go, e⟩ k' ∧ e = .deliver 0 (k initproc).trapframe ∧
      (k' initproc).trapframe.epc = 100 ∧ (program t initproc).handlers 0 = none :=
  exec_steps
    (starts initproc 0 ++ ecall initproc 28 0 100 0 .go ++ returns initproc ++
      ecall initproc 7 0 0 0 (.exec (some bareBoot.init)) ++ returns initproc ++
      ecall initproc 29 1 0 0 .go ++ goes initproc 5) initproc .go (by decide +kernel)

end runs

end OsProject.Xv6.SignalFrame
