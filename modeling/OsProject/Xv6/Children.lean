import OsProject.Xv6.Mailbox

/-! # kgetchildren and kwaitpid

The pids that `kgetchildren` lists are those of children, and nobody but the
parent itself takes a child away from it: by collecting it, or by handing it
to init in `kexit`. Until then `kwaitpid` finds a child with that pid. -/
namespace OsProject.Xv6.Children
open Lib.Transition Memory ProcTable Machine List
open Lifecycle Table Family Mailbox

/-- Process `p` has a child with pid `x`. -/
def HasChild (k : Kernel) (p : Slot) (x : Int32) : Prop :=
  ∃ j, (k j).parent = some p ∧ (k j).pid = x

/-- The pids that a `kgetchildren` has found so far. -/
def found : Point → List Int32
  | .childScan _ _ _ pids _ | .childCopy _ _ pids _ => pids
  | _ => []

structure Scans (k : Kernel) : Prop where
  /-- what `kgetchildren` has found are children -/
  listed : ∀ p x, x ∈ found (k p).point → HasChild k p x
  /-- `kwaitpid` has passed by no child with the pid -/
  passed : ∀ (p : Slot) (x : Int32) (addr : UInt64) (n : Nat),
    (k p).point = .waitpidScan x addr n →
    ∀ j : Slot, j.val < n → (k j).parent = some p → (k j).pid ≠ x

section steps
variable {k k' : Kernel} {i p : Slot} {c : Choice} {e : Event} {x : Int32}

/-- A child is lost only by a step of its parent: the one that collects it, or
the one that gives it to init. -/
theorem hasChild_step (hw : Wf k) (hw' : Wf k') (s : LifeStep k i c e k') (h : HasChild k p x) :
    HasChild k' p x ∨ (i = p ∧ ((∃ j addr, e = .reap j x addr) ∨ past (k' p).point = true)) := by
  obtain ⟨j, par, same⟩ := h
  generalize hpar : (k' j).parent = new
  have step := parent_step s j
  rw [hpar] at step
  cases step with
  | same =>
    rw [par] at hpar
    exact .inl ⟨j, hpar, (pid_kept hw hw' s par hpar).trans same⟩
  | linked pid pt =>
    rw [(hw.links.linking pt).2] at par
    cases par
  | adopted status pt pt' par' =>
    obtain rfl : i = p := Option.some.inj (par'.symm.trans par)
    exact .inr ⟨rfl, .inr (by rw [pt']; rfl)⟩
  | cleared was now =>
    -- its slot is freed, so its parent has collected it
    have occupied := hw.occupied par
    cases phase_step hw.shape s j with
    | freed addr dead par' ev =>
      obtain rfl : i = p := Option.some.inj (par'.symm.trans par)
      exact .inr ⟨rfl, .inl ⟨j, addr, by rw [ev, same]⟩⟩
    | same ph => exact absurd (phase_unused.1 (ph.symm.trans (phase_unused.2 now))) occupied
    | made un => exact absurd un occupied
    | dropped was =>
      rw [(hw.links.making i j (making_of_building was)).2] at par
      cases par
    | readied _ _ _ st | died _ _ _ _ st => rw [now] at st; cases st

/-- A step in which `kgetchildren` goes on finds a child, or nothing. -/
theorem found_act (a : Act k i e k') (hx : x ∈ found (k' i).point) :
    (x ∈ found (k i).point ∨ HasChild k i x) ∧
      ∀ j, (k' j).parent = (k j).parent ∧ (k' j).pid = (k j).pid := by
  have none : ∀ {pt : Point}, (k' i).point = pt → found pt = [] → False := by
    rintro pt hp he
    rw [hp, he] at hx
    cases hx
  have flow := a.flow
  generalize hq : (k' i).point = q at flow
  generalize (k i).point = p at flow
  have at_q : x ∈ found q := hq ▸ hx
  cases flow with
  | hold hh eq =>
    refine ⟨?_, fun j => by rw [eq]; exact ⟨goto_parent, goto_pid⟩⟩
    cases hh with
    | childOther => exact .inl at_q
    | childFound addr maxn j pids n par used live =>
      simp only [found] at at_q
      split at at_q
      · rcases mem_append.1 at_q with old | new
        · exact .inl old
        · exact .inr ⟨j, par, (mem_singleton.1 new).symm⟩
      · exact .inl at_q
    | wakeEnd chan n w last => cases w <;> cases at_q
    | _ => cases at_q
  | childUnlock _ _ _ _ _ eq =>
    exact ⟨.inl at_q, fun j => by rw [eq]; exact ⟨goto_parent, goto_pid⟩⟩
  | sect sec =>
    -- outside the scan a point of `kgetchildren` is reached by no quiet step
    refine (?_ : False).elim
    cases sec with
    | call pt' pt start => cases pt' <;> first | (cases start; done) | exact none goto_point rfl
    | trap cause r pc =>
      rcases trapEntry_point cause r pc (k i) with hp | hp | hp <;>
        exact none ((congrArg Proc.point upd_self).trans hp) rfl
    | run | sigreturn | deliver | userret => exact none (congrArg Proc.point upd_self) rfl
    | ret | signal | exec | noCopy | sigsend | children | finish => exact none ret_point rfl
    | offer | killed | alive | masked | unmasked | sigNext | sigFound | sigNone | sigLoad
    | forkCheck | forkNext | killNext | sigsendNext => exact none goto_point rfl
  | enter c eq =>
    subst eq
    cases c <;> cases at_q
  | _ => cases at_q

theorem listed_step (hw : Wf k) (hw' : Wf k') (h : Scans k) (s : LifeStep k i c e k')
    (hx : x ∈ found (k' p).point) : HasChild k' p x := by
  by_cases hp : p = i
  · subst hp
    cases s with
    | act go run a =>
      obtain ⟨old, same⟩ := found_act a hx
      obtain ⟨j, par, pid⟩ : HasChild k p x := old.elim (h.listed p x) id
      exact ⟨j, by rw [(same j).1, par], by rw [(same j).2, pid]⟩
    | sched go sch =>
      have life := LifeStep.sched (c := c) go sch
      have still : x ∈ found (k p).point := sch.at found p ▸ hx
      rcases hasChild_step hw hw' life (h.listed p x still) with kept | ⟨-, ⟨j, addr, ev⟩ | gone⟩
      · exact kept
      · cases ev
      · -- `found` is empty behind the panic of `kexit`
        generalize (k' p).point = pt at hx gone
        cases pt <;> first | (cases hx; done) | cases gone
  · have still : x ∈ found (k p).point := by
      rcases point_step s hp with same | ⟨-, -, new⟩
      · rw [same] at hx; exact hx
      · rw [new] at hx; cases hx
    exact (hasChild_step hw hw' s (h.listed p x still)).resolve_right fun lost => hp lost.1.symm

theorem passed_act (h : Scans k) (a : Act k i e k') {addr n}
    (pt : (k' i).point = .waitpidScan x addr n) :
    ∀ j : Slot, j.val < n → (k' j).parent = some i → (k' j).pid ≠ x := by
  have flow := a.flow
  rw [pt] at flow
  generalize hq : (k i).point = q at flow
  cases flow with
  | sect _ _ after => cases after
  | hold hh eq =>
    generalize hq' : Point.waitpidScan x addr n = q' at hh
    cases hh with
    | pidOther _ _ j other =>
      cases hq'
      intro m hm
      rw [eq, goto_parent, goto_pid]
      rcases Nat.lt_succ_iff_lt_or_eq.1 hm with lt | same
      · exact h.passed i _ _ j.val hq m lt
      · rw [Fin.ext same]
        exact fun par same => other ⟨par, same⟩
    | wakeEnd chan n w last => cases w <;> cases hq'
    | _ => cases hq'
  | enter c eq =>
    cases c <;> cases eq
    exact fun j hj => absurd hj (Nat.not_lt_zero _)

theorem passed_step (hw : Wf k) (hw' : Wf k') (h : Scans k) (s : LifeStep k i c e k')
    {addr n} (pt : (k' p).point = .waitpidScan x addr n) :
    ∀ j : Slot, j.val < n → (k' j).parent = some p → (k' j).pid ≠ x := by
  by_cases hp : p = i
  · subst hp
    cases s with
    | act go run a => exact passed_act h a pt
    | sched go sch =>
      have out := (sched_wait (hw.shape p) sch).2
      rw [pt] at out
      cases out
  · intro j hj par
    have same : (k' p).point = (k p).point := by
      rcases point_step s hp with same | ⟨-, -, new⟩
      · exact same
      · rw [new] at pt; cases pt
    have old : (k p).point = .waitpidScan x addr n := same.symm.trans pt
    have par0 := parent_back hw s hp (by rw [old]; rfl) par
    rw [pid_kept hw hw' s par0 par]
    exact h.passed p x addr n old j hj par0

theorem scans_step (hw : Wf k) (hw' : Wf k') (h : Scans k) (s : LifeStep k i c e k') : Scans k' :=
  ⟨fun _ _ => listed_step hw hw' h s, fun _ _ _ _ => passed_step hw hw' h s⟩

end steps

theorem boot_scans (b : Boot) : Scans (boot b) := by
  constructor
  · intro p x hx
    rcases boot_point b p with hp | hp <;> rw [hp] at hx <;> cases hx
  · intro p x addr n pt
    rcases boot_point b p with hp | hp <;> rw [hp] at pt <;> cases pt

theorem history_scans {b t k} (h : History b t k) : Scans k := by
  refine (h.keeps (I := fun k => Wf k ∧ Scans k) ⟨wf_boot b, boot_scans b⟩ ?_).2
  rintro k ⟨i, c, e⟩ k' ⟨wf, scans⟩ s
  exact ⟨wf_step wf s, scans_step wf (wf_step wf s) scans (step_life s)⟩

/-! ## A child that has been listed -/

section listed
variable {b : Boot} {t t1 t2 : List Label} {k k' : Kernel} {p : Slot} {c : Choice} {e : Event}
  {pids : List Int32} {x : Int32}

/-- The call lists children that its caller has then and keeps. -/
theorem children_step (hw : Wf k) (hw' : Wf k') (h : Scans k)
    (s : LifeStep k p c (.children pids) k') (hx : x ∈ pids) :
    phase (k' p).state = .live ∧ HasChild k' p x := by
  cases s with
  | act go run a =>
    have life := LifeStep.act (c := c) go run a
    cases a with
    | sect sec =>
      cases sec with
      | children addr maxn l pids n m v pt sub =>
        have live := live_of_point (hw.shape p) (by rw [pt]; rfl)
        refine ⟨?_, ?_⟩
        · rw [ret_state, upd_frame Proc.state rfl]; exact live
        · have child := h.listed p x (by rw [pt]; exact sub hx)
          refine (hasChild_step hw hw' life child).resolve_right ?_
          rintro ⟨-, ⟨j, addr, ev⟩ | gone⟩
          · cases ev
          · rw [ret_point] at gone; cases gone

/-- In this step `p` collects a child with pid `x`, or exits. -/
def parts (p : Slot) (x : Int32) (l : Label) : Bool :=
  l.actor = p && match l.event with
    | .reap _ y _ => y = x
    | .exit _ => true
    | _ => false

/-- It has the child until it collects it or exits. -/
theorem child_kept (h : History b (t2 ++ ⟨p, c, .children pids⟩ :: t1) k) (hx : x ∈ pids)
    (before : ∀ l ∈ t2, parts p x l = false) :
    phase (k p).state = .live ∧ (HasChild k p x ∨ past (k p).point = true) := by
  induction t2 generalizing k with
  | nil =>
    cases h with
    | cons h s =>
      have wf := history_wf h
      exact (children_step wf (wf_step wf s) (history_scans h) (step_life s) hx).imp_right .inl
  | cons l t ih =>
    cases h with
    | cons h s =>
      obtain ⟨i, c', e'⟩ := l
      obtain ⟨live, child⟩ := ih h fun l hl => before l (mem_cons_of_mem _ hl)
      have now := before _ (mem_cons_self ..)
      have wf := history_wf h
      have life := step_life s
      refine ⟨?_, ?_⟩
      · cases phase_step wf.shape life p with
        | same ph => exact ph.trans live
        | made was | freed _ was => rw [was] at live; cases live
        | readied _ _ _ st => rw [st]; rfl
        | died status self _ ev => subst self ev; simp [parts] at now
        | dropped was =>
          rw [(wf.links.making i p (making_of_building was)).1] at live
          cases live
      · rcases child with child | gone
        · rcases hasChild_step wf (wf_step wf s) life child with kept | ⟨self, ⟨j, addr, ev⟩ | gone⟩
          · exact .inl kept
          · subst self ev; simp [parts] at now
          · exact .inr gone
        · rcases past_step life gone with gone | taken
          · exact .inr gone
          · rw [takes_unused life taken] at live; cases live

/-! ## kwaitpid -/

/-- Inside `kwaitpid` for pid `x`, before it knows what to return. -/
def inWaitpid (x : Int32) : Point → Bool
  | .waitpidScan y _ _ | .enter (.waitpid y _) | .callKilled (.waitpid y _)
  | .sleepLock (.waitpid y _) | .sleepRelease (.waitpid y _) | .sleepSwitch (.waitpid y _)
  | .asleep (.waitpid y _) => y = x
  | _ => false

/-- The most sections it may take before it sleeps. -/
def untilSleep : Point → Nat
  | .enter _ => nproc + 6
  | .waitpidScan _ _ n => nproc - n + 5
  | .callKilled _ => 4
  | .sleepLock _ => 3
  | .sleepRelease _ => 2
  | .sleepSwitch _ => 1
  | _ => 0

theorem waitpid_hold {pt pt'} (h : Hold k p pt pt') (hp : (k p).point = pt)
    (scans : Scans k) (child : HasChild k p x) (call : inWaitpid x pt = true)
    (alive : (k p).killed = false) :
    inWaitpid x pt' = true ∧ untilSleep pt' < untilSleep pt := by
  cases h with
  | pidOther pid addr j other =>
    have := j.isLt
    exact ⟨call, by simp only [untilSleep]; omega⟩
  | pidLive pid addr j => exact ⟨call, by simp only [untilSleep]; omega⟩
  | pidNone pid addr n last =>
    obtain rfl := of_decide_eq_true call
    obtain ⟨j, par, same⟩ := child
    exact absurd same (scans.passed p pid addr n hp j (lt_of_lt_of_le j.isLt last) par)
  | killed call' kill => rw [alive] at kill; cases kill
  | sleeps call' =>
    cases call' with
    | waitpid y addr => exact ⟨call, by simp [untilSleep]⟩
    | wait | recv => cases call
  | _ => cases call

theorem waitpid_act (scans : Scans k) (child : HasChild k p x)
    (call : inWaitpid x (k p).point = true) (alive : (k p).killed = false)
    (a : Act k p e k') (copied : ∀ j, e ≠ .reapFail j) : (inWaitpid x (k' p).point = true ∧
        untilSleep (k' p).point < untilSleep (k p).point) ∨
      ∃ j addr, e = .reap j x addr ∧ (k' p).point = .unlock x := by
  have flow := a.flow
  generalize hp : (k p).point = pt at flow call ⊢
  generalize (k' p).point = pt' at flow ⊢
  cases flow with
  | sect _ before => cases pt <;> first | cases call | cases before
  | hold hh => exact .inl (waitpid_hold hh hp scans child call alive)
  | enter c eq =>
    subst eq
    cases c with
    | waitpid y addr => exact .inl ⟨call, by simp [untilSleep, Call.start]⟩
    | wait | recv => cases call
  | sleepLock c | sleepRelease c | sleepSwitch c =>
    cases c with
    | waitpid y addr => exact .inl ⟨call, by simp [untilSleep]⟩
    | wait | recv => cases call
  | waitpid j pid addr n v reap =>
    rcases reap with fail | ⟨ev, rfl⟩
    · exact absurd fail (copied j)
    · obtain rfl := of_decide_eq_true call
      exact .inr ⟨j, addr, ev, rfl⟩
  | _ => cases call

/-- For a pid that `kgetchildren` has listed, and until the caller collects it or
exits, no `kwaitpid` of the caller fails for lack of a child: as long as it is
not killed and its copy of the status does not fail, it goes on towards its
sleep, or it collects a child with the pid and returns the pid. -/
theorem waitpid_finds_listed {c' : Choice}
    (h : History b (t2 ++ ⟨p, c, .children pids⟩ :: t1) k) (hx : x ∈ pids)
    (before : ∀ l ∈ t2, parts p x l = false)
    (call : inWaitpid x (k p).point = true) (alive : (k p).killed = false)
    (s : Step k ⟨p, c', e⟩ k') (copied : ∀ j, e ≠ .reapFail j) :
    (inWaitpid x (k' p).point = true ∧ (scheduling c' = false →
        untilSleep (k' p).point < untilSleep (k p).point)) ∨
      ∃ j addr, e = .reap j x addr ∧ (k' p).point = .unlock x := by
  have child : HasChild k p x := by
    refine (child_kept h hx before).2.resolve_right fun gone => ?_
    generalize (k p).point = pt at call gone
    cases pt <;> first | cases call | cases gone
  cases step_life s with
  | act go run a =>
    exact (waitpid_act (history_scans h) child call alive a copied).imp_left
      fun inside => ⟨inside.1, fun _ => inside.2⟩
  | sched go sch =>
    refine .inl ⟨(sch.at (inWaitpid x) p (by rintro (_ | _ | _) <;> rfl)).trans call, fun no => ?_⟩
    rw [go] at no
    cases no

end listed

/-- init has a child with pid 2 and is about to copy the pids of its children to address 100. -/
def listing : Schedule :=
  starts initproc 0 ++ forks initproc 1 ++ ecall initproc 25 100 10 0 .go ++
    goes initproc (1 + nproc + 1)

/-- The child exits, and init calls `kwaitpid` for pid 2 and comes to the child's slot. -/
def waiting (addr : UInt64) : Schedule :=
  returns initproc ++ starts 1 1 ++ exits 1 7 0 ++ ecall initproc 24 2 addr 0 .go ++ goes initproc 2

theorem waitpid_finds_listed_two : ∃ t1 c t2 k k',
    History pageBoot (t2 ++ ⟨initproc, c, .children [2]⟩ :: t1) k ∧
    Step k ⟨initproc, .page fun _ => true, .reap 1 2 0⟩ k' ∧
    (k' initproc).point = .unlock 2 := by
  obtain ⟨t1, e, t2, k, h, rfl, before, call, alive, hs⟩ := exec_step_exec (b := pageBoot) listing
    initproc (.page fun _ => true) (waiting 0)
    (P := fun e t2 k => e = .children [2] ∧ (∀ l ∈ t2, parts initproc 2 l = false) ∧
      inWaitpid 2 (k initproc).point = true ∧ (k initproc).killed = false ∧
      ((step k initproc (.page fun _ => true)).any fun r =>
        decide (r.2 = .reap 1 2 0 ∧ inWaitpid 2 (r.1.proc initproc).point = false)) = true)
    (by decide +kernel)
  obtain ⟨⟨k', e⟩, s, he⟩ := (Option.any_eq_true _ _).1 hs
  obtain ⟨rfl, out⟩ := of_decide_eq_true he
  refine ⟨t1, _, t2, k, k', h, s, ?_⟩
  rcases waitpid_finds_listed h (mem_singleton.2 rfl) before call alive s nofun with
    ⟨inside, -⟩ | ⟨j, addr, ev, pt⟩
  · exact absurd inside (by rw [out]; decide)
  · exact pt

/-- With a status address outside the address space the call returns -1, though
it has found the child. -/
theorem waitpid_bad_address : ∃ t1 c t2 k k',
    History pageBoot (t2 ++ ⟨initproc, c, .children [2]⟩ :: t1) k ∧
    (∀ l ∈ t2, parts initproc 2 l = false) ∧
    syscallOf (argint (k initproc).trapframe.user.a7) = .waitpid ∧
    argint (k initproc).trapframe.user.a0 = 2 ∧ (k initproc).killed = false ∧
    Step k ⟨initproc, .go, .returned (-1)⟩ k' := by
  obtain ⟨t1, e, t2, k, h, rfl, before, call, arg, alive, hs⟩ := exec_step_exec (b := pageBoot)
    listing initproc (.page fun _ => true)
    (waiting 0x10000000000 ++ [(initproc, .page fun _ => true)])
    (P := fun e t2 k => e = .children [2] ∧ (∀ l ∈ t2, parts initproc 2 l = false) ∧
      syscallOf (argint (k initproc).trapframe.user.a7) = .waitpid ∧
      argint (k initproc).trapframe.user.a0 = 2 ∧ (k initproc).killed = false ∧
      ((step k initproc .go).any fun r => decide (r.2 = .returned (-1))) = true)
    (by decide +kernel)
  obtain ⟨⟨k', e⟩, s, he⟩ := (Option.any_eq_true _ _).1 hs
  obtain rfl := of_decide_eq_true he
  exact ⟨t1, _, t2, k, k', h, before, call, arg, alive, s⟩

end OsProject.Xv6.Children
