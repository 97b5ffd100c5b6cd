import OsProject.Lib.Buffer
import OsProject.Xv6.CopyOut
import OsProject.Xv6.Family

/-! # The IPC mailbox

Each process has one mailbox. `kipc_send` fills it under `wait_lock` when it is
empty, `kipc_recv` copies a part of it out and empties it. Read as a one-place
buffer, the mailbox of the current occupant of a slot follows the buffer's
rules, whatever bytes older messages have left behind in `ipc_msg`, as long as
no message is accepted for a process that is still being made: `allocproc`
publishes the pid and `USED` before it resets the mailbox, and it does not hold
`wait_lock`. -/
namespace OsProject.Xv6.Mailbox
open Lib.Transition Lib.Buffer Memory ProcTable List
open Machine Lifecycle Table Family

/-! ## The mailbox as a buffer -/

/-- The three fields of a mailbox. -/
def mail (p : Proc) : Bool × Nat × List UInt8 := (p.ipcReady, p.ipcLen, p.ipcMsg)

/-- The message in a mailbox. -/
def box (p : Proc) : Option (List UInt8) :=
  if p.ipcReady then some (p.ipcMsg.take p.ipcLen) else none

/-- A receiver that asks for `n` bytes gets the first `n` of the message, or all of it. -/
def Cut (msg : List UInt8) (r : Nat × List UInt8) : Prop := r.2 = msg.take r.1

/-- What a step of `i` does to the mailbox of slot `p`. -/
def mailOp (p i : Slot) : Event → Option (Op (List UInt8) (Nat × List UInt8))
  | .sent target _ msg => if target = p then some (.put msg) else none
  | .received _ n bytes => if i = p then some (.take (n, bytes)) else none
  | _ => none

/-- The operations on the mailbox of the current occupant of slot `p`, newest first. -/
def mailOps (t : List Label) (p : Slot) : List (Op (List UInt8) (Nat × List UInt8)) :=
  (tenure t p).filterMap fun l => mailOp p l.actor l.event

/-- The messages accepted for the occupant of slot `p`, newest first. -/
def accepted (t : List Label) (p : Slot) : List (List UInt8) := puts (mailOps t p)

/-- What the occupant of slot `p` has received, with the lengths it asked for, newest first. -/
def received (t : List Label) (p : Slot) : List (Nat × List UInt8) := taken (mailOps t p)

/-- What the resets of `allocproc` and `freeproc` leave in a mailbox. -/
structure Drained (p q : Proc) : Prop where
  ready : q.ipcReady = true → p.ipcReady = true
  len : q.ipcLen ≤ p.ipcLen
  size : q.ipcMsg.length = p.ipcMsg.length ∨ q.ipcMsg.length = ipcMaxMsg

/-- Events of sections that change some mailbox. -/
def touches : Event → Bool
  | .reset _ | .allocFail _ | .reap _ _ _ | .sent _ _ _ | .received _ _ _ => true
  | _ => false

/-- The mailbox of `p` over a step of `i`. -/
inductive MailStep (k k' : Kernel) (i p : Slot) (e : Event) : Prop
  | same (fresh : takes p e = false) (op : mailOp p i e = none)
      (eq : mail (k' p) = mail (k p))
  | found (ev : e = .alloc p) (un : (k p).state = .unused)
      (eq : mail (k' p) = mail (k p))
  | reset (pt : building (k i).point = some p) (ev : e = .reset p)
      (drained : Drained (k p) (k' p))
  | freed (fresh : takes p e = false) (op : mailOp p i e = none) (ev : touches e = true)
      (st : (k' p).state = .unused) (drained : Drained (k p) (k' p))
  | put (pid : Int32) (msg : List UInt8) (n : Nat) (ev : e = .sent p pid msg)
      (pt : (k i).point = .sendScan pid msg n)
      (pt' : (k' i).point = .wakeup (some p) 0 (.send msg.length)) (same : (k p).pid = pid)
      (live : (k p).state ≠ .unused) (empty : (k p).ipcReady = false)
      (eq : mail (k' p) = (true, msg.length, msg ++ (k p).ipcMsg.drop msg.length))
  | took (dst : UInt64) (n : Nat) (self : p = i) (ready : (k p).ipcReady = true)
      (ev : e = .received dst n ((k p).ipcMsg.take (min (k p).ipcLen n)))
      (eq : mail (k' p) = (false, 0, (k p).ipcMsg))

section steps
variable {k k' : Kernel} {i : Slot} {c : Choice} {e : Event} {t : List Label}

theorem mail_act (a : Act k i e k') (p : Slot) : MailStep k k' i p e := by
  obtain sec | writes := a.writes
  · have ev := sec.event
    refine .same ?_ ?_ ?_
    · cases e <;> first | rfl | cases ev
    · cases e <;> first | rfl | cases ev
    · have life := sec.quiet.life p
      simp only [mail, life.ipcReady, life.ipcLen, life.ipcMsg]
  · obtain ⟨f, write, eq, -⟩ := writes p
    have box : mail (k' p) = mail (f (k p)) := by
      rw [eq]
      rfl
    have drains : Drained (k p) (f (k p)) → Drained (k p) (k' p) := by
      intro h
      rw [eq]
      exact ⟨h.ready, h.len, h.size⟩
    cases write with
    | none away | mem _ away =>
      refine .same ?_ ?_ box
      · cases e <;> first | rfl | exact away
      · cases e <;> first | rfl | exact if_neg (of_decide_eq_false away)
    | found f un => exact .found rfl un box
    | clearReady f pid pt =>
      refine .reset (by rw [pt]; rfl) rfl (drains ⟨?_, le_refl _, .inl rfl⟩)
      exact fun on => by cases on
    | clearLen f pid pt => exact .reset (by rw [pt]; rfl) rfl (drains ⟨id, Nat.zero_le _, .inl rfl⟩)
    | made f pid pt =>
      exact .reset (by rw [pt]; rfl) rfl (drains ⟨id, Nat.le_refl _, .inr length_replicate⟩)
    | allocFail f pid pt =>
      refine .freed rfl rfl rfl (by rw [eq]; rfl)
        (drains ⟨?_, Nat.zero_le _, .inr length_replicate⟩)
      exact fun on => by cases on
    | reap addr =>
      refine .freed rfl rfl rfl (by rw [eq]; rfl) (drains ⟨?_, Nat.zero_le _, .inl rfl⟩)
      exact fun on => by cases on
    | received dst n as self ready => exact .took dst n self ready rfl box
    | sent pid msg pt pt' same live empty => exact .put pid msg p.val rfl pt pt' same live empty box
    | _ => exact .same rfl rfl box

theorem mail_step (s : LifeStep k i c e k') (p : Slot) : MailStep k k' i p e := by
  cases s with
  | act go run a => exact mail_act a p
  | sched go s => exact .same rfl rfl (s.frame mail p)

/-! ## Calls and what they did -/

/-- The events of `i`'s own sections since it last trapped into the kernel, newest first. -/
def sinceTrap (i : Slot) : List Label → List Event
  | [] => []
  | l :: t =>
    if l.actor = i then
      match l.event with
      | .trap => []
      | e => e :: sinceTrap i t
    else sinceTrap i t

/-- The call has changed no mailbox so far. -/
def Idle (es : List Event) : Prop := es.filter touches = []

/-- The registers of a call of kipc_send to `pid`. -/
def SendTo (r : UserRegs) (pid : Int32) : Prop :=
  syscallOf (argint r.a7) = .ipcSend ∧ argint r.a0 = pid

/-- The registers of a call of kipc_recv for `n` bytes at `dst`. -/
def RecvAt (r : UserRegs) (dst : UInt64) (n : Nat) : Prop :=
  syscallOf (argint r.a7) = .ipcRecv ∧ r.a0 = dst ∧ (argint r.a1).toInt = n

/-- The call has accepted a message of length `n` for the process it is a send to,
and changed nothing else. -/
def Sent (r : UserRegs) (es : List Event) (n : Nat) : Prop :=
  ∃ pid target msg, SendTo r pid ∧ Event.offer pid msg ∈ es ∧
    es.filter touches = [.sent target pid msg] ∧ msg.length = n

/-- The system call is kipc_send or kipc_recv. -/
def ipcCall (r : UserRegs) : Bool :=
  match syscallOf (argint r.a7) with
  | .ipcSend | .ipcRecv => true
  | _ => false

/-- What a call with registers `r` that returns `v` from under `wait_lock` has done. -/
def Returned (r : UserRegs) (es : List Event) (v : Int32) : Prop :=
  (Idle es ∧ v = -1) ∨ (∃ n, Sent r es n ∧ n ≤ ipcMaxMsg ∧ v = Int32.ofNat n) ∨
    (∃ dst n bytes, RecvAt r dst n ∧ es.filter touches = [.received dst n bytes] ∧
      bytes.length ≤ ipcMaxMsg ∧ v = Int32.ofNat bytes.length) ∨
    (ipcCall r = false ∧ ∃ child addr, es.filter touches = [.reap child v addr])

/-- Only kipc_recv waits for a message. -/
def Call.matches (r : UserRegs) : Call → Prop
  | .wait _ | .waitpid _ _ => ipcCall r = false
  | .recv dst n => RecvAt r dst n

/-- How far the call of a process at this point has come. -/
def Progress (r : UserRegs) (es : List Event) : Point → Prop
  | .syscall => Idle es
  | .recvTest dst n => Idle es ∧ RecvAt r dst n
  | .waitScan _ _ _ | .waitpidScan _ _ _ => Idle es ∧ ipcCall r = false
  | .enter call | .callKilled call | .sleepLock call | .sleepRelease call | .sleepSwitch call
  | .asleep call => Idle es ∧ Call.matches r call
  | .sendLock pid msg | .sendScan pid msg _ =>
    Idle es ∧ SendTo r pid ∧ Event.offer pid msg ∈ es ∧ msg.length ≤ ipcMaxMsg
  | .wakeup _ _ (.send n) => Sent r es n ∧ n ≤ ipcMaxMsg
  | .unlock v => Returned r es v
  | _ => True

variable {es : List Event} {e : Event} {r : UserRegs} {p : Slot}

theorem Idle.cons (h : Idle es) (he : touches e = false) : Idle (e :: es) := by
  rw [Idle, filter_cons, he]
  exact h

theorem Idle.touch (h : Idle es) (he : touches e = true) : (e :: es).filter touches = [e] := by
  rw [filter_cons, he, if_pos rfl, h]

theorem Sent.cons {n} (h : Sent r es n) (he : touches e = false) : Sent r (e :: es) n := by
  obtain ⟨pid, target, msg, asks, offer, sent, len⟩ := h
  refine ⟨pid, target, msg, asks, mem_cons_of_mem _ offer, ?_, len⟩
  rw [filter_cons, he]
  exact sent

theorem Returned.cons {v} (h : Returned r es v) (he : touches e = false) :
    Returned r (e :: es) v := by
  have keep : (e :: es).filter touches = es.filter touches := by rw [filter_cons, he]; rfl
  rcases h with ⟨idle, hv⟩ | ⟨n, sent, hn, hv⟩ | ⟨dst, n, bytes, asks, rec, hv⟩ |
    ⟨no, child, addr, reap⟩
  · exact .inl ⟨idle.cons he, hv⟩
  · exact .inr (.inl ⟨n, sent.cons he, hn, hv⟩)
  · exact .inr (.inr (.inl ⟨dst, n, bytes, asks, keep.trans rec, hv⟩))
  · exact .inr (.inr (.inr ⟨no, child, addr, keep.trans reap⟩))

/-- A kipc_send or kipc_recv that fails has changed no mailbox: the lengths they
return otherwise are not negative. -/
theorem Returned.failed (h : Returned r es (-1)) (ipc : ipcCall r = true) : Idle es := by
  have small : ∀ n, n ≤ ipcMaxMsg → (-1 : Int32) ≠ Int32.ofNat n := by
    intro n hn
    have : ∀ n : Fin (ipcMaxMsg + 1), (-1 : Int32) ≠ Int32.ofNat n.val := by decide
    exact this ⟨n, Nat.lt_succ_of_le hn⟩
  rcases h with ⟨idle, -⟩ | ⟨n, -, hn, hv⟩ | ⟨dst, n, bytes, -, -, hn, hv⟩ | ⟨no, -⟩
  · exact idle
  · exact absurd hv (small n hn)
  · exact absurd hv (small _ hn)
  · rw [ipc] at no; cases no

theorem Progress.cons {q} (h : Progress r es q) (he : touches e = false) :
    Progress r (e :: es) q := by
  cases q with
  | wakeup c m w =>
    cases w with
    | send n => exact ⟨h.1.cons he, h.2⟩
    | _ => trivial
  | sendLock _ _ | sendScan _ _ _ =>
    obtain ⟨idle, asks, offer, len⟩ := h
    exact ⟨idle.cons he, asks, mem_cons_of_mem _ offer, len⟩
  | unlock v => exact Returned.cons h he
  | syscall => exact Idle.cons h he
  | recvTest _ _ | enter _ | waitScan _ _ _ | waitpidScan _ _ _ | callKilled _ | sleepLock _
  | sleepRelease _
  | sleepSwitch _ | asleep _ => exact ⟨h.1.cons he, h.2⟩
  | _ => trivial

theorem hold_progress {pt pt'} (h : Hold k i pt pt') (hp : Progress r es pt) :
    Progress r (.tau :: es) pt' := by
  have fail : Idle es → Progress r (.tau :: es) (.unlock (-1)) := fun idle =>
    .inl ⟨idle.cons rfl, rfl⟩
  cases h with
  | reparentSkip | reparentEnd => trivial
  | wakeSelf chan w =>
    cases w with
    | send n => exact ⟨hp.1.cons rfl, hp.2⟩
    | _ => trivial
  | wakeEnd chan n w last =>
    cases w with
    | send n => exact .inr (.inl ⟨n, hp.1.cons rfl, hp.2, rfl⟩)
    | _ => trivial
  | waitNone | pidNone | killed | sendNone => exact fail hp.1
  | sendOther => exact .cons (q := .sendScan _ _ 0) hp rfl
  | waitOther | waitLive | waitEnd | pidOther | pidLive | sleeps | recvEmpty =>
    exact ⟨hp.1.cons rfl, hp.2⟩
  | childOther | childFound => trivial

/-! ## The invariant -/

/-- The sizes of the mailboxes, and the calls under way. -/
structure Calls (t : List Label) (k : Kernel) : Prop where
  size : ∀ p, (k p).ipcMsg.length = ipcMaxMsg
  len : ∀ p, (k p).ipcLen ≤ ipcMaxMsg
  calls : ∀ p, Progress (k p).trapframe.user (sinceTrap p t) (k p).point

/-- A mailbox is empty while its owner is made, and a one-place buffer from then on. -/
structure Boxes (t : List Label) (k : Kernel) : Prop where
  quiet : ∀ m p, building (k m).point = some p → (k p).ipcReady = false
  buffer : ∀ p, ∃ x, Run (BufStep Cut) none (mailOps t p) x ∧
    ((k p).state ≠ .unused → x = box (k p))

theorem sinceTrap_other (h : p ≠ i) : sinceTrap p (⟨i, c, e⟩ :: t) = sinceTrap p t := by
  simp [sinceTrap, h.symm]

theorem sinceTrap_self (h : e ≠ .trap) : sinceTrap i (⟨i, c, e⟩ :: t) = e :: sinceTrap i t := by
  simp only [sinceTrap, if_true]

theorem sinceTrap_trap : sinceTrap i (⟨i, c, .trap⟩ :: t) = [] := by simp [sinceTrap]

theorem calls_act (hs : ∀ m, Shape m (k m)) (h : Calls t k) (run : (k i).cpu ≠ none)
    (a : Act k i e k') :
    Progress (k' i).trapframe.user (sinceTrap i (⟨i, c, e⟩ :: t)) (k' i).point := by
  have hi := h.calls i
  have now : ∀ {pt : Point}, (k i).point = pt →
      Progress (k i).trapframe.user (sinceTrap i t) pt := by
    rintro pt rfl; exact hi
  have open_ : ∀ {pt : Point}, (k' i).point = pt → (∀ r es, Progress r es pt) →
      Progress (k' i).trapframe.user (sinceTrap i (⟨i, c, e⟩ :: t)) (k' i).point := by
    intro pt hpt hp
    rw [hpt]; exact hp _ _
  -- a section inside a call leaves the trapframe alone
  have next : ∀ {pt : Point}, (k' i).point = pt → e ≠ .trap →
      (k' i).trapframe = (k i).trapframe →
      Progress (k i).trapframe.user (e :: sinceTrap i t) pt →
      Progress (k' i).trapframe.user (sinceTrap i (⟨i, c, e⟩ :: t)) (k' i).point := by
    intro pt hpt he tf hp
    rw [sinceTrap_self he, hpt, tf]
    exact hp
  cases a with
  | sect sec =>
    cases sec with
    | trap cause r pc pt =>
      rw [sinceTrap_trap, upd_self]
      rcases trapEntry_point cause r pc (k i) with hp | hp | hp <;> rw [hp]
      · trivial
      · rfl
      · trivial
    | call pt' pt start call _ recv =>
      refine next goto_point nofun goto_trapframe ?_
      have idle := Idle.cons (now pt) (e := .tau) rfl
      cases pt' with
      | enter c =>
        refine ⟨idle, ?_⟩
        cases c with
        | recv dst n =>
          have num : syscallOf (argint (k i).trapframe.user.a7) = .ipcRecv := by
            cases h : syscallOf (argint (k i).trapframe.user.a7) <;> rw [h] at call <;>
              first | rfl | cases call
          exact ⟨num, recv dst n rfl⟩
        | wait | waitpid =>
          show ipcCall _ = false
          unfold ipcCall
          split <;> first | rfl | (rename_i hc; rw [hc] at call; cases call)
      | _ => first | (cases start; done) | trivial
    | offer ok m msg pt call sign copied =>
      refine next goto_point nofun (goto_trapframe.trans (upd_frame _ rfl))
        ⟨.cons (now pt) rfl, ⟨call, rfl⟩, mem_cons_self .., ?_⟩
      rw [sendCopy_length copied]
      exact min_le_right _ _
    | ret | signal | exec | noCopy | children | finish | sigsend =>
      exact open_ ret_point fun _ _ => trivial
    | run | sigreturn | deliver | userret =>
      exact open_ (congrArg Proc.point upd_self) fun _ _ => trivial
    | killed | alive | masked | unmasked | sigNext | sigFound | sigNone | sigLoad | forkCheck
    | forkNext | killNext | sigsendNext => exact open_ goto_point fun _ _ => trivial
  | hold hh => exact next goto_point nofun goto_trapframe (hold_progress hh hi)
  | enter call pt lock =>
    refine next goto_point nofun goto_trapframe ?_
    have hp := now pt
    cases call <;> exact ⟨hp.1.cons rfl, hp.2⟩
  | wake chan j w pt ne lock =>
    refine next goto_point nofun (goto_trapframe.trans (by rw [upd_ne ne.symm])) ?_
    have hp := now pt
    cases w with
    | send n => exact ⟨hp.1.cons rfl, hp.2⟩
    | _ => trivial
  | reapFail j addr m ok pt par dead copy =>
    refine next goto_point nofun (goto_trapframe.trans (upd_frame _ rfl))
      (.inl ⟨.cons ?_ rfl, rfl⟩)
    rcases pt with ⟨n, kids, pt⟩ | ⟨n, pt⟩ <;> exact (now pt).1
  | reap j addr m ok pt par lock dead copy =>
    have hp : Idle (sinceTrap i t) ∧ ipcCall (k i).trapframe.user = false := by
      rcases pt with ⟨n, kids, pt⟩ | ⟨n, pt⟩ <;> exact now pt
    have ne : i ≠ j := by
      rintro rfl
      exact run ((hs i).zombie_inv dead lock).1
    refine next goto_point nofun ?_ (.inr (.inr (.inr ⟨hp.2, j, addr, hp.1.touch rfl⟩)))
    rw [goto_trapframe, upd_ne ne]
    exact upd_frame Proc.trapframe rfl
  | recvFail dst n m pt =>
    exact next goto_point nofun (goto_trapframe.trans (upd_frame _ rfl))
      (.inl ⟨.cons (now pt).1 rfl, rfl⟩)
  | received dst n m ok pt ready copy =>
    have hlen := h.len i
    have len : ((k i).ipcMsg.take (min (k i).ipcLen n)).length =
        min (k i).ipcLen n := by
      rw [length_take, h.size i, min_eq_left (le_trans (min_le_left _ _) hlen)]
    refine next (congrArg Proc.point upd_self) nofun (upd_frame _ rfl)
      (.inr (.inr (.inl ⟨dst, n, _, (now pt).2, Idle.touch (now pt).1 rfl, ?_, ?_⟩)))
    · rw [len]; exact le_trans (min_le_left _ _) hlen
    · rw [len]
  | sleepLock call pt | sleepSwitch call pt =>
    have hp := now pt
    exact next (congrArg Proc.point upd_self) nofun (upd_frame _ rfl)
      ⟨hp.1.cons rfl, hp.2⟩
  | sleepRelease call pt =>
    have hp := now pt
    exact next goto_point nofun goto_trapframe ⟨hp.1.cons rfl, hp.2⟩
  | sendLock pid msg pt lock =>
    exact next goto_point nofun goto_trapframe (.cons (q := .sendLock pid msg) (now pt) rfl)
  | sent pid msg p pt same live empty =>
    obtain ⟨none, asks, offer, len⟩ := now pt
    exact next goto_point nofun (goto_trapframe.trans (upd_frame _ rfl))
      ⟨⟨pid, p, msg, asks, mem_cons_of_mem _ offer, none.touch rfl, rfl⟩, len⟩
  | found | clearReady | clearLen | made | link | ready | load | exitLoad | exitSkip | exitStore
  | exitLock | adopt
  | exitUnlock | childLock | childUnlock => exact open_ goto_point fun _ _ => trivial
  | allocFail | store | unlock | kill => exact open_ ret_point fun _ _ => trivial
  | exitClose | zombie | exitSched | nap =>
    exact open_ (congrArg Proc.point upd_self) fun _ _ => trivial

theorem calls_step (hw : Wf k) (h : Calls t k) (s : LifeStep k i c e k') (p : Slot) :
    Progress (k' p).trapframe.user (sinceTrap p (⟨i, c, e⟩ :: t)) (k' p).point := by
  by_cases hp : p = i
  · subst hp
    cases s with
    | act go run a => exact calls_act hw.shape h run a
    | sched go s =>
      have hi := h.calls p
      rw [sinceTrap_self (by simp), s.frame Proc.trapframe]
      rcases s.point p with hp | ⟨call, hp0, hp⟩ | ⟨hp0, hp⟩ <;> rw [hp]
      · exact hi.cons rfl
      · rw [hp0] at hi; exact ⟨hi.1.cons rfl, hi.2⟩
      · trivial
  · rw [sinceTrap_other hp]
    have hi := h.calls p
    rcases point_step s hp with pt | ⟨-, -, pt⟩
    · rcases trapframe_step hw.shape hw.links.held s hp with tf | dead | new
      · rw [pt, tf]; exact hi
      · rw [pt, dead]; trivial
      · rw [pt, new]; trivial
    · rw [pt]; trivial

theorem mailOps_fresh : mailOps (⟨i, c, .alloc p⟩ :: t) p = [] := by
  have taken : takes p (.alloc p) = true := decide_eq_true rfl
  rw [mailOps, tenure_takes taken, filterMap_nil]

theorem mailOps_none (h : takes p e = false) (hop : mailOp p i e = none) :
    mailOps (⟨i, c, e⟩ :: t) p = mailOps t p := by
  simp only [mailOps, tenure_cons h, filterMap_cons, hop]

theorem mailOps_some {o} (h : takes p e = false)
    (hop : mailOp p i e = some o) : mailOps (⟨i, c, e⟩ :: t) p = o :: mailOps t p := by
  simp only [mailOps, tenure_cons h, filterMap_cons, hop]

theorem box_congr {p p'} (h : mail p' = mail p) : box p' = box p := by
  simp only [mail, Prod.mk.injEq] at h
  simp only [box, h]

theorem box_empty {p n msg} (h : mail p = (false, n, msg)) : box p = none := by
  simp only [mail, Prod.mk.injEq] at h
  simp [box, h]

theorem box_put {p msg rest} (h : mail p = (true, msg.length, msg ++ rest)) : box p = some msg := by
  simp only [mail, Prod.mk.injEq] at h
  simp [box, h]

/-- The mailbox keeps its size, and its length field within it. -/
theorem sizes_step (h : Calls t k) (s : LifeStep k i c e k') (p : Slot) :
    (k' p).ipcMsg.length = ipcMaxMsg ∧ (k' p).ipcLen ≤ ipcMaxMsg := by
  have size := h.size p
  have len := h.len p
  cases mail_step s p with
  | same _ _ eq | found _ _ eq =>
    simp only [mail, Prod.mk.injEq] at eq
    rw [eq.2.1, eq.2.2]
    exact ⟨size, len⟩
  | reset _ _ drained | freed _ _ _ _ drained =>
    exact ⟨drained.size.elim (·.trans size) id, le_trans drained.len len⟩
  | took dst n self ready ev eq =>
    simp only [mail, Prod.mk.injEq] at eq
    rw [eq.2.1, eq.2.2]
    exact ⟨size, Nat.zero_le _⟩
  | put pid msg n ev pt pt' same live empty eq =>
    have fits : msg.length ≤ ipcMaxMsg := by
      have := h.calls i
      rw [pt] at this
      exact this.2.2.2
    simp only [mail, Prod.mk.injEq] at eq
    rw [eq.2.1, eq.2.2, length_append, length_drop, size]
    omega

theorem box_closed {p} (h : p.ipcReady = false) : box p = none := by rw [box, h]; rfl

/-- No message is accepted for a process that is still being made. -/
def Calm (k : Kernel) (l : Label) : Prop :=
  match l.event with
  | .sent p _ _ => ∀ m, building (k m).point ≠ some p
  | _ => True

instance (k : Kernel) (l : Label) : Decidable (Calm k l) := by
  rcases l with ⟨_, _, e⟩
  cases e <;> dsimp only [Calm] <;> infer_instance

theorem quiet_step (h : Boxes t k) (hw : Wf k) (s : LifeStep k i c e k')
    (calm : Calm k ⟨i, c, e⟩) {m p} (b : building (k' m).point = some p) :
    (k' p).ipcReady = false := by
  rcases building_back hw.shape s b with rfl | b
  · have un := takes_unused s (decide_eq_true rfl)
    cases mail_step s p with
    | found _ _ eq =>
      rw [show (k' p).ipcReady = (k p).ipcReady from congrArg Prod.fst eq]
      exact ((hw.shape p).unused_inv un).2.2.2.ipcReady
    | same fresh => cases fresh.symm.trans (decide_eq_true rfl)
    | reset _ ev | freed _ _ ev | put _ _ _ ev | took _ _ _ _ ev => cases ev
  · have closed := h.quiet m p b
    cases mail_step s p with
    | same _ _ eq | found _ _ eq => exact (congrArg Prod.fst eq).trans closed
    | reset _ _ drained | freed _ _ _ _ drained =>
      refine Bool.eq_false_iff.2 fun on => ?_
      rw [drained.ready on] at closed
      cases closed
    | put pid msg n ev => subst ev; exact absurd b (calm m)
    | took _ _ _ _ _ eq => exact congrArg Prod.fst eq

theorem buffer_step (h : Boxes t k) (hw : Wf k) (s : LifeStep k i c e k') (p : Slot) :
    ∃ x, Run (BufStep Cut) none (mailOps (⟨i, c, e⟩ :: t) p) x ∧
      ((k' p).state ≠ .unused → x = box (k' p)) := by
  obtain ⟨x, run, hx⟩ := h.buffer p
  cases mail_step s p with
  | same fresh op eq =>
    rw [mailOps_none fresh op, box_congr eq]
    refine ⟨x, run, fun st => hx ((occupied_step hw s st).resolve_right ?_)⟩
    rintro rfl
    simp [takes] at fresh
  | found ev un eq =>
    subst ev
    rw [mailOps_fresh, box_congr eq, box_closed ((hw.shape p).unused_inv un).2.2.2.ipcReady]
    exact ⟨none, .nil, fun _ => rfl⟩
  | reset pt ev drained =>
    subst ev
    -- the mailbox is empty before, so the resets make no difference
    obtain ⟨used, -⟩ := hw.links.making i p (making_of_building pt)
    have empty := h.quiet i p pt
    have hbox : x = none := by
      rw [hx (by rw [used]; decide), box_closed empty]
    refine ⟨x, run, fun _ => ?_⟩
    rw [hbox, box_closed (Bool.eq_false_iff.2 fun on => ?_)]
    rw [drained.ready on] at empty
    cases empty
  | freed fresh op ev st drained =>
    rw [mailOps_none fresh op]
    exact ⟨x, run, fun live => absurd st live⟩
  | put pid msg n ev pt pt' same live empty eq =>
    subst ev
    have hbox : x = none := by rw [hx live, box_closed empty]
    subst hbox
    have op : mailOp p i (.sent p pid msg) = some (.put msg) := if_pos rfl
    rw [mailOps_some rfl op, box_put eq]
    exact ⟨some msg, .cons run (.put msg), fun _ => rfl⟩
  | took dst n self ready ev eq =>
    subst self ev
    have hst : (k p).state ≠ .unused := by
      intro un
      rw [((hw.shape p).unused_inv un).2.2.2.ipcReady] at ready
      cases ready
    have hbox : x = some ((k p).ipcMsg.take (k p).ipcLen) := by
      rw [hx hst, box, ready]; rfl
    subst hbox
    have op : mailOp p p (.received dst n ((k p).ipcMsg.take (min (k p).ipcLen n))) =
        some (.take (n, (k p).ipcMsg.take (min (k p).ipcLen n))) := if_pos rfl
    rw [mailOps_some rfl op, box_empty eq]
    refine ⟨none, .cons run (.take ?_), fun _ => rfl⟩
    rw [Cut, take_take, min_comm]

end steps

theorem boot_mail (b : Boot) (p : Slot) :
    mail ((boot b).proc p) = (false, 0, List.replicate ipcMaxMsg 0) :=
  boot_frame b p mail rfl

theorem history_calls {b t k} (h : History b t k) : Calls t k := by
  refine (h.invariant (I := fun t k => Wf k ∧ Calls t k) ⟨wf_boot b, ?_⟩ ?_).2
  · have hm := boot_mail b
    simp only [mail, Prod.mk.injEq] at hm
    refine ⟨fun p => ?_, fun p => ?_, fun p => ?_⟩
    · rw [(hm p).2.2, length_replicate]
    · rw [(hm p).2.1]; exact Nat.zero_le _
    · rcases boot_point b p with h | h <;> rw [h] <;> trivial
  · rintro t k ⟨i, c, e⟩ k' - ⟨wf, calls⟩ s
    have life := step_life s
    exact ⟨wf_step wf s, fun p => (sizes_step calls life p).1, fun p => (sizes_step calls life p).2,
      calls_step wf calls life⟩

theorem run_boxes {b t k} (h : Run (When Step Calm) (boot b) t k) : Boxes t k := by
  refine (h.invariant (I := fun t k => Wf k ∧ Boxes t k) ⟨wf_boot b, ?_⟩ ?_).2
  · exact ⟨fun _ p _ => congrArg Prod.fst (boot_mail b p),
      fun p => ⟨none, .nil, fun _ => (box_empty (boot_mail b p)).symm⟩⟩
  · rintro t k ⟨i, c, e⟩ k' - ⟨wf, boxes⟩ s
    have life := step_life s.1
    exact ⟨wf_step wf s.1, fun _ _ => quiet_step boxes wf life s.2, buffer_step boxes wf life⟩

/-! ## The protocol -/

/-- At most one message is waiting; all the others have been received, one by
one and in the order in which they were accepted. -/
def InOrder (t : List Label) (p : Slot) : Prop :=
  ∃ waiting old, accepted t p = waiting ++ old ∧ waiting.length ≤ 1 ∧
    List.Forall₂ Cut old (received t p)

/-- A receive of `bytes` at `dst` by the process `p` that becomes `p'`: it is a call
of kipc_recv(dst, n), they are the first `n` bytes of the oldest message not yet
received, and memory changes exactly at `dst`. -/
def Receives (t : List Label) (i : Slot) (p p' : Proc) (dst : UInt64) (n : Nat)
    (bytes : List UInt8) : Prop :=
  RecvAt p.trapframe.user dst n ∧ ∃ msg old, accepted t i = msg :: old ∧
    old.length = (received t i).length ∧
    msg.length ≤ ipcMaxMsg ∧ bytes = msg.take n ∧ bytes.length = min n msg.length ∧
    (∀ b, b < bytes.length → p'.mem.read (dst.toNat + b) = some (bytes.getD b 0)) ∧
    ∀ a, a < dst.toNat ∨ dst.toNat + bytes.length ≤ a → Extends p.mem p'.mem a

/-- The message of a `kipc_send(pid, src, n)` is its payload cut to the size of a mailbox. -/
def Payload (p p' : Proc) (pid : Int32) (msg : List UInt8) : Prop :=
  SendTo p.trapframe.user pid ∧ ¬ argint p.trapframe.user.a2 < 0 ∧
    msg.length = min (argint p.trapframe.user.a2).toInt.toNat ipcMaxMsg ∧
    ∀ b, b < msg.length → p'.mem.read (p.trapframe.user.a1.toNat + b) = some (msg.getD b 0)

/-- A message is accepted for the process with the pid it is sent to, whose mailbox
is empty and holds exactly this message afterwards. -/
def Accepts (p p' : Proc) (pid : Int32) (msg : List UInt8) : Prop :=
  p.pid = pid ∧ p.state ≠ .unused ∧ box p = none ∧ box p' = some msg

section protocol
variable {b : Boot} {t : List Label} {k k' : Kernel} {i : Slot} {c : Choice} {e : Event}

theorem in_order (h : Boxes t k) (p : Slot) : InOrder t p := by
  obtain ⟨x, run, -⟩ := h.buffer p
  obtain ⟨old, hp, hr⟩ := puts_eq run
  refine ⟨x.toList, old, hp, ?_, hr⟩
  cases x <;> simp

theorem receives (hc : Calls t k) (h : Boxes t k) (hw : Wf k) {dst n bytes}
    (s : LifeStep k i c (.received dst n bytes) k') :
    Receives t i (k i) (k' i) dst n bytes := by
  cases s with
  | act go run a =>
    cases a with
    | sect sec => cases sec.event
    | received _ _ m ok pt ready copy =>
      obtain ⟨x, run, hx⟩ := h.buffer i
      obtain ⟨old, hp, hr⟩ := puts_eq run
      have st : (k i).state ≠ .unused := by
        intro un
        rw [((hw.shape i).unused_inv un).2.2.2.ipcReady] at ready
        cases ready
      rw [hx st, box, ready, if_pos rfl] at hp
      have hlen := hc.len i
      have hmsg : ((k i).ipcMsg.take (k i).ipcLen).length = (k i).ipcLen := by
        rw [length_take, hc.size i, min_eq_left hlen]
      obtain ⟨written, frame⟩ := CopyOut.copyout_spec copy
      have asks := hc.calls i
      rw [pt] at asks
      refine ⟨asks.2, _, old, hp, hr.length_eq, by rw [hmsg]; exact hlen, ?_, ?_, ?_, ?_⟩
      · rw [take_take, min_comm]
      · rw [hmsg, length_take, hc.size i, min_comm n,
          min_eq_left (le_trans (min_le_left _ _) hlen)]
      · rw [upd_self]; exact written
      · rw [upd_self]; exact frame

theorem payload {pid msg} (s : LifeStep k i c (.offer pid msg) k') :
    Payload (k i) (k' i) pid msg := by
  cases s with
  | act go run a =>
    cases a with
    | sect sec =>
      cases sec with
      | offer ok m _ pt call sign copied =>
        have len := sendCopy_length copied
        refine ⟨⟨call, rfl⟩, sign, len, ?_⟩
        rw [goto_self, upd_self, len]
        unfold sendCopy at copied
        split at copied
        · exact (copyin_spec copied).2.1
        · intro b hb; omega

theorem untouched (s : LifeStep k i c e k') (h : touches e = false) (p : Slot) :
    mail (k' p) = mail (k p) := by
  cases mail_step s p with
  | same _ _ eq | found _ _ eq => exact eq
  | freed _ _ ev => rw [ev] at h; cases h
  | reset _ ev | put _ _ _ ev | took _ _ _ _ ev => rw [ev] at h; cases h

theorem accepts {p pid msg} (s : LifeStep k i c (.sent p pid msg) k') :
    Accepts (k p) (k' p) pid msg := by
  cases mail_step s p with
  | put _ _ _ ev _ _ same live empty eq =>
    cases ev
    exact ⟨same, live, box_closed empty, box_put eq⟩
  | same _ op | freed _ op => cases op.symm.trans (if_pos rfl)
  | found ev | reset _ ev | took _ _ _ _ ev => cases ev

theorem returned {v} (h : Calls t k) (s : LifeStep k i c (.returned v) k') :
    Returned (k i).trapframe.user (sinceTrap i t) v := by
  cases s with
  | act go run a =>
    cases a with
    | sect sec => cases sec.event
    | unlock _ pt =>
      have := h.calls i
      rwa [pt] at this

/-- A kipc_send or kipc_recv that returns -1, at once from `syscall` or from under
`wait_lock`, has changed no mailbox. -/
theorem failed (h : Calls t k) (s : LifeStep k i c e k')
    (ipc : ipcCall (k i).trapframe.user = true)
    (ret : (k i).point = .syscall ∨ e = .returned (-1)) :
    Idle (sinceTrap i (⟨i, c, e⟩ :: t)) := by
  have hi := h.calls i
  rcases ret with pt | rfl
  · rw [pt] at hi
    cases s with
    | act go run a =>
      have sec := trap_sect a (by rw [pt]; rfl)
      have quiet : touches e = false := by
        have ev := sec.event
        cases e <;> first | rfl | cases ev
      have inside : e ≠ .trap := by
        rintro rfl
        cases sec with
        | trap _ _ _ user => rw [pt] at user; cases user
      rw [sinceTrap_self inside]
      exact hi.cons quiet
    | sched => rw [sinceTrap_self (by simp)]; exact hi.cons rfl
  · rw [sinceTrap_self (by simp)]
    exact ((returned h s).failed ipc).cons rfl

/-- The protocol, at every step of a history in which no message is accepted for a
process that is still being made: what has been received so far is in order; a
receive is a call of kipc_recv and writes the bytes of one accepted message and
no other; a message is the payload of its send, and is accepted for the process
it is sent to; a call that returns from under `wait_lock` has accepted a message
and returns its length, or received one and returns the length received, or
collected a child, or returns -1; a kipc_send or kipc_recv that returns -1 has
changed no mailbox; and no other section of a call changes one. -/
theorem ipc_protocol {l : Label} (h : Run (When Step Calm) (boot b) t k) (s : Step k l k') :
    (∀ p, InOrder t p) ∧
    (∀ dst n bytes, l.event = .received dst n bytes →
      Receives t l.actor (k l.actor) (k' l.actor) dst n bytes) ∧
    (∀ pid msg, l.event = .offer pid msg → Payload (k l.actor) (k' l.actor) pid msg) ∧
    (∀ p pid msg, l.event = .sent p pid msg → Accepts (k p) (k' p) pid msg) ∧
    (∀ v, l.event = .returned v →
      Returned (k l.actor).trapframe.user (sinceTrap l.actor t) v) ∧
    (ipcCall (k l.actor).trapframe.user = true →
      (k l.actor).point = .syscall ∨ l.event = .returned (-1) →
      Idle (sinceTrap l.actor (l :: t))) ∧
    (touches l.event = false → ∀ p, mail (k' p) = mail (k p)) := by
  obtain ⟨i, c, e⟩ := l
  have life := step_life s
  have calls := history_calls h.of_when
  have boxes := run_boxes h
  refine ⟨in_order boxes, ?_, ?_, ?_, ?_, failed calls life, untouched life⟩
  · rintro dst n bytes rfl; exact receives calls boxes (history_wf h.of_when) life
  · rintro pid msg rfl; exact payload life
  · rintro p pid msg rfl; exact accepts life
  · rintro v rfl; exact returned calls life

end protocol

/-- A boot of a program with one writable page, whose bytes are their own offsets. -/
def pageBoot : Boot :=
  { bareBoot with
    init := ⟨⟨fun v => if v = 0 then some ⟨true, true, UInt8.ofNat⟩ else none, pgSize⟩,
      0, 0, 0, []⟩ }

/-- init sends itself three bytes from address 7 and asks for two of them at 100. -/
theorem ipc_protocol_self_send : ∃ t k l k', Run (When Step Calm) (boot pageBoot) t k ∧
    Step k l k' ∧ l.event = .received 100 2 [7, 8] ∧
    (k' initproc).mem.read 101 = some 8 := by
  obtain ⟨t, k, e, k', h, s, he⟩ := execWhen_steps Calm (boot pageBoot)
    (starts initproc 0 ++ ecall initproc 34 1 7 3 (.page fun _ => true) ++
      goes initproc (2 + (nproc + 1) + 1) ++ returns initproc ++ ecall initproc 35 100 2 0 .go ++
      goes initproc 1)
    initproc (.page fun _ => true) (fun _ _ e _ => e = .received 100 2 [7, 8]) (by decide +kernel)
  obtain ⟨-, msg, old, -, -, -, -, -, written, -⟩ := (ipc_protocol h s).2.1 _ _ _ he
  exact ⟨t, k, _, k', h, s, he, written 1 (by decide)⟩

/-- init forks twice. While it is in `allocproc` for the second child, between
`ipc_len = 0` and the `memset` of `ipc_msg`, the first child sends pid 3 the bytes 7, 8
and 9 and its call goes on to `wakeup`, where it waits for the lock of pid 3. -/
def racingSend : Schedule :=
  starts initproc 0 ++ forks initproc 1 ++ starts 1 1 ++ ecall initproc 1 0 0 0 .go ++
    goes initproc 6 ++ ecall 1 34 3 7 3 (.page fun _ => true) ++ goes 1 5

/-- init finishes the child, the send returns, and pid 3 asks for two bytes at 100. -/
def racedRecv : Schedule :=
  (initproc, .alloc .ok) :: goes 1 (nproc + 1) ++ goes initproc 4 ++ starts 2 2 ++
    ecall 2 35 100 2 0 .go ++ goes 2 1

/-- The message that `kipc_send` has accepted is wiped by `allocproc`, and `kipc_recv`
delivers two zero bytes of it. -/
theorem ipc_reset_race : ∃ t k l k', History pageBoot t k ∧ Step k l k' ∧ l.actor = 2 ∧
    accepted t 2 = [[7, 8, 9]] ∧ (∃ m ∈ t, m.actor = 1 ∧ m.event = .returned 3) ∧
    l.event = .received 100 2 [0, 0] := by
  obtain ⟨t, k, e, k', h, s, he⟩ := exec_steps (b := pageBoot) (racingSend ++ racedRecv) 2
    (.page fun _ => true) (P := fun t _ e _ => accepted t 2 = [[7, 8, 9]] ∧
      (∃ m ∈ t, m.actor = 1 ∧ m.event = .returned 3) ∧ e = .received 100 2 [0, 0])
    (by decide +kernel)
  exact ⟨t, k, _, k', h, s, rfl, he⟩

end OsProject.Xv6.Mailbox
