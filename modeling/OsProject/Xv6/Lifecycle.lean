import OsProject.Lib.Outcome
import OsProject.Xv6.Machine

/-! # What a step can do to the process table

`LifeStep` lists the sections of the kernel by what they do. The sections that
touch none of the fields which decide a process's life (its state, lock,
channel, exit status, pid, fork counter, parent, mailbox, hart) are `Sect`;
those of a `wait_lock` holder that only move its control point are `Hold`.
Later proofs split on these cases and never unfold `step`. -/
namespace OsProject.Xv6.Lifecycle
open Memory ProcTable Machine Lib.Outcome Lib.Transition
open Option (ite_none_right_eq_some ite_none_left_eq_some)

/-- The two entries agree on every field of a process's life but its control point. -/
structure SameBut (p p' : Proc) : Prop where
  locked : p'.locked = p.locked
  state : p'.state = p.state
  chan : p'.chan = p.chan
  xstate : p'.xstate = p.xstate
  pid : p'.pid = p.pid
  forkCount : p'.forkCount = p.forkCount
  parent : p'.parent = p.parent
  ipcReady : p'.ipcReady = p.ipcReady
  ipcLen : p'.ipcLen = p.ipcLen
  ipcMsg : p'.ipcMsg = p.ipcMsg
  cpu : p'.cpu = p.cpu

/-- The other fields of an entry are set. -/
theorem SameBut.rest {p p'} (same : { p' with
      locked := p.locked, state := p.state, chan := p.chan, xstate := p.xstate, pid := p.pid
      forkCount := p.forkCount, parent := p.parent, ipcReady := p.ipcReady, ipcLen := p.ipcLen
      ipcMsg := p.ipcMsg, cpu := p.cpu } = p' := by rfl) : SameBut p p' := by
  rw [← same]
  exact ⟨rfl, rfl, rfl, rfl, rfl, rfl, rfl, rfl, rfl, rfl, rfl⟩

theorem SameBut.refl (p : Proc) : SameBut p p := .rest

theorem SameBut.trans {p q r} (h1 : SameBut p q) (h2 : SameBut q r) : SameBut p r where
  locked := h2.locked.trans h1.locked
  state := h2.state.trans h1.state
  chan := h2.chan.trans h1.chan
  xstate := h2.xstate.trans h1.xstate
  pid := h2.pid.trans h1.pid
  forkCount := h2.forkCount.trans h1.forkCount
  parent := h2.parent.trans h1.parent
  ipcReady := h2.ipcReady.trans h1.ipcReady
  ipcLen := h2.ipcLen.trans h1.ipcLen
  ipcMsg := h2.ipcMsg.trans h1.ipcMsg
  cpu := h2.cpu.trans h1.cpu

variable {f : Proc → Proc} {k k' : Kernel} {i : Slot} {e : Event} {c : Choice} {n : Nat}
  {addr : UInt64} {pid : Int32}

theorem SameBut.upd (k : Kernel) (j m : Slot) (h : ∀ p, SameBut p (f p)) :
    SameBut (k m) ((k.upd j f).proc m) := by
  rw [upd_proc]
  split
  · exact h _
  · exact .refl _

/-- Points at which a process holds no lock, owes no update of a fork counter
and is not asleep or exiting. -/
def quietPoint : Point → Bool
  | .user _ _ | .syscall | .tail | .sigTest | .sigScan _ | .sigLoad _ | .sigStore _ _ | .prepare
  | .forkret | .forkCheck _ | .forkScan _ _ | .exitLoad _ | .enter _ | .sendLock _ _
  | .killScan _ _ | .sigsendScan _ _ _ | .ppid _ | .childLock _ _ | .childCopy _ _ _ _
  | .other => true
  | _ => false

/-- Events of steps that leave every process's life alone. -/
def quietEvent : Event → Bool
  | .tau | .trap | .offer _ _ | .signal _ _ | .sigsend _ _ | .sigbegin _ | .sigreturn | .exec
  | .deliver _ _ | .children _ => true
  | _ => false

/-- A step of `i` that touches no field of a process's life but `i`'s point. -/
structure Quiet (k : Kernel) (i : Slot) (k' : Kernel) : Prop where
  waitLock : k'.waitLock = k.waitLock
  life : ∀ m, SameBut (k m) (k' m)
  others : ∀ m, m ≠ i → (k' m).point = (k m).point
  before : quietPoint (k i).point = true
  after : quietPoint (k' i).point = true
  /-- the allocation loop starts only behind the test of the fork counter -/
  scan : ∀ f n, (k' i).point = .forkScan f n →
    (∃ n', (k i).point = .forkScan f n') ∨
      ((k i).point = .forkCheck f ∧ (k i).forkCount < 10)

/-- The first points of the system calls that do not finish inside `syscall`. -/
def callPoint : Point → Bool
  | .forkCheck _ | .exitLoad _ | .enter _ | .killScan _ _ | .sigsendScan _ _ _ | .ppid _
  | .childLock _ _ | .other => true
  | _ => false

/-- The system calls that go to this point from `syscall`. -/
def opens : Point → Syscall → Bool
  | .forkCheck .fork, .fork | .forkCheck (.thread _ _), .threadCreate | .exitLoad _, .exit
  | .exitLoad _, .threadExit | .enter (.wait _), .wait | .enter (.waitpid _ _), .waitpid
  | .enter (.waitpid _ _), .threadJoin | .enter (.recv _ _), .ipcRecv | .killScan _ _, .kill
  | .sigsendScan _ _ _, .sigsend | .ppid _, .getppid | .childLock _ _, .getchildren
  | .other, .other => true
  | _, _ => false

/-- The points from which a system call returns without having changed anything. -/
def retPoint : Point → Bool
  | .syscall | .forkCheck _ | .forkScan _ _ | .killScan _ _ | .sigsendScan _ _ _ | .ppid _ => true
  | _ => false

/-- The sections that leave every process's life alone: user code, the entry
and the exit of `usertrap` with the signal loop, the calls that work on the
caller's own registers, memory and handlers, and the loops that only look. -/
inductive Sect (k : Kernel) (i : Slot) : Event → Kernel → Prop
  | run (r r' : UserRegs) (pc pc' : UInt64) (stores : List (Nat × UInt8))
      (pt : (k i).point = .user r pc) :
      Sect k i .tau (k.upd i fun p => { p with
        point := .user r' pc', mem := stores.foldl (fun m s => m.store s.1 s.2) p.mem })
  | trap (c : Cause) (r : UserRegs) (pc : UInt64) (pt : (k i).point = .user r pc) :
      Sect k i .trap (k.upd i (trapEntry c r pc))
  | call (pt' : Point) (pt : (k i).point = .syscall) (start : callPoint pt' = true)
      (call : opens pt' (syscallOf (argint (k i).trapframe.user.a7)) = true)
      (ppid : ∀ q, pt' = .ppid q → (k i).parent = some q)
      (recv : ∀ dst n, pt' = .enter (.recv dst n) → (k i).trapframe.user.a0 = dst ∧
        (argint (k i).trapframe.user.a1).toInt = n) :
      Sect k i .tau (k.goto i pt')
  | ret (v : UInt64) (pt : retPoint (k i).point = true) : Sect k i .tau (k.ret i v)
  | signal (s : Fin nsig) (h : UInt64) (pt : (k i).point = .syscall) :
      Sect k i (.signal s h) ((k.upd i (sysSignal s h)).ret i 0)
  | sigreturn (pt : (k i).point = .syscall) : Sect k i .sigreturn (k.upd i sysSigreturn)
  | exec (img : Image) (pt : (k i).point = .syscall) :
      Sect k i .exec ((k.upd i (kexecCommit img)).ret i img.argc)
  | noCopy (m : AddrSpace) (v : UInt64) (pt : (k i).point = .syscall) :
      Sect k i .tau ((k.upd i fun p => { p with mem := m }).ret i v)
  | offer (ok : Nat → Bool) (m : AddrSpace) (msg : List UInt8) (pt : (k i).point = .syscall)
      (call : syscallOf (argint (k i).trapframe.user.a7) = .ipcSend)
      (sign : ¬ argint (k i).trapframe.user.a2 < 0)
      (copied : sendCopy ok (k i).mem (k i).trapframe.user.a1
        (min (argint (k i).trapframe.user.a2).toInt.toNat ipcMaxMsg) = (m, some msg)) :
      Sect k i (.offer (argint (k i).trapframe.user.a0) msg)
        ((k.upd i fun p => { p with mem := m }).goto i
          (.sendLock (argint (k i).trapframe.user.a0) msg))
  | killed (pt : (k i).point = .tail) : Sect k i .tau (k.goto i (.exitLoad (-1)))
  | alive (pt : (k i).point = .tail) : Sect k i .tau (k.goto i .sigTest)
  | masked (pt : (k i).point = .sigTest) (handling : (k i).handlingSignal = true) :
      Sect k i .tau (k.goto i .prepare)
  | unmasked (pt : (k i).point = .sigTest) (handling : (k i).handlingSignal = false) :
      Sect k i .tau (k.goto i (.sigScan 0))
  | sigNext (n : Nat) (pt : (k i).point = .sigScan n) : Sect k i .tau (k.goto i (.sigScan (n + 1)))
  | sigFound (s : Fin nsig) (pt : (k i).point = .sigScan s.val)
      (pending : (k i).pendingSignals.getLsbD s.val = true)
      (handler : (k i).signalHandlers s ≠ noHandler) :
      Sect k i (.sigbegin s) (k.goto i (.sigLoad s))
  | sigNone (n : Nat) (pt : (k i).point = .sigScan n) : Sect k i .tau (k.goto i .prepare)
  | sigLoad (s : Fin nsig) (pt : (k i).point = .sigLoad s) :
      Sect k i .tau (k.goto i (.sigStore s (k i).pendingSignals))
  | deliver (s : Fin nsig) (w : BitVec 32) (pt : (k i).point = .sigStore s w) :
      Sect k i (.deliver s (k i).trapframe) (k.upd i (Machine.deliver s w))
  | userret (h : Nat) (pt : (k i).point = .prepare ∨ (k i).point = .forkret)
      (cpu : (k i).cpu = some h) : Sect k i .tau (k.upd i (prepareReturn k i h))
  | forkCheck (f : Fork) (pt : (k i).point = .forkCheck f) (room : (k i).forkCount < 10) :
      Sect k i .tau (k.goto i (.forkScan f 0))
  | forkNext (f : Fork) (n : Nat) (pt : (k i).point = .forkScan f n) :
      Sect k i .tau (k.goto i (.forkScan f (n + 1)))
  | killNext (pid : Int32) (n : Nat) (pt : (k i).point = .killScan pid n) :
      Sect k i .tau (k.goto i (.killScan pid (n + 1)))
  | sigsendNext (pid : Int32) (s : Fin nsig) (n : Nat)
      (pt : (k i).point = .sigsendScan pid s n) :
      Sect k i .tau (k.goto i (.sigsendScan pid s (n + 1)))
  | sigsend (pid : Int32) (s : Fin nsig) (j : Slot)
      (pt : (k i).point = .sigsendScan pid s j.val) (same : (k j).pid = pid)
      (lock : (k j).locked = false) :
      Sect k i (.sigsend j s) ((k.upd j (raise s)).ret i 0)
  | children (addr : UInt64) (maxn : Int32) (l pids : List Int32) (n : Nat) (m : AddrSpace)
      (v : UInt64) (pt : (k i).point = .childCopy addr maxn l n) (sub : pids ⊆ l) :
      Sect k i (.children pids) ((k.upd i fun p => { p with mem := m }).ret i v)
  | finish (v : UInt64) (mem : AddrSpace) (ofile : Fin nofile → Option Nat) (cwd : Option Nat)
      (pt : (k i).point = .other) :
      Sect k i .tau
        ((k.upd i fun p => { p with mem := mem, ofile := ofile, cwd := cwd }).ret i v)

/-- Steps of the holder of `wait_lock` that only move its control point. -/
inductive Hold (k : Kernel) (i : Slot) : Point → Point → Prop
  | reparentSkip (status : Int32) (j : Slot) (par : (k j).parent ≠ some i) :
      Hold k i (.exitReparent status j.val) (.exitReparent status (j.val + 1))
  | reparentEnd (status : Int32) (n : Nat) (last : nproc ≤ n) :
      Hold k i (.exitReparent status n) (.wakeup (k i).parent 0 (.exit status))
  | wakeSelf (chan : Option Slot) (w : Wake) :
      Hold k i (.wakeup chan i.val w) (.wakeup chan (i.val + 1) w)
  | wakeEnd (chan : Option Slot) (n : Nat) (w : Wake) (last : nproc ≤ n) :
      Hold k i (.wakeup chan n w) (Wake.next w)
  | waitOther (addr : UInt64) (j : Slot) (kids : Bool) (par : (k j).parent ≠ some i) :
      Hold k i (.waitScan addr j.val kids) (.waitScan addr (j.val + 1) kids)
  | waitLive (addr : UInt64) (j : Slot) (kids : Bool) (par : (k j).parent = some i)
      (live : (k j).state ≠ .zombie) :
      Hold k i (.waitScan addr j.val kids) (.waitScan addr (j.val + 1) true)
  | waitEnd (addr : UInt64) (n : Nat) (last : nproc ≤ n) :
      Hold k i (.waitScan addr n true) (.callKilled (.wait addr))
  | waitNone (addr : UInt64) (n : Nat) (last : nproc ≤ n) :
      Hold k i (.waitScan addr n false) (.unlock (-1))
  | pidOther (pid : Int32) (addr : UInt64) (j : Slot)
      (other : ¬ ((k j).parent = some i ∧ (k j).pid = pid)) :
      Hold k i (.waitpidScan pid addr j.val) (.waitpidScan pid addr (j.val + 1))
  | pidLive (pid : Int32) (addr : UInt64) (j : Slot) (par : (k j).parent = some i)
      (same : (k j).pid = pid) (live : (k j).state ≠ .zombie) :
      Hold k i (.waitpidScan pid addr j.val) (.callKilled (.waitpid pid addr))
  | pidNone (pid : Int32) (addr : UInt64) (n : Nat) (last : nproc ≤ n) :
      Hold k i (.waitpidScan pid addr n) (.unlock (-1))
  | recvEmpty (dst : UInt64) (n : Nat) (empty : (k i).ipcReady = false) :
      Hold k i (.recvTest dst n) (.callKilled (.recv dst n))
  | killed (c : Call) (kill : (k i).killed = true) : Hold k i (.callKilled c) (.unlock (-1))
  | sleeps (c : Call) : Hold k i (.callKilled c) (.sleepLock c)
  | sendOther (pid : Int32) (msg : List UInt8) (j : Slot) :
      Hold k i (.sendScan pid msg j.val) (.sendScan pid msg (j.val + 1))
  | sendNone (pid : Int32) (msg : List UInt8) (n : Nat) :
      Hold k i (.sendScan pid msg n) (.unlock (-1))
  | childOther (addr : UInt64) (maxn : Int32) (j : Slot) (pids : List Int32) (n : Nat) :
      Hold k i (.childScan addr maxn j.val pids n) (.childScan addr maxn (j.val + 1) pids n)
  | childFound (addr : UInt64) (maxn : Int32) (j : Slot) (pids : List Int32) (n : Nat)
      (par : (k j).parent = some i) (used : (k j).state ≠ .unused)
      (live : (k j).state ≠ .zombie) :
      Hold k i (.childScan addr maxn j.val pids n) (.childScan addr maxn (j.val + 1)
        (if (n : Int) < maxn.toInt then pids ++ [(k j).pid] else pids) (n + 1))

/-- The sections of the running process `i`, by their effect on the processes' lives. -/
inductive Act (k : Kernel) (i : Slot) : Event → Kernel → Prop
  | sect {e : Event} {k' : Kernel} (s : Sect k i e k') : Act k i e k'
  | found (f : Fork) (j : Slot) (pt : (k i).point = .forkScan f j.val)
      (free : (k j).state = .unused) :
      Act k i (.alloc j) (({ k with nextpid := k.nextpid + 1 }.upd j (allocFound · k.nextpid)).goto
        i (.allocReady f j k.nextpid))
  | clearReady (f : Fork) (j : Slot) (pid : Int32) (pt : (k i).point = .allocReady f j pid) :
      Act k i (.reset j)
        ((k.upd j fun np => { np with ipcReady := false }).goto i (.allocLen f j pid))
  | clearLen (f : Fork) (j : Slot) (pid : Int32) (pt : (k i).point = .allocLen f j pid) :
      Act k i (.reset j) ((k.upd j fun np => { np with ipcLen := 0 }).goto i (.allocRest f j pid))
  | made (f : Fork) (j : Slot) (pid : Int32) (pt : (k i).point = .allocRest f j pid) :
      Act k i (.reset j) ((k.upd j fun np =>
        release (forkCopy f (k i) (allocproc np))).goto i (.forkLink j pid))
  | allocFail (f : Fork) (j : Slot) (pid : Int32) (pt : (k i).point = .allocRest f j pid) :
      Act k i (.allocFail j)
        ((k.upd j fun np => release (freeproc (allocReset np))).ret i (ofInt (-1)))
  | link (j : Slot) (pid : Int32) (pt : (k i).point = .forkLink j pid)
      (lock : k.waitLock = none) :
      Act k i .tau ((k.upd j fun np => { np with parent := some i }).goto i (.forkReady j pid))
  | ready (j : Slot) (pid : Int32) (pt : (k i).point = .forkReady j pid)
      (lock : (k j).locked = false) :
      Act k i .tau ((k.upd j fun np => { np with state := .runnable }).goto i (.forkLoad pid))
  | load (pid : Int32) (pt : (k i).point = .forkLoad pid) :
      Act k i .tau (k.goto i (.forkStore pid (k i).forkCount))
  | store (pid : Int32) (v : Int) (pt : (k i).point = .forkStore pid v) :
      Act k i .tau ((k.upd i fun p => { p with forkCount := v + 1 }).ret i (ofInt pid))
  | exitLoad (status : Int32) (q : Slot) (pt : (k i).point = .exitLoad status)
      (par : (k i).parent = some q) :
      Act k i .tau (k.goto i (.exitStore status q (k q).forkCount))
  | exitSkip (status : Int32) (pt : (k i).point = .exitLoad status)
      (par : (k i).parent = none) : Act k i .tau (k.goto i (.exitClose status))
  | exitStore (status : Int32) (q : Slot) (v : Int)
      (pt : (k i).point = .exitStore status q v) :
      Act k i .tau
        ((k.upd q fun p => { p with forkCount := v - 1 }).goto i (.exitClose status))
  | exitClose (status : Int32) (pt : (k i).point = .exitClose status) (ne : i ≠ initproc) :
      Act k i .tau (k.upd i fun p =>
        { p with ofile := fun _ => none, cwd := none, point := .exitLock status })
  | exitLock (status : Int32) (pt : (k i).point = .exitLock status)
      (lock : k.waitLock = none) :
      Act k i .tau ({ k with waitLock := some i }.goto i (.exitReparent status 0))
  | adopt (status : Int32) (j : Slot) (pt : (k i).point = .exitReparent status j.val)
      (par : (k j).parent = some i) :
      Act k i .tau ((k.upd j fun pp => { pp with parent := some initproc }).goto i
        (.wakeup (some initproc) 0 (.reparent status j.val)))
  | wake (chan : Option Slot) (j : Slot) (w : Wake) (pt : (k i).point = .wakeup chan j.val w)
      (ne : j ≠ i) (lock : (k j).locked = false) :
      Act k i .tau
        ((k.upd j (Machine.wake chan)).goto i (.wakeup chan (j.val + 1) w))
  | zombie (status : Int32) (pt : (k i).point = .exitZombie status) :
      Act k i (.exit status) (k.upd i fun p =>
        { p with locked := true, xstate := status, state := .zombie, point := .exitUnlock })
  | exitUnlock (pt : (k i).point = .exitUnlock) :
      Act k i .tau ({ k with waitLock := none }.goto i .exitSched)
  | exitSched (pt : (k i).point = .exitSched) :
      Act k i .tau (k.upd i fun p => { p with locked := false, cpu := none, point := .dead })
  | enter (c : Call) (pt : (k i).point = .enter c) (lock : k.waitLock = none) :
      Act k i .tau ({ k with waitLock := some i }.goto i (Call.start c))
  | hold {pt' : Point} (h : Hold k i (k i).point pt') : Act k i .tau (k.goto i pt')
  | reapFail (j : Slot) (addr : UInt64) (m : AddrSpace) (ok : Nat → Bool)
      (pt : (∃ n kids, (k i).point = .waitScan addr n kids) ∨
        ∃ n, (k i).point = .waitpidScan (k j).pid addr n)
      (par : (k j).parent = some i) (dead : (k j).state = .zombie)
      (copy : copyStatus ok (k i).mem addr (k j).xstate = (m, false)) :
      Act k i (.reapFail j)
        ((k.upd i fun p => { p with mem := m }).goto i (.unlock (-1)))
  | reap (j : Slot) (addr : UInt64) (m : AddrSpace) (ok : Nat → Bool)
      (pt : (∃ n kids, (k i).point = .waitScan addr n kids) ∨
        ∃ n, (k i).point = .waitpidScan (k j).pid addr n)
      (par : (k j).parent = some i) (lock : (k j).locked = false)
      (dead : (k j).state = .zombie)
      (copy : copyStatus ok (k i).mem addr (k j).xstate = (m, true)) :
      Act k i (.reap j (k j).pid addr)
        (((k.upd i fun p => { p with mem := m }).upd j freeproc).goto i (.unlock (k j).pid))
  | recvFail (dst : UInt64) (n : Nat) (m : AddrSpace) (pt : (k i).point = .recvTest dst n) :
      Act k i .tau ((k.upd i fun p => { p with mem := m }).goto i (.unlock (-1)))
  | received (dst : UInt64) (n : Nat) (m : AddrSpace) (ok : Nat → Bool)
      (pt : (k i).point = .recvTest dst n) (ready : (k i).ipcReady = true)
      (copy : copyout ok (k i).mem dst.toNat
        ((k i).ipcMsg.take (min (k i).ipcLen n)) = (m, true)) :
      Act k i (.received dst n ((k i).ipcMsg.take (min (k i).ipcLen n)))
        (k.upd i fun p =>
          { p with
            mem := m, ipcReady := false, ipcLen := 0
            point := .unlock (Int32.ofNat (min (k i).ipcLen n)) })
  | sleepLock (c : Call) (pt : (k i).point = .sleepLock c) :
      Act k i .tau (k.upd i fun p => { p with locked := true, point := .sleepRelease c })
  | sleepRelease (c : Call) (pt : (k i).point = .sleepRelease c) :
      Act k i .tau ({ k with waitLock := none }.goto i (.sleepSwitch c))
  | sleepSwitch (c : Call) (pt : (k i).point = .sleepSwitch c) :
      Act k i .tau (k.upd i fun p =>
        { p with
          locked := false, chan := some (.proc i), state := .sleeping, cpu := none
          point := .asleep c })
  | unlock (v : Int32) (pt : (k i).point = .unlock v) :
      Act k i (.returned v) ({ k with waitLock := none }.ret i (ofInt v))
  | sendLock (pid : Int32) (msg : List UInt8) (pt : (k i).point = .sendLock pid msg)
      (lock : k.waitLock = none) :
      Act k i .tau ({ k with waitLock := some i }.goto i (.sendScan pid msg 0))
  | sent (pid : Int32) (msg : List UInt8) (t : Slot)
      (pt : (k i).point = .sendScan pid msg t.val) (same : (k t).pid = pid)
      (live : (k t).state ≠ .unused) (empty : (k t).ipcReady = false) :
      Act k i (.sent t pid msg)
        ((k.upd t (putMail msg)).goto i (.wakeup (some t) 0 (.send msg.length)))
  | kill (pid : Int32) (j : Slot) (pt : (k i).point = .killScan pid j.val)
      (same : (k j).pid = pid) (lock : (k j).locked = false) :
      Act k i .tau ((k.upd j Machine.kill).ret i 0)
  | childLock (addr : UInt64) (maxn : Int32) (pt : (k i).point = .childLock addr maxn)
      (lock : k.waitLock = none) :
      Act k i .tau ({ k with waitLock := some i }.goto i (.childScan addr maxn 0 [] 0))
  | childUnlock (addr : UInt64) (maxn : Int32) (m : Nat) (pids : List Int32) (n : Nat)
      (pt : (k i).point = .childScan addr maxn m pids n) :
      Act k i .tau ({ k with waitLock := none }.goto i (.childCopy addr maxn pids n))
  | nap (n : Nat) (pt : (k i).point = .other) :
      Act k i .tau (k.upd i fun p =>
        { p with chan := some (.other n), state := .sleeping, cpu := none, point := .napping })

/-- Choices of the scheduler and of interrupts, which do not advance a thread. -/
def scheduling : Choice → Bool
  | .yield | .dispatch _ | .rouse => true
  | _ => false

theorem step_section {k : Kernel} {i : Slot} {c : Choice} (on : (k i).cpu ≠ none)
    (go : scheduling c = false) : step k i c = threadStep k i c (k i).point := by
  cases c with
  | yield | dispatch | rouse => cases go
  | _ => exact if_neg on

/-- What the scheduler, or a `wakeup` on a channel outside the table, does to `i`. -/
inductive Sched (k : Kernel) (i : Slot) : Kernel → Prop
  | yield (run : (k i).cpu ≠ none) (pt : Point.preemptible (k i).point = true) :
      Sched k i (k.upd i fun p => { p with state := .runnable, cpu := none })
  | dispatch (h : Nat) (st : (k i).state = .runnable) (lock : (k i).locked = false)
      (idle : ∀ j, (k j).cpu ≠ some h) :
      Sched k i (k.upd i fun p => { resume p with state := .running, cpu := some h })
  | rouse (n : Nat) (ch : (k i).chan = some (.other n)) (st : (k i).state = .sleeping) :
      Sched k i (k.upd i fun p => { p with state := .runnable })

/-- A step of process `i`: a section of its thread while it is on some hart, or
a scheduler acting on it. -/
inductive LifeStep (k : Kernel) (i : Slot) (c : Choice) : Event → Kernel → Prop
  | act {e : Event} {k' : Kernel} (go : scheduling c = false) (run : (k i).cpu ≠ none)
      (a : Act k i e k') : LifeStep k i c e k'
  | sched {k' : Kernel} (go : scheduling c = true) (s : Sched k i k') : LifeStep k i c .tau k'

section sched
variable (s : Sched k i k')
include s

/-- A scheduler writes the state, the channel, the hart and the control point alone. -/
theorem Sched.frame {β : Type*} (g : Proc → β) (m : Slot)
    (same : ∀ p st ch cpu pt, g { p with state := st, chan := ch, cpu := cpu, point := pt } =
      g p := by intros; rfl) :
    g (k' m) = g (k m) := by
  cases s with
  | yield | rouse => exact upd_frame g (same ..)
  | dispatch =>
    refine upd_frame g ?_
    unfold resume
    split <;> exact same (k i) _ _ _ _

/-- It moves a process out of its sleep, or not at all. -/
theorem Sched.point (m : Slot) : (k' m).point = (k m).point ∨
    (∃ c, (k m).point = .asleep c ∧ (k' m).point = .enter c) ∨
      (k m).point = .napping ∧ (k' m).point = .other := by
  cases s with
  | yield | rouse => exact .inl (upd_frame Proc.point rfl)
  | dispatch =>
    by_cases hm : m = i
    · subst hm
      rw [upd_self]
      unfold resume
      split
      · exact .inr (.inl ⟨_, ‹_›, rfl⟩)
      · exact .inr (.inr ⟨‹_›, rfl⟩)
      · exact .inl rfl
    · rw [upd_ne hm]
      exact .inl rfl

/-- What does not tell a sleep from the point behind it stays as it is. -/
theorem Sched.at {β : Type*} (g : Point → β) (m : Slot)
    (sleep : ∀ c, g (.asleep c) = g (.enter c) := by intro; first | rfl | simp)
    (nap : g .napping = g .other := by first | rfl | simp) : g (k' m).point = g (k m).point := by
  obtain pt | ⟨c, pt, pt'⟩ | ⟨pt, pt'⟩ := s.point m
  · rw [pt]
  · rw [pt, pt', sleep]
  · rw [pt, pt', nap]

end sched

/-! ## Every step is one of these -/

/-- A step that rewrites the caller's own entry, and in it no field of its life. -/
theorem Quiet.upd (same : SameBut (k i) (f (k i)))
    (before : quietPoint (k i).point = true) (after : quietPoint (f (k i)).point = true)
    (scan : ∀ g n, (f (k i)).point = .forkScan g n →
      (∃ n', (k i).point = .forkScan g n') ∨
        ((k i).point = .forkCheck g ∧ (k i).forkCount < 10) := by rintro _ _ ⟨⟩) :
    Quiet k i (k.upd i f) where
  waitLock := rfl
  life m := by
    by_cases hm : m = i
    · subst hm; rw [upd_self]; exact same
    · rw [upd_ne hm]; exact .refl _
  others m hm := by rw [upd_ne hm]
  before := before
  after := by rw [upd_self]; exact after
  scan := by rw [upd_self]; exact scan

/-- Moving the caller between two quiet points. -/
theorem Quiet.goto {pt} (before : quietPoint (k i).point = true) (after : quietPoint pt = true)
    (scan : ∀ g n, pt = .forkScan g n → (∃ n', (k i).point = .forkScan g n') ∨
      ((k i).point = .forkCheck g ∧ (k i).forkCount < 10) := by rintro _ _ ⟨⟩) :
    Quiet k i (k.goto i pt) :=
  .upd (f := fun p => { p with point := pt }) .rest before after scan

/-- Rewriting private fields and returning from a system call. -/
theorem Quiet.ret {v} (same : SameBut (k i) (f (k i)))
    (before : quietPoint (k i).point = true) : Quiet k i ((k.upd i f).ret i v) := by
  unfold Kernel.ret
  rw [upd_upd]
  exact .upd (same.trans .rest) before rfl

theorem Quiet.ret_only {v} (before : quietPoint (k i).point = true) : Quiet k i (k.ret i v) :=
  .upd (f := fun p => { p with trapframe := p.trapframe.setA0 v, point := .tail }) .rest before rfl

theorem trapEntry_same (c : Cause) (r : UserRegs) (pc : UInt64) (p : Proc) :
    SameBut p (trapEntry c r pc p) := by
  unfold trapEntry
  cases c with
  | syscall | pageFault => dsimp only; split <;> exact .rest
  | interrupt | unexpected => exact .rest

theorem trapEntry_point (c : Cause) (r : UserRegs) (pc : UInt64) (p : Proc) :
    (trapEntry c r pc p).point = .exitLoad (-1) ∨ (trapEntry c r pc p).point = .syscall ∨
      (trapEntry c r pc p).point = .tail := by
  unfold trapEntry
  cases c with
  | syscall | pageFault => dsimp only; split <;> simp
  | interrupt | unexpected => simp

/-- A `kipc_send` copies at most a mailbox full of bytes in. -/
theorem sendCopy_length {ok m m' src len msg} (h : sendCopy ok m src len = (m', some msg)) :
    msg.length = len := by
  unfold sendCopy at h
  split at h
  · exact (copyin_spec h).1
  · cases h
    simp only [List.length_nil]
    omega

theorem Sect.event (h : Sect k i e k') : quietEvent e = true := by
  cases h <;> rfl

theorem Sect.quiet (h : Sect k i e k') : Quiet k i k' := by
  cases h with
  | run _ _ _ _ _ pt | sigreturn pt | deliver _ _ pt => exact .upd .rest (by rw [pt]; rfl) rfl
  | trap c r pc pt =>
    refine .upd (trapEntry_same c r pc _) (by rw [pt]; rfl) ?_ ?_
    · rcases trapEntry_point c r pc (k i) with hp | hp | hp <;> rw [hp] <;> rfl
    · intro g n hs
      rcases trapEntry_point c r pc (k i) with hp | hp | hp <;> rw [hp] at hs <;> cases hs
  | call pt' pt start call ppid =>
    cases pt' <;> first | (cases start; done) | exact .goto (by rw [pt]; rfl) rfl
  | ret v pt =>
    refine .ret_only ?_
    generalize (k i).point = p at pt
    cases p <;> first | (cases pt; done) | rfl
  | signal _ _ pt | exec _ pt | noCopy _ _ pt | children _ _ _ _ _ _ _ pt | finish _ _ _ _ pt =>
    exact .ret .rest (by rw [pt]; rfl)
  | offer ok m msg pt call sign copied =>
    unfold Kernel.goto
    rw [upd_upd]
    exact .upd .rest (by rw [pt]; rfl) rfl
  | killed pt | alive pt | masked pt | unmasked pt | sigNext _ pt | sigFound _ pt | sigNone _ pt
  | sigLoad _ pt | killNext _ _ pt | sigsendNext _ _ _ pt => exact .goto (by rw [pt]; rfl) rfl
  | userret h pt cpu =>
    refine .upd .rest ?_ rfl
    rcases pt with pt | pt <;> rw [pt] <;> rfl
  | forkCheck f pt room =>
    refine .goto (by rw [pt]; rfl) rfl ?_
    rintro _ _ ⟨⟩
    exact .inr ⟨pt, room⟩
  | forkNext f n pt =>
    refine .goto (by rw [pt]; rfl) rfl ?_
    rintro _ _ ⟨⟩
    exact .inl ⟨n, pt⟩
  | sigsend pid s j pt same lock =>
    -- the target keeps its life, whether or not it is the caller itself
    have hsame : ∀ m, SameBut (k m) (((k.upd j (raise s)).ret i 0).proc m) := by
      intro m
      refine (SameBut.upd k j m (f := raise s) fun p => ?_).trans
        (SameBut.upd _ i m fun p => ?_) <;> exact .rest
    refine ⟨rfl, hsame, fun m hm => ?_, by rw [pt]; rfl, by rw [ret_point]; rfl, ?_⟩
    · rw [ret_ne hm]
      exact upd_frame Proc.point rfl
    · intro g n h; rw [ret_point] at h; cases h

/-- What the step comes to is one of the sections. -/
def Acts (k : Kernel) (i : Slot) (r : Option (Kernel × Event)) : Prop :=
  Yields r fun x => Act k i x.2 x.1

theorem Acts.sect (s : Sect k i e k') : Acts k i (some (k', e)) := .some (.sect s)

theorem Acts.holds {pt pt'} (pt0 : (k i).point = pt) (h : Hold k i pt pt') :
    Acts k i (some (k.goto i pt', .tau)) :=
  .some (.hold (pt0 ▸ h))

theorem userStep_life {r pc} (pt : (k i).point = .user r pc) :
    Acts k i (userStep k i r pc c) := by
  cases c with
  | run r' pc' stores => exact .sect (.run r r' pc pc' stores pt)
  | trap c => exact .sect (.trap c r pc pt)
  | _ => exact .none

theorem syscallStep_life (pt : (k i).point = .syscall) : Acts k i (syscallStep k i c) := by
  have hr : retPoint (k i).point = true := by rw [pt]; rfl
  unfold syscallStep
  dsimp only
  split
  case h_1 | h_2 | h_3 | h_4 | h_5 | h_6 | h_7 | h_8 | h_17 | h_18 =>
    exact .sect (.call _ pt rfl (by rw [‹syscallOf _ = _›]; rfl) nofun nofun)
  case h_9 | h_19 => exact .sect (.ret _ hr)
  case h_10 =>
    split
    · rename_i q par
      exact .sect (.call _ pt rfl (by rw [‹syscallOf _ = _›]; rfl)
        (by rintro _ ⟨⟩; exact par) nofun)
    · exact .sect (.ret _ hr)
  case h_11 =>
    split
    · exact .sect (.signal _ _ pt)
    · exact .sect (.ret _ hr)
  case h_12 =>
    split
    · exact .sect (.call _ pt rfl (by rw [‹syscallOf _ = _›]; rfl) nofun nofun)
    · exact .sect (.ret _ hr)
  case h_13 => exact .sect (.sigreturn pt)
  case h_14 =>
    split
    · exact .sect (.ret _ hr)
    · exact .sect (.exec _ pt)
    · exact .none
  case h_15 =>
    split
    · rename_i ok
      unfold kipcSendCopy
      split
      · exact .sect (.ret _ hr)
      · rename_i sign
        split
        · exact .sect (.noCopy _ _ pt)
        · rename_i copied
          exact .sect (.offer ok _ _ pt ‹_› sign copied)
    · exact .none
  case h_16 =>
    split
    · exact .sect (.ret _ hr)
    · rename_i sign
      refine .sect (.call _ pt rfl (by rw [‹syscallOf _ = _›]; rfl) nofun ?_)
      rintro _ _ ⟨⟩
      exact ⟨rfl, (Int.toNat_of_nonneg (Int32.le_iff_toInt_le.1 (Int32.not_lt.1 sign))).symm⟩

theorem slotAt_some {j} (h : slotAt n = some j) : n = j.val := by
  unfold slotAt at h
  split at h
  · rw [← Option.some.inj h]
  · cases h

theorem slotAt_none (h : slotAt n = none) : nproc ≤ n := by
  unfold slotAt at h
  split at h
  · cases h
  · omega

@[simp] theorem slotAt_val (j : Slot) : slotAt j.val = some j := by simp [slotAt]

theorem tailStep_life (pt : (k i).point = .tail) : Acts k i (tailStep k i) := by
  unfold tailStep
  split
  · exact .sect (.killed pt)
  · exact .sect (.alive pt)

theorem sigTestStep_life (pt : (k i).point = .sigTest) : Acts k i (sigTestStep k i) := by
  unfold sigTestStep
  split <;> rename_i handling
  · exact .sect (.masked pt handling)
  · exact .sect (.unmasked pt (by simpa using handling))

theorem sigScanStep_life (pt : (k i).point = .sigScan n) : Acts k i (sigScanStep k i n) := by
  unfold sigScanStep
  split
  · rename_i hn
    split
    · rename_i found
      exact .sect (.sigFound ⟨n, hn⟩ pt found.1 found.2)
    · exact .sect (.sigNext n pt)
  · exact .sect (.sigNone n pt)

theorem prepareStep_life (pt : (k i).point = .prepare ∨ (k i).point = .forkret) :
    Acts k i (prepareStep k i) := by
  unfold prepareStep
  split
  · rename_i hart cpu
    exact .sect (.userret hart pt cpu)
  · exact .none

theorem forkScanStep_life {f} (pt : (k i).point = .forkScan f n) :
    Acts k i (forkScanStep k i f n) := by
  unfold forkScanStep
  split
  · exact .sect (.ret _ (by rw [pt]; rfl))
  rename_i j hj
  obtain rfl := slotAt_some hj
  refine .whenNot fun _ => ?_
  split
  · exact .some (.found f j pt ‹_›)
  · exact .some (.sect (.forkNext f _ pt))

theorem allocRestStep_life {f j} (pt : (k i).point = .allocRest f j pid) :
    Acts k i (allocRestStep k i f j pid c) := by
  unfold allocRestStep
  split
  · exact .some (.made f j pid pt)
  · exact .some (.allocFail f j pid pt)
  · exact .some (.allocFail f j pid pt)
  · exact .some (.allocFail f j pid pt)
  · exact .none

theorem forkCheckStep_life {f} (pt : (k i).point = .forkCheck f) :
    Acts k i (forkCheckStep k i f) := by
  unfold forkCheckStep
  split
  · exact .sect (.ret _ (by rw [pt]; rfl))
  · exact .sect (.forkCheck f pt (by omega))

theorem exitReparentStep_life {status} (pt : (k i).point = .exitReparent status n) :
    Acts k i (exitReparentStep k i status n) := by
  unfold exitReparentStep
  split
  · rename_i hj
    exact .holds pt (.reparentEnd status n (slotAt_none hj))
  rename_i j hj
  obtain rfl := slotAt_some hj
  split <;> rename_i hpar
  · exact .some (.adopt status j pt hpar)
  · exact .holds pt (.reparentSkip status j hpar)

theorem wakeupStep_life {chan m w} (pt : (k i).point = .wakeup chan m w) :
    Acts k i (wakeupStep k i chan m w) := by
  unfold wakeupStep
  split
  · rename_i hj
    exact .holds pt (.wakeEnd chan m w (slotAt_none hj))
  rename_i j hj
  obtain rfl := slotAt_some hj
  split
  · rename_i hji
    subst hji
    exact .holds pt (.wakeSelf chan w)
  · rename_i hne
    exact .whenNot fun hl => .some (.wake chan j w pt hne (by simpa using hl))

theorem collect_life {j} (pt : (∃ n kids, (k i).point = .waitScan addr n kids) ∨
      ∃ n, (k i).point = .waitpidScan (k j).pid addr n)
    (par : (k j).parent = some i) (lock : (k j).locked = false)
    (dead : (k j).state = .zombie) : Acts k i (collect k i j addr c) := by
  unfold collect
  split
  · split <;> rename_i hcopy
    · exact .some (.reapFail j addr _ _ pt par dead hcopy)
    · exact .some (.reap j addr _ _ pt par lock dead hcopy)
  · exact .none

theorem waitScanStep_life {kids} (pt : (k i).point = .waitScan addr n kids) :
    Acts k i (waitScanStep k i addr n kids c) := by
  unfold waitScanStep
  split
  · rename_i hj
    split <;> rename_i hk
    · subst hk
      exact .holds pt (.waitEnd addr n (slotAt_none hj))
    · rw [Bool.not_eq_true] at hk
      subst hk
      exact .holds pt (.waitNone addr n (slotAt_none hj))
  rename_i j hj
  obtain rfl := slotAt_some hj
  split <;> rename_i hpar
  · refine .whenNot fun hlock => ?_
    split <;> rename_i hz
    · exact collect_life (.inl ⟨_, _, pt⟩) hpar (by simpa using hlock) hz
    · exact Acts.holds pt (.waitLive addr j kids hpar hz)
  · exact .holds pt (.waitOther addr j kids hpar)

theorem waitpidScanStep_life (pt : (k i).point = .waitpidScan pid addr n) :
    Acts k i (waitpidScanStep k i pid addr n c) := by
  unfold waitpidScanStep
  split
  · rename_i hj
    exact .holds pt (.pidNone pid addr n (slotAt_none hj))
  rename_i j hj
  obtain rfl := slotAt_some hj
  split <;> rename_i hm
  · obtain ⟨hpar, rfl⟩ := hm
    refine .whenNot fun hlock => ?_
    split <;> rename_i hz
    · exact collect_life (.inr ⟨_, pt⟩) hpar (by simpa using hlock) hz
    · exact Acts.holds pt (.pidLive _ addr j hpar rfl hz)
  · exact .holds pt (.pidOther pid addr j hm)

theorem recvTestStep_life {dst} (pt : (k i).point = .recvTest dst n) :
    Acts k i (recvTestStep k i dst n c) := by
  unfold recvTestStep
  dsimp only
  split
  · split <;> rename_i hr
    · split <;> rename_i hcopy
      · exact .some (.recvFail dst n _ pt)
      · exact .some (.received dst n _ _ pt hr hcopy)
    · exact .holds pt (.recvEmpty dst n (by simpa using hr))
  · exact .none

theorem sendScanStep_life {msg} (pt : (k i).point = .sendScan pid msg n) :
    Acts k i (sendScanStep k i pid msg n) := by
  unfold sendScanStep
  split
  · exact .holds pt (.sendNone pid msg n)
  rename_i t ht
  obtain rfl := slotAt_some ht
  split
  · rename_i hm
    split <;> rename_i hr
    · exact .holds pt (.sendNone pid msg _)
    · exact .some (.sent pid msg t pt hm.1 hm.2 (by simpa using hr))
  · exact .holds pt (.sendOther pid msg t)

theorem killScanStep_life (pt : (k i).point = .killScan pid n) :
    Acts k i (killScanStep k i pid n) := by
  unfold killScanStep
  split
  · exact .sect (.ret _ (by rw [pt]; rfl))
  rename_i j hj
  obtain rfl := slotAt_some hj
  refine .whenNot fun hlock => ?_
  split
  · rename_i hp
    exact .some (.kill pid j pt hp (by simpa using hlock))
  · exact .some (.sect (.killNext pid _ pt))

theorem sigsendScanStep_life {s} (pt : (k i).point = .sigsendScan pid s n) :
    Acts k i (sigsendScanStep k i pid s n) := by
  unfold sigsendScanStep
  split
  · exact .sect (.ret _ (by rw [pt]; rfl))
  rename_i j hj
  obtain rfl := slotAt_some hj
  refine .whenNot fun hlock => ?_
  split
  · rename_i hp
    exact .some (.sect (.sigsend pid s j pt hp (by simpa using hlock)))
  · exact .some (.sect (.sigsendNext pid s _ pt))

theorem childScanStep_life {maxn m pids} (pt : (k i).point = .childScan addr maxn m pids n) :
    Acts k i (childScanStep k i addr maxn m pids n) := by
  unfold childScanStep
  split
  · exact .some (.childUnlock addr maxn m pids n pt)
  rename_i j hj
  obtain rfl := slotAt_some hj
  split
  · rename_i found
    exact .holds pt (.childFound addr maxn j pids n found.1 found.2.1 found.2.2)
  · exact .holds pt (.childOther addr maxn j pids n)

/-- An update that reads the entry itself. -/
theorem upd_mem (k : Kernel) (i : Slot) (f : AddrSpace → AddrSpace) :
    (k.upd i fun p => { p with mem := f p.mem }) =
      k.upd i fun p => { p with mem := f (k i).mem } :=
  upd_congr rfl

theorem childCopyStep_life {maxn pids} (pt : (k i).point = .childCopy addr maxn pids n) :
    Acts k i (childCopyStep k i addr maxn pids n c) := by
  have same : (k.upd i fun p => { p with mem := (k i).mem }) = k :=
    Kernel.ext (funext fun m => by
      by_cases hm : m = i
      · subst hm; rw [upd_self]
      · rw [upd_ne hm]) rfl rfl rfl rfl
  unfold childCopyStep
  split
  · split
    · have copy := Sect.children addr maxn pids [] n (k i).mem (ofInt (Int32.ofNat n)) pt
        (List.nil_subset _)
      rw [same] at copy
      exact .sect copy
    refine .whenNot fun _ => ?_
    split <;> exact .some (.sect (.children addr maxn pids pids n _ _ pt (List.Subset.refl _)))
  · rename_i ok bytes
    refine .when fun _ => ?_
    rw [upd_mem k i fun m => (copyout ok m addr.toNat bytes).1]
    exact .some (.sect (.children addr maxn pids [] n _ _ pt (List.nil_subset _)))
  · exact .none

theorem exitLoadStep_life {status} (pt : (k i).point = .exitLoad status) :
    Acts k i (exitLoadStep k i status) := by
  unfold exitLoadStep
  split <;> rename_i hq
  · exact .some (.exitLoad status _ pt hq)
  · exact .some (.exitSkip status pt hq)

theorem callKilledStep_life {call} (pt : (k i).point = .callKilled call) :
    Acts k i (callKilledStep k i call) := by
  unfold callKilledStep
  split
  · exact .holds pt (.killed call ‹_›)
  · exact .holds pt (.sleeps call)

theorem threadStep_life : Acts k i (threadStep k i c (k i).point) := by
  cases pt : (k i).point with
  | user r pc => exact userStep_life pt
  | syscall => exact syscallStep_life pt
  | tail => exact tailStep_life pt
  | sigTest => exact sigTestStep_life pt
  | sigScan n => exact sigScanStep_life pt
  | sigLoad s => exact .sect (.sigLoad s pt)
  | sigStore s w => exact .sect (.deliver s w pt)
  | prepare => exact prepareStep_life (.inl pt)
  | forkret => exact prepareStep_life (.inr pt)
  | forkCheck f => exact forkCheckStep_life pt
  | forkScan f n => exact forkScanStep_life pt
  | allocReady f j pid => exact .some (.clearReady f j pid pt)
  | allocLen f j pid => exact .some (.clearLen f j pid pt)
  | allocRest f j pid => exact allocRestStep_life pt
  | forkLink j pid => exact .when fun hl => .some (.link j pid pt hl)
  | forkReady j pid => exact .whenNot fun hl => .some (.ready j pid pt (by simpa using hl))
  | forkLoad pid => exact .some (.load pid pt)
  | forkStore pid v => exact .some (.store pid v pt)
  | exitLoad status => exact exitLoadStep_life pt
  | exitStore status q v => exact .some (.exitStore status q v pt)
  | exitClose status => exact .whenNot fun hne => .some (.exitClose status pt hne)
  | exitLock status => exact .when fun hl => .some (.exitLock status pt hl)
  | exitReparent status n => exact exitReparentStep_life pt
  | wakeup chan m w => exact wakeupStep_life pt
  | exitZombie status => exact .some (.zombie status pt)
  | exitUnlock => exact .some (.exitUnlock pt)
  | exitSched => exact .some (.exitSched pt)
  | enter call => exact .when fun hl => .some (.enter call pt hl)
  | waitScan addr n kids => exact waitScanStep_life pt
  | waitpidScan pid addr n => exact waitpidScanStep_life pt
  | recvTest dst n => exact recvTestStep_life pt
  | callKilled call => exact callKilledStep_life pt
  | sleepLock call => exact .some (.sleepLock call pt)
  | sleepRelease call => exact .some (.sleepRelease call pt)
  | sleepSwitch call => exact .some (.sleepSwitch call pt)
  | unlock v => exact .some (.unlock v pt)
  | sendLock pid msg => exact .when fun hl => .some (.sendLock pid msg pt hl)
  | sendScan pid msg n => exact sendScanStep_life pt
  | killScan pid n => exact killScanStep_life pt
  | sigsendScan pid s n => exact sigsendScanStep_life pt
  | ppid q => exact .sect (.ret _ (by rw [pt]; rfl))
  | childLock addr maxn => exact .when fun hl => .some (.childLock addr maxn pt hl)
  | childScan addr maxn m pids n => exact childScanStep_life pt
  | childCopy addr maxn pids n => exact childCopyStep_life pt
  | other =>
    cases c with
    | finish => exact .sect (.finish _ _ _ _ pt)
    | nap => exact .some (.nap _ pt)
    | _ => exact .none
  | dead | asleep | napping => exact .none

/-- Every step of the kernel is one of the listed sections. -/
theorem step_life (h : step k i c = some (k', e)) : LifeStep k i c e k' := by
  have thread : (if (k i).cpu = none then none else threadStep k i c (k i).point) =
      some (k', e) → scheduling c = false → LifeStep k i c e k' := by
    intro h go
    obtain ⟨_, h⟩ := ite_none_left_eq_some.1 h
    exact .act go ‹_› (threadStep_life _ h)
  unfold step at h
  cases c with
  | dispatch hart =>
    obtain ⟨hd, ⟨⟩⟩ := ite_none_right_eq_some.1 h
    exact .sched rfl (.dispatch hart hd.1 hd.2.1 hd.2.2)
  | rouse =>
    simp only [rouseStep] at h
    split at h
    · rename_i n hch
      obtain ⟨hs, ⟨⟩⟩ := ite_none_right_eq_some.1 h
      exact .sched rfl (.rouse n hch hs.1)
    · cases h
  | yield =>
    simp only [yieldStep] at h
    split at h
    · cases h
    rename_i hrun
    obtain ⟨hp, ⟨⟩⟩ := ite_none_right_eq_some.1 h
    exact .sched rfl (.yield hrun hp)
  | _ => exact thread h rfl

/-! ## What a section writes -/

/-- The event of a section of `i` tells of a change to the entry `m`, or of a quiet section. -/
def concerns (i m : Slot) : Event → Bool
  | .alloc j | .reset j | .allocFail j | .reap j _ _ | .sent j _ _ => j = m
  | .exit _ | .received _ _ _ => i = m
  | .tau | .reapFail _ | .returned _ => false
  | _ => true

/-- What a section of `i` does to the entry `m`, control point and trapframe apart. -/
inductive Write (k k' : Kernel) (i m : Slot) : Event → (Proc → Proc) → Prop
  | none {e : Event} (away : concerns i m e = false) : Write k k' i m e id
  | found (f : Fork) (free : (k m).state = .unused)
      (pt' : (k' i).point = .allocReady f m k.nextpid) :
      Write k k' i m (.alloc m) (allocFound · k.nextpid)
  | clearReady (f : Fork) (pid : Int32) (pt : (k i).point = .allocReady f m pid)
      (pt' : (k' i).point = .allocLen f m pid) :
      Write k k' i m (.reset m) fun np => { np with ipcReady := false }
  | clearLen (f : Fork) (pid : Int32) (pt : (k i).point = .allocLen f m pid)
      (pt' : (k' i).point = .allocRest f m pid) :
      Write k k' i m (.reset m) fun np => { np with ipcLen := 0 }
  | made (f : Fork) (pid : Int32) (pt : (k i).point = .allocRest f m pid)
      (pt' : (k' i).point = .forkLink m pid) :
      Write k k' i m (.reset m) fun np => release (forkCopy f (k i) (allocproc np))
  | allocFail (f : Fork) (pid : Int32) (pt : (k i).point = .allocRest f m pid)
      (pt' : (k' i).point = .tail) :
      Write k k' i m (.allocFail m) fun np => release (freeproc (allocReset np))
  | link (pid : Int32) (pt : (k i).point = .forkLink m pid)
      (pt' : (k' i).point = .forkReady m pid) (lock : k.waitLock = none) :
      Write k k' i m .tau fun np => { np with parent := some i }
  | ready (pid : Int32) (pt : (k i).point = .forkReady m pid)
      (pt' : (k' i).point = .forkLoad pid) (lock : (k m).locked = false) :
      Write k k' i m .tau fun np => { np with state := .runnable }
  | increment (pid : Int32) (v : Int) (self : m = i) (pt : (k i).point = .forkStore pid v)
      (pt' : (k' i).point = .tail) : Write k k' i m .tau fun p => { p with forkCount := v + 1 }
  | decrement (status : Int32) (v : Int) (pt : (k i).point = .exitStore status m v)
      (pt' : (k' i).point = .exitClose status) :
      Write k k' i m .tau fun p => { p with forkCount := v - 1 }
  | close (self : m = i) : Write k k' i m .tau fun p =>
    { p with ofile := fun _ => none, cwd := none }
  | adopt (status : Int32) (pt : (k i).point = .exitReparent status m.val)
      (pt' : (k' i).point = .wakeup (some initproc) 0 (.reparent status m.val))
      (par : (k m).parent = some i) : Write k k' i m .tau fun pp =>
      { pp with parent := some initproc }
  | wake (st : (k m).state = .sleeping) (lock : (k m).locked = false) :
      Write k k' i m .tau fun p => { p with state := .runnable }
  | zombie (status : Int32) (self : m = i) (pt : (k i).point = .exitZombie status) :
      Write k k' i m (.exit status) fun p =>
      { p with locked := true, xstate := status, state := .zombie }
  | exitSched (self : m = i) (pt : (k i).point = .exitSched) : Write k k' i m .tau fun p =>
    { p with locked := false, cpu := none }
  | mem {e : Event} (as : AddrSpace) (away : concerns i m e = false) : Write k k' i m e fun p =>
    { p with mem := as }
  | reap (addr : UInt64) (par : (k m).parent = some i) (lock : (k m).locked = false)
      (dead : (k m).state = .zombie) : Write k k' i m (.reap m (k m).pid addr) freeproc
  | received (dst : UInt64) (n : Nat) (as : AddrSpace) (self : m = i)
      (ready : (k m).ipcReady = true) : Write k k' i m
      (.received dst n ((k m).ipcMsg.take (min (k m).ipcLen n))) fun p =>
        { p with mem := as, ipcReady := false, ipcLen := 0 }
  | lock (self : m = i) : Write k k' i m .tau fun p => { p with locked := true }
  | sleep (self : m = i) (l : Bool → Bool) (ch : Chan)
      (pt : (∃ c, (k i).point = .sleepSwitch c) ∨ (k i).point = .other) :
      Write k k' i m .tau fun p =>
      { p with locked := l p.locked, chan := some ch, state := .sleeping, cpu := none }
  | sent (pid : Int32) (msg : List UInt8) (pt : (k i).point = .sendScan pid msg m.val)
      (pt' : (k' i).point = .wakeup (some m) 0 (.send msg.length))
      (same : (k m).pid = pid) (live : (k m).state ≠ .unused)
      (empty : (k m).ipcReady = false) : Write k k' i m (.sent m pid msg) (putMail msg)
  | kill (lock : (k m).locked = false) : Write k k' i m .tau Machine.kill

/-- The entry `m` after a section of `i`: written, and the section's own process moved on. -/
inductive Wrote (k k' : Kernel) (i m : Slot) (e : Event) : Prop
  | intro (f : Proc → Proc) (write : Write k k' i m e f)
      (eq : k'.proc m = { f (k m) with point := (k' m).point, trapframe := (k' m).trapframe })
      (others : m ≠ i → k'.proc m = f (k m))

section wrote
variable {m j : Slot} {k0 : Kernel} {g : Proc → Proc}

/-- The last write of a section is to the control point and the trapframe of its own process. -/
theorem Wrote.move (write : Write k (k0.upd i g) i m e f) (entry : k0.proc m = f (k m) := by rfl)
    (moves : ∀ p, g p = { p with point := (g p).point, trapframe := (g p).trapframe } := by
      intro; rfl) :
    Wrote k (k0.upd i g) i m e := by
  refine ⟨f, write, ?_, fun ne => (upd_ne ne).trans entry⟩
  by_cases hm : m = i
  · subst hm
    rw [upd_self, ← entry]
    exact moves _
  · rw [upd_ne hm, entry]

theorem Wrote.upd (write : Write k ((k0.upd j f).upd i g) i j e f)
    (away : m ≠ j → concerns i m e = false := by intro; rfl) (same : k0.proc m = k.proc m := by rfl)
    (moves : ∀ p, g p = { p with point := (g p).point, trapframe := (g p).trapframe } := by
      intro; rfl) :
    Wrote k ((k0.upd j f).upd i g) i m e := by
  by_cases hm : m = j
  · subst hm
    exact .move write (by rw [upd_self, same]) moves
  · exact .move (f := id) (.none (away hm)) ((upd_ne hm).trans same) moves

/-- A section that writes to its own process alone. -/
theorem Wrote.self (write : Write k (k.upd i g) i i e f)
    (away : m ≠ i → concerns i m e = false := by intro; rfl)
    (form : ∀ p, g p = { f p with point := (g p).point, trapframe := (g p).trapframe } := by
      intro; rfl) :
    Wrote k (k.upd i g) i m e := by
  by_cases hm : m = i
  · subst hm
    refine ⟨f, write, ?_, fun ne => absurd rfl ne⟩
    rw [upd_self]
    exact form _
  · refine ⟨id, .none (away hm), ?_, fun ne => upd_ne ne⟩
    rw [upd_ne hm]
    rfl

end wrote

/-- Every section but the quiet ones, as a write to each entry. -/
theorem Act.writes (a : Act k i e k') : Sect k i e k' ∨ ∀ m, Wrote k k' i m e := by
  refine or_iff_not_imp_left.2 fun loud m => ?_
  have other : ∀ {j : Slot}, m ≠ j → decide (j = m) = false := fun ne => decide_eq_false ne.symm
  cases a with
  | sect sec => exact absurd sec loud
  | load | exitLoad | exitSkip | exitLock | exitUnlock | enter | hold | sleepRelease | sendLock
  | childLock | childUnlock | unlock => exact .move (f := id) (.none rfl)
  | found f j pt un => exact .upd (.found f un goto_point) other
  | clearReady f j pid pt => exact .upd (.clearReady f pid pt goto_point) other
  | clearLen f j pid pt => exact .upd (.clearLen f pid pt goto_point) other
  | made f j pid pt => exact .upd (.made f pid pt goto_point) other
  | allocFail f j pid pt => exact .upd (.allocFail f pid pt ret_point) other
  | link j pid pt lock => exact .upd (.link pid pt goto_point lock)
  | ready j pid pt lock => exact .upd (.ready pid pt goto_point lock)
  | store pid v pt => exact .upd (.increment pid v rfl pt ret_point)
  | exitStore status q v pt => exact .upd (.decrement status v pt goto_point)
  | exitClose => exact .self (.close rfl)
  | adopt status j pt par => exact .upd (.adopt status pt goto_point par)
  | wake chan j w pt ne lock =>
    by_cases sleeps : (k j).state = .sleeping ∧ (k j).chan = chan.map .proc
    · have eq : k.upd j (Machine.wake chan) = k.upd j fun p => { p with state := .runnable } :=
        upd_congr (if_pos sleeps)
      rw [eq]
      exact .upd (.wake sleeps.1 lock)
    · have eq : k.upd j (Machine.wake chan) = k.upd j id := upd_congr (if_neg sleeps)
      rw [eq]
      exact .upd (.none rfl)
  | zombie status pt => exact .self (.zombie status rfl pt) other
  | exitSched pt => exact .self (.exitSched rfl pt)
  | reapFail | recvFail => exact .upd (.mem _ rfl)
  | reap j addr as ok pt par lock dead copy =>
    by_cases hm : m = j
    · subst hm
      exact .move (.reap addr par lock dead) (upd_self.trans (upd_frame freeproc rfl))
    · have away : concerns i m (.reap j (k j).pid addr) = false := other hm
      by_cases hi : m = i
      · subst hi
        exact .move (.mem as away) ((upd_ne hm).trans upd_self)
      · exact .move (f := id) (.none away) ((upd_ne hm).trans (upd_ne hi))
  | received dst n as ok pt ready copy => exact .self (.received dst n as rfl ready) other
  | sleepLock => exact .self (.lock rfl)
  | sleepSwitch c pt => exact .self (.sleep rfl (fun _ => false) (.proc i) (.inl ⟨c, pt⟩))
  | sent pid msg t pt same live empty =>
    exact .upd (.sent pid msg pt goto_point same live empty) other
  | kill pid j pt same lock => exact .upd (.kill lock)
  | nap n pt => exact .self (.sleep rfl id (.other n) (.inr pt))

/-! ## Where a section leads -/

/-- The points at which a quiet section starts. -/
def sectPoint : Point → Bool
  | .exitLoad _ | .enter _ | .sendLock _ _ | .childLock _ _ => false
  | pt => quietPoint pt

theorem Sect.start (h : Sect k i e k') : sectPoint (k i).point = true := by
  cases h with
  | ret v pt =>
    generalize (k i).point = q at pt
    cases q <;> first | rfl | cases pt
  | userret _ pt => rcases pt with pt | pt <;> rw [pt] <;> rfl
  | run _ _ _ _ _ pt | trap _ _ _ pt | call _ pt | signal _ _ pt | sigreturn pt | exec _ pt
  | noCopy _ _ pt | offer _ _ _ pt | killed pt | alive pt | masked pt | unmasked pt | sigNext _ pt
  | sigFound _ pt | sigNone _ pt | sigLoad _ pt | deliver _ _ pt | forkCheck _ pt | forkNext _ _ pt
  | killNext _ _ pt | sigsendNext _ _ _ pt | sigsend _ _ _ pt | children _ _ _ _ _ _ _ pt
  | finish _ _ _ _ pt => rw [pt]; rfl

/-- From where to where a section takes its own process. -/
inductive Flow (k k' : Kernel) (i : Slot) (e : Event) : Point → Point → Prop
  | found (g : Fork) (n : Nat) (j : Slot) (pid : Int32) (ev : e = .alloc j) :
      Flow k k' i e (.forkScan g n) (.allocReady g j pid)
  | clearReady (g : Fork) (j : Slot) (pid : Int32) (ev : e = .reset j) :
      Flow k k' i e (.allocReady g j pid) (.allocLen g j pid)
  | clearLen (g : Fork) (j : Slot) (pid : Int32) (ev : e = .reset j) :
      Flow k k' i e (.allocLen g j pid) (.allocRest g j pid)
  | made (g : Fork) (j : Slot) (pid : Int32) (ev : e = .reset j) :
      Flow k k' i e (.allocRest g j pid) (.forkLink j pid)
  | allocFail (g : Fork) (j : Slot) (pid : Int32) (ev : e = .allocFail j)
      (un : (k' j).state = .unused) : Flow k k' i e (.allocRest g j pid) .tail
  | link (j : Slot) (pid : Int32) (par : (k' j).parent = some i) :
      Flow k k' i e (.forkLink j pid) (.forkReady j pid)
  | ready (j : Slot) (pid : Int32) : Flow k k' i e (.forkReady j pid) (.forkLoad pid)
  | load (pid : Int32) (v : Int) : Flow k k' i e (.forkLoad pid) (.forkStore pid v)
  | store (pid : Int32) (v : Int) : Flow k k' i e (.forkStore pid v) .tail
  | exitLoad (status : Int32) (q : Slot) (v : Int) :
      Flow k k' i e (.exitLoad status) (.exitStore status q v)
  | exitSkip (status : Int32) : Flow k k' i e (.exitLoad status) (.exitClose status)
  | exitStore (status : Int32) (q : Slot) (v : Int) :
      Flow k k' i e (.exitStore status q v) (.exitClose status)
  | exitClose (status : Int32) (closed : (k' i).ofile = fun _ => none) :
      Flow k k' i e (.exitClose status) (.exitLock status)
  | exitLock (status : Int32) : Flow k k' i e (.exitLock status) (.exitReparent status 0)
  | adopt (status : Int32) (n : Nat) : Flow k k' i e (.exitReparent status n)
      (.wakeup (some initproc) 0 (.reparent status n))
  | wake (chan : Option Slot) (j : Slot) (w : Wake) (ne : j ≠ i) (lock : (k j).locked = false)
      (eq : k' = (k.upd j (Machine.wake chan)).goto i (.wakeup chan (j.val + 1) w)) :
      Flow k k' i e (.wakeup chan j.val w) (.wakeup chan (j.val + 1) w)
  | zombie (status : Int32) : Flow k k' i e (.exitZombie status) .exitUnlock
  | exitUnlock : Flow k k' i e .exitUnlock .exitSched
  | exitSched : Flow k k' i e .exitSched .dead
  | enter (c : Call) {q : Point} (eq : q = Call.start c) : Flow k k' i e (.enter c) q
  | wait (addr : UInt64) (n : Nat) (kids : Bool) (v : Int32) :
      Flow k k' i e (.waitScan addr n kids) (.unlock v)
  | waitpid (j : Slot) (pid : Int32) (addr : UInt64) (n : Nat) (v : Int32)
      (reap : e = .reapFail j ∨ e = .reap j pid addr ∧ v = pid) :
      Flow k k' i e (.waitpidScan pid addr n) (.unlock v)
  | recv (dst : UInt64) (n : Nat) (v : Int32) : Flow k k' i e (.recvTest dst n) (.unlock v)
  | sleepLock (c : Call) : Flow k k' i e (.sleepLock c) (.sleepRelease c)
  | sleepRelease (c : Call) : Flow k k' i e (.sleepRelease c) (.sleepSwitch c)
  | sleepSwitch (c : Call) : Flow k k' i e (.sleepSwitch c) (.asleep c)
  | unlock (v : Int32) : Flow k k' i e (.unlock v) .tail
  | sendLock (pid : Int32) (msg : List UInt8) : Flow k k' i e (.sendLock pid msg)
      (.sendScan pid msg 0)
  | sent (pid : Int32) (msg : List UInt8) (t : Slot) :
      Flow k k' i e (.sendScan pid msg t.val) (.wakeup (some t) 0 (.send msg.length))
  | kill (pid : Int32) (n : Nat) : Flow k k' i e (.killScan pid n) .tail
  | childLock (addr : UInt64) (maxn : Int32) : Flow k k' i e (.childLock addr maxn)
      (.childScan addr maxn 0 [] 0)
  | childUnlock (addr : UInt64) (maxn : Int32) (m : Nat) (pids : List Int32) (n : Nat)
      (eq : k'.proc = (k.goto i (.childCopy addr maxn pids n)).proc) :
      Flow k k' i e (.childScan addr maxn m pids n) (.childCopy addr maxn pids n)
  | nap : Flow k k' i e .other .napping
  | hold {p q : Point} (h : Hold k i p q) (eq : k' = k.goto i q) : Flow k k' i e p q
  | sect {p q : Point} (s : Sect k i e k') (before : sectPoint p = true)
      (after : quietPoint q = true) : Flow k k' i e p q

theorem Act.flow (a : Act k i e k') : Flow k k' i e (k i).point (k' i).point := by
  cases a with
  | sect sec => exact .sect sec sec.start sec.quiet.after
  | hold h => rw [goto_point]; exact .hold h rfl
  | link j pid pt => rw [goto_point, pt]; exact .link j pid (by rw [goto_parent, upd_self])
  | wake chan j w pt ne lock => rw [goto_point, pt]; exact .wake chan j w ne lock rfl
  | enter c pt => rw [goto_point, pt]; exact .enter c rfl
  | childUnlock addr maxn m pids n pt =>
    rw [goto_point, pt]; exact .childUnlock addr maxn m pids n rfl
  | found f j pt => rw [goto_point, pt]; exact .found f _ j _ rfl
  | clearReady f j pid pt => rw [goto_point, pt]; exact .clearReady f j pid rfl
  | clearLen f j pid pt => rw [goto_point, pt]; exact .clearLen f j pid rfl
  | made f j pid pt => rw [goto_point, pt]; exact .made f j pid rfl
  | allocFail f j pid pt =>
    rw [ret_point, pt]
    exact .allocFail f j pid rfl (by rw [ret_state, upd_self]; rfl)
  | ready _ _ pt | load _ pt | exitLoad _ _ pt | exitSkip _ pt | exitStore _ _ _ pt | exitLock _ pt
  | adopt _ _ pt | exitUnlock pt | recvFail _ _ _ pt | sleepRelease _ pt | sendLock _ _ pt
      | sent _ _ _ pt
  | childLock _ _ pt => rw [goto_point, pt]; constructor
  | store _ _ pt | unlock _ pt | kill _ _ pt => rw [ret_point, pt]; constructor
  | exitClose status pt => rw [pt, upd_self]; exact .exitClose status (by rw [upd_self])
  | zombie _ pt | exitSched pt | received _ _ _ _ pt | sleepLock _ pt | sleepSwitch _ pt
      | nap _ pt =>
    rw [pt, upd_self]; constructor
  | reapFail j addr m ok pt =>
    rw [goto_point]
    rcases pt with ⟨n, kids, pt⟩ | ⟨n, pt⟩ <;> rw [pt]
    · constructor
    · exact .waitpid j _ addr n _ (.inl rfl)
  | reap j addr m ok pt =>
    rw [goto_point]
    rcases pt with ⟨n, kids, pt⟩ | ⟨n, pt⟩ <;> rw [pt]
    · constructor
    · exact .waitpid j _ addr n _ (.inr ⟨rfl, rfl⟩)

end OsProject.Xv6.Lifecycle
