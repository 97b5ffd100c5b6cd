import OsProject.Lib.Transition
import OsProject.Xv6.ProcTable

/-! # The kernel, one section at a time

`step k i c` is the next section of process `i`'s kernel thread (or of its
user program), where `c` fixes what the code does not decide: the user
program's instructions, the cause of a trap, which allocations succeed, the
result of the system calls that are not modelled, and the scheduler. A
section that waits for a held lock is not enabled (`none`), and so is one
that panics. Taking each process's steps in any order gives every
interleaving. -/
namespace OsProject.Xv6.Machine
open Lib.Transition Memory ProcTable Option

/-- How far the allocations of `allocproc` and `uvmcopy` get. -/
inductive Alloc where
  | ok | noTrapframe | noPagetable | noMemory
  deriving DecidableEq

/-- `r_scause()` on entry to `usertrap`; a page fault carries `r_stval()`. -/
inductive Cause where
  | syscall
  | interrupt
  | pageFault (va : Nat) (ok : Nat → Bool)
  | unexpected

inductive Choice where
  | go
  | run (r : UserRegs) (pc : UInt64) (stores : List (Nat × UInt8))
  | trap (c : Cause)
  | alloc (a : Alloc)
  | page (ok : Nat → Bool)
  | spill (ok : Nat → Bool) (bytes : List UInt8)
  | exec (img : Option Image)
  | finish (v : UInt64) (mem : AddrSpace) (ofile : Fin nofile → Option Nat) (cwd : Option Nat)
  | nap (chan : Nat)
  | yield
  | dispatch (hart : Nat)
  | rouse

/-- What a section did, for the histories that properties speak about; the
process that did it is in the label next to it. -/
inductive Event where
  | tau
  | trap
  | alloc (child : Slot)
  | reset (child : Slot)
  | allocFail (child : Slot)
  | exit (status : Int32)
  | reap (child : Slot) (pid : Int32) (addr : UInt64)
  | reapFail (child : Slot)
  | offer (pid : Int32) (msg : List UInt8)
  | sent (target : Slot) (pid : Int32) (msg : List UInt8)
  | received (dst : UInt64) (n : Nat) (bytes : List UInt8)
  | returned (v : Int32)
  | signal (s : Fin nsig) (handler : UInt64)
  | sigsend (target : Slot) (s : Fin nsig)
  | sigbegin (s : Fin nsig)
  | deliver (s : Fin nsig) (saved : Trapframe)
  | sigreturn
  | exec
  | children (pids : List Int32)
  deriving DecidableEq

/-- `argint`: the low 32 bits of a register, as an `int`. -/
def argint (v : UInt64) : Int32 := v.toUInt32.toInt32

/-- An `int` result in a `uint64` register. -/
def ofInt (v : Int32) : UInt64 := v.toInt64.toUInt64

/-- The four bytes of an `int` in memory. -/
def intBytes (v : Int32) : List UInt8 :=
  let u := v.toUInt32
  [u.toUInt8, (u >>> 8).toUInt8, (u >>> 16).toUInt8, (u >>> 24).toUInt8]

/-- The entry of `syscalls[]` that a system call number selects. -/
inductive Syscall where
  | fork | exit | wait | kill | exec | getpid | getppid | waitpid | signal | sigsend | sigreturn
  | threadCreate | threadJoin | threadExit | ipcSend | ipcRecv | getchildren | other | unknown
  deriving DecidableEq

def syscallOf (num : Int32) : Syscall :=
  match num.toInt with
  | 1 => .fork
  | 2 => .exit
  | 3 => .wait
  | 6 => .kill
  | 7 => .exec
  | 11 => .getpid
  | 22 => .getppid
  | 24 => .waitpid
  | 25 => .getchildren
  | 28 => .signal
  | 29 => .sigsend
  | 30 => .sigreturn
  | 31 => .threadCreate
  | 32 => .threadJoin
  | 33 => .threadExit
  | 34 => .ipcSend
  | 35 => .ipcRecv
  | n => if 0 < n ∧ n < 36 ∧ n ≠ 23 then .other else .unknown

/-- The slot a table loop looks at, or the end of the loop. -/
def slotAt (n : Nat) : Option Slot := if h : n < nproc then some ⟨n, h⟩ else none

/-! ## User mode, traps and the return to user space -/

/-- `uservec` and `usertrap` up to the system call or its other branches. -/
def trapEntry (c : Cause) (r : UserRegs) (pc : UInt64) (p : Proc) : Proc :=
  let t := { p.trapframe with user := r, epc := pc }
  match c with
  | .syscall =>
    if p.killed then { p with trapframe := t, point := .exitLoad (-1) }
    else { p with trapframe := { t with epc := pc + 4 }, point := .syscall }
  | .interrupt => { p with trapframe := t, point := .tail }
  | .pageFault va ok => match vmfault ok p.mem va with
    | some m => { p with trapframe := t, mem := m, point := .tail }
    | none => { p with trapframe := t, killed := true, point := .tail }
  | .unexpected => { p with trapframe := t, killed := true, point := .tail }

section steps
variable (k : Kernel) (i : Slot)

def userStep (r : UserRegs) (pc : UInt64) : Choice → Option (Kernel × Event)
  | .run r' pc' stores => some (k.upd i fun p => { p with
      point := .user r' pc', mem := stores.foldl (fun m s => m.store s.1 s.2) p.mem }, .tau)
  | .trap c => some (k.upd i (trapEntry c r pc), .trap)
  | _ => none

/-- `sys_sigreturn`, with the value it returns stored in `a0` by `syscall`. -/
def sysSigreturn (p : Proc) : Proc :=
  { p with
    trapframe := p.savedTrapframe.setA0 p.savedTrapframe.user.a0
    handlingSignal := false
    point := .tail }

/-- `sys_signal` on a signal number in range. -/
def sysSignal (s : Fin nsig) (handler : UInt64) (p : Proc) : Proc :=
  { p with signalHandlers := fun n => if n = s then handler else p.signalHandlers n }

/-- A signal number in `0..31`. -/
def signum (v : Int32) : Option (Fin nsig) :=
  if h : 0 ≤ v.toInt ∧ v.toInt < 32 then some ⟨v.toInt.toNat, by unfold nsig; omega⟩ else none

/-- `kipc_send` copies nothing in for a message of length 0. -/
def sendCopy (ok : Nat → Bool) (m : AddrSpace) (src : UInt64) (len : Nat) :
    AddrSpace × Option (List UInt8) :=
  if 0 < len then copyin ok m src.toNat len else (m, some [])

/-- The part of `kipc_send` before it takes `wait_lock`. -/
def kipcSendCopy (pid : Int32) (src : UInt64) (n : Int32)
    (ok : Nat → Bool) : Kernel × Event :=
  if n < 0 then (k.ret i (ofInt (-1)), .tau)
  else match sendCopy ok (k i).mem src (min n.toInt.toNat ipcMaxMsg) with
    | (m, none) => ((k.upd i fun p => { p with mem := m }).ret i (ofInt (-1)), .tau)
    | (m, some msg) =>
      ((k.upd i fun p => { p with mem := m }).goto i (.sendLock pid msg), .offer pid msg)

/-- `syscall`: calls that finish at once return; the others go to their first
control point. -/
def syscallStep (c : Choice) : Option (Kernel × Event) :=
  let p := k.proc i
  let a := p.trapframe.user
  match syscallOf (argint a.a7) with
  | .fork => some (k.goto i (.forkCheck .fork), .tau)
  | .threadCreate => some (k.goto i (.forkCheck (.thread a.a0 a.a1)), .tau)
  | .exit => some (k.goto i (.exitLoad (argint a.a0)), .tau)
  | .threadExit => some (k.goto i (.exitLoad 0), .tau)
  | .wait => some (k.goto i (.enter (.wait a.a0)), .tau)
  | .waitpid => some (k.goto i (.enter (.waitpid (argint a.a0) a.a1)), .tau)
  | .threadJoin => some (k.goto i (.enter (.waitpid (argint a.a0) 0)), .tau)
  | .kill => some (k.goto i (.killScan (argint a.a0) 0), .tau)
  | .getpid => some (k.ret i (ofInt p.pid), .tau)
  | .getppid => match p.parent with
    | some q => some (k.goto i (.ppid q), .tau)
    | none => some (k.ret i 0, .tau)
  | .signal => match signum (argint a.a0) with
    | some s => some ((k.upd i (sysSignal s a.a1)).ret i 0, .signal s a.a1)
    | none => some (k.ret i (ofInt (-1)), .tau)
  | .sigsend => match signum (argint a.a1) with
    | some s => some (k.goto i (.sigsendScan (argint a.a0) s 0), .tau)
    | none => some (k.ret i (ofInt (-1)), .tau)
  | .sigreturn => some (k.upd i sysSigreturn, .sigreturn)
  | .exec => match c with
    | .exec none => some (k.ret i (ofInt (-1)), .tau)
    | .exec (some img) => some ((k.upd i (kexecCommit img)).ret i img.argc, .exec)
    | _ => none
  | .ipcSend => match c with
    | .page ok => some (kipcSendCopy k i (argint a.a0) a.a1 (argint a.a2) ok)
    | _ => none
  | .ipcRecv =>
    if argint a.a1 < 0 then some (k.ret i (ofInt (-1)), .tau)
    else some (k.goto i (.enter (.recv a.a0 (argint a.a1).toInt.toNat)), .tau)
  | .getchildren => some (k.goto i (.childLock a.a0 (argint a.a1)), .tau)
  | .other => some (k.goto i .other, .tau)
  | .unknown => some (k.ret i (ofInt (-1)), .tau)

/-- `usertrap`'s delivery of signal `s` after it has loaded `w` from
`pending_signals`: the store, and the writes that are private to the process. -/
def deliver (s : Fin nsig) (w : BitVec 32) (p : Proc) : Proc :=
  { p with
    pendingSignals := w &&& ~~~(1#32 <<< s.val)
    savedTrapframe := p.trapframe
    trapframe := { p.trapframe with epc := p.signalHandlers s }
    handlingSignal := true
    point := .prepare }

/-- `KSTACK(j) + PGSIZE`, with `TRAMPOLINE = MAXVA - PGSIZE`. -/
def kstackTop (j : Slot) : UInt64 :=
  UInt64.ofNat (maxVa - pgSize - (j.val + 1) * 2 * pgSize + pgSize)

/-- `prepare_return` and `userret` on hart `h`. -/
def prepareReturn (h : Nat) (p : Proc) : Proc :=
  { p with
    trapframe := { p.trapframe with
      kernelSatp := k.satp h
      kernelSp := kstackTop i
      kernelTrap := k.usertrap
      kernelHartid := UInt64.ofNat h }
    point := .user p.trapframe.user p.trapframe.epc }

def prepareStep : Option (Kernel × Event) :=
  match (k i).cpu with
  | some h => some (k.upd i (prepareReturn k i h), .tau)
  | none => none

/-- `usertrap` from its second `killed` test on. -/
def tailStep : Option (Kernel × Event) :=
  if (k i).killed then some (k.goto i (.exitLoad (-1)), .tau)
  else some (k.goto i .sigTest, .tau)

def sigTestStep : Option (Kernel × Event) :=
  if (k i).handlingSignal then some (k.goto i .prepare, .tau)
  else some (k.goto i (.sigScan 0), .tau)

/-- One round of the signal loop: the unlocked test of `pending_signals`. -/
def sigScanStep (n : Nat) : Option (Kernel × Event) :=
  if h : n < nsig then
    if (k i).pendingSignals.getLsbD n ∧ (k i).signalHandlers ⟨n, h⟩ ≠ noHandler then
      some (k.goto i (.sigLoad ⟨n, h⟩), .sigbegin ⟨n, h⟩)
    else some (k.goto i (.sigScan (n + 1)), .tau)
  else some (k.goto i .prepare, .tau)

/-! ## kfork and thread_fork -/

/-- One round of the loop of `allocproc`, which keeps the lock of an unused slot. -/
def forkScanStep (f : Fork) (n : Nat) : Option (Kernel × Event) :=
  match slotAt n with
  | none => some (k.ret i (ofInt (-1)), .tau)
  | some j =>
    if (k j).locked then none
    else if (k j).state = .unused then
      some (({ k with nextpid := k.nextpid + 1 }.upd j (allocFound · k.nextpid)).goto i
        (.allocReady f j k.nextpid), .alloc j)
    else some (k.goto i (.forkScan f (n + 1)), .tau)

/-- `p->ipc_ready = 0` in `allocproc`. -/
def allocReadyStep (f : Fork) (j : Slot) (pid : Int32) : Option (Kernel × Event) :=
  some ((k.upd j fun np => { np with ipcReady := false }).goto i (.allocLen f j pid), .reset j)

/-- `p->ipc_len = 0` in `allocproc`. -/
def allocLenStep (f : Fork) (j : Slot) (pid : Int32) : Option (Kernel × Event) :=
  some ((k.upd j fun np => { np with ipcLen := 0 }).goto i (.allocRest f j pid), .reset j)

/-- The rest of `allocproc`, from the `memset` of the mailbox on, and of its caller up to
`release(&np->lock)`. A message that comes in behind the `memset` stays there, as
one that comes in after the release does. -/
def allocRestStep (f : Fork) (j : Slot) (pid : Int32) : Choice → Option (Kernel × Event)
  | .alloc .ok => some ((k.upd j fun np => release (forkCopy f (k i) (allocproc np))).goto i
      (.forkLink j pid), .reset j)
  | .alloc .noMemory => some ((k.upd j fun np => release (freeproc (allocproc np))).ret i
      (ofInt (-1)), .allocFail j)
  | .alloc .noTrapframe | .alloc .noPagetable => some ((k.upd j fun np =>
      release (freeproc (allocReset np))).ret i (ofInt (-1)), .allocFail j)
  | _ => none

def forkCheckStep (f : Fork) : Option (Kernel × Event) :=
  if (k i).forkCount ≥ 10 then some (k.ret i (ofInt (-1)), .tau)
  else some (k.goto i (.forkScan f 0), .tau)

/-- The `wait_lock` section that sets `np->parent`. -/
def forkLinkStep (k : Kernel) (i j : Slot) (pid : Int32) : Option (Kernel × Event) :=
  if k.waitLock = none then
    some ((k.upd j fun np => { np with parent := some i }).goto i (.forkReady j pid), .tau)
  else none

def forkReadyStep (k : Kernel) (i j : Slot) (pid : Int32) : Option (Kernel × Event) :=
  if (k j).locked then none
  else some ((k.upd j fun np => { np with state := .runnable }).goto i (.forkLoad pid), .tau)

/-- `p->fork_count++` is a load and a store, and no lock is held. -/
def forkLoadStep (pid : Int32) : Option (Kernel × Event) :=
  some (k.goto i (.forkStore pid (k i).forkCount), .tau)

def forkStoreStep (pid : Int32) (v : Int) : Option (Kernel × Event) :=
  some ((k.upd i fun p => { p with forkCount := v + 1 }).ret i (ofInt pid), .tau)

/-! ## kexit, reparent and wakeup -/

/-- `if(p->parent) p->parent->fork_count--`, again a load and a store without a lock. -/
def exitLoadStep (status : Int32) : Option (Kernel × Event) :=
  match (k i).parent with
  | some q => some (k.goto i (.exitStore status q (k q).forkCount), .tau)
  | none => some (k.goto i (.exitClose status), .tau)

def exitStoreStep (status : Int32) (q : Slot) (v : Int) : Option (Kernel × Event) :=
  some ((k.upd q fun p => { p with forkCount := v - 1 }).goto i (.exitClose status), .tau)

/-- `init exiting` panics; anyone else closes its files and drops its directory. -/
def exitCloseStep (status : Int32) : Option (Kernel × Event) :=
  if i = initproc then none
  else some (k.upd i fun p =>
    { p with ofile := fun _ => none, cwd := none, point := .exitLock status }, .tau)

def exitLockStep (status : Int32) : Option (Kernel × Event) :=
  if k.waitLock = none then
    some ({ k with waitLock := some i }.goto i (.exitReparent status 0), .tau)
  else none

/-- One round of the loop of `reparent`. -/
def exitReparentStep (status : Int32) (n : Nat) : Option (Kernel × Event) :=
  match slotAt n with
  | none => some (k.goto i (.wakeup (k i).parent 0 (.exit status)), .tau)
  | some j =>
    if (k j).parent = some i then
      some ((k.upd j fun pp => { pp with parent := some initproc }).goto i
        (.wakeup (some initproc) 0 (.reparent status n)), .tau)
    else some (k.goto i (.exitReparent status (n + 1)), .tau)

def Wake.next : Wake → Point
  | .reparent status n => .exitReparent status (n + 1)
  | .exit status => .exitZombie status
  | .send n => .unlock (Int32.ofNat n)

/-- `p->state = RUNNABLE` for a process that sleeps on `chan`. -/
def wake (chan : Option Slot) (p : Proc) : Proc :=
  if p.state = .sleeping ∧ p.chan = chan.map .proc then { p with state := .runnable } else p

/-- One round of the loop of `wakeup`, which skips `myproc()`. -/
def wakeupStep (chan : Option Slot) (m : Nat) (w : Wake) : Option (Kernel × Event) :=
  match slotAt m with
  | none => some (k.goto i (Wake.next w), .tau)
  | some j =>
    if j = i then some (k.goto i (.wakeup chan (m + 1) w), .tau)
    else if (k j).locked then none
    else some ((k.upd j (wake chan)).goto i (.wakeup chan (m + 1) w), .tau)

/-- From `acquire(&p->lock)` to `p->state = ZOMBIE`; the lock stays held. -/
def exitZombieStep (status : Int32) : Option (Kernel × Event) :=
  some (k.upd i fun p =>
    { p with locked := true, xstate := status, state := .zombie, point := .exitUnlock },
    .exit status)

def exitUnlockStep : Option (Kernel × Event) :=
  some ({ k with waitLock := none }.goto i .exitSched, .tau)

/-- `sched` into the scheduler, which releases `p->lock`. -/
def exitSchedStep : Option (Kernel × Event) :=
  some (k.upd i fun p => { p with locked := false, cpu := none, point := .dead }, .tau)

/-! ## kwait, kwaitpid, kipc_recv and sleep -/

def Call.start : Call → Point
  | .wait addr => .waitScan addr 0 false
  | .waitpid pid addr => .waitpidScan pid addr 0
  | .recv dst n => .recvTest dst n

def enterStep (c : Call) : Option (Kernel × Event) :=
  if k.waitLock = none then some ({ k with waitLock := some i }.goto i (Call.start c), .tau)
  else none

/-- Copy the exit status of a zombie out, if the caller wants it. -/
def copyStatus (ok : Nat → Bool) (m : AddrSpace) (addr : UInt64) (xstate : Int32) :
    AddrSpace × Bool :=
  if addr = 0 then (m, true) else copyout ok m addr.toNat (intBytes xstate)

/-- `i` collects its zombie child `j`; a failed copy leaves the child alone. -/
def collect (k : Kernel) (i j : Slot) (addr : UInt64) : Choice → Option (Kernel × Event)
  | .page ok => match copyStatus ok (k i).mem addr (k j).xstate with
    | (m, false) => some ((k.upd i fun p => { p with mem := m }).goto i (.unlock (-1)),
        .reapFail j)
    | (m, true) => some (((k.upd i fun p => { p with mem := m }).upd j freeproc).goto i
        (.unlock (k j).pid), .reap j (k j).pid addr)
  | _ => none

/-- One round of the scan of `kwait`. -/
def waitScanStep (addr : UInt64) (n : Nat) (havekids : Bool)
    (c : Choice) : Option (Kernel × Event) :=
  match slotAt n with
  | none =>
    if havekids then some (k.goto i (.callKilled (.wait addr)), .tau)
    else some (k.goto i (.unlock (-1)), .tau)
  | some j =>
    if (k j).parent = some i then
      if (k j).locked then none
      else if (k j).state = .zombie then collect k i j addr c
      else some (k.goto i (.waitScan addr (n + 1) true), .tau)
    else some (k.goto i (.waitScan addr (n + 1) havekids), .tau)

/-- One round of the scan of `kwaitpid`, which stops at the first match. -/
def waitpidScanStep (pid : Int32) (addr : UInt64) (n : Nat)
    (c : Choice) : Option (Kernel × Event) :=
  match slotAt n with
  | none => some (k.goto i (.unlock (-1)), .tau)
  | some j =>
    if (k j).parent = some i ∧ (k j).pid = pid then
      if (k j).locked then none
      else if (k j).state = .zombie then collect k i j addr c
      else some (k.goto i (.callKilled (.waitpid pid addr)), .tau)
    else some (k.goto i (.waitpidScan pid addr (n + 1)), .tau)

/-- The test of `kipc_recv` under `wait_lock`. -/
def recvTestStep (dst : UInt64) (n : Nat) : Choice → Option (Kernel × Event)
  | .page ok =>
    let p := k.proc i
    if p.ipcReady then
      let m := min p.ipcLen n
      match copyout ok p.mem dst.toNat (p.ipcMsg.take m) with
      | (mem, false) => some ((k.upd i fun p => { p with mem := mem }).goto i (.unlock (-1)), .tau)
      | (mem, true) => some (k.upd i fun p =>
          { p with mem := mem, ipcReady := false, ipcLen := 0, point := .unlock (Int32.ofNat m) },
          .received dst n (p.ipcMsg.take m))
    else some (k.goto i (.callKilled (.recv dst n)), .tau)
  | _ => none

def callKilledStep (c : Call) : Option (Kernel × Event) :=
  if (k i).killed then some (k.goto i (.unlock (-1)), .tau)
  else some (k.goto i (.sleepLock c), .tau)

/-- `sleep(p, &wait_lock)`: take `p->lock`, release `wait_lock`, then change
the state and switch away, whereupon the scheduler releases `p->lock`. -/
def sleepLockStep (c : Call) : Option (Kernel × Event) :=
  some (k.upd i fun p => { p with locked := true, point := .sleepRelease c }, .tau)

def sleepReleaseStep (c : Call) : Option (Kernel × Event) :=
  some ({ k with waitLock := none }.goto i (.sleepSwitch c), .tau)

def sleepSwitchStep (c : Call) : Option (Kernel × Event) :=
  some (k.upd i fun p =>
    { p with
      locked := false
      chan := some (.proc i)
      state := .sleeping
      cpu := none
      point := .asleep c }, .tau)

/-- `release(&wait_lock)` and return. -/
def unlockStep (v : Int32) : Option (Kernel × Event) :=
  some ({ k with waitLock := none }.ret i (ofInt v), .returned v)

/-! ## kipc_send, kkill and ksigsend -/

def sendLockStep (pid : Int32) (msg : List UInt8) : Option (Kernel × Event) :=
  if k.waitLock = none then some ({ k with waitLock := some i }.goto i (.sendScan pid msg 0), .tau)
  else none

/-- `memmove` of the message over the front of the mailbox. -/
def putMail (msg : List UInt8) (p : Proc) : Proc :=
  { p with ipcMsg := msg ++ p.ipcMsg.drop msg.length, ipcLen := msg.length, ipcReady := true }

def sendScanStep (pid : Int32) (msg : List UInt8) (n : Nat) : Option (Kernel × Event) :=
  match slotAt n with
  | none => some (k.goto i (.unlock (-1)), .tau)
  | some t =>
    if (k t).pid = pid ∧ (k t).state ≠ .unused then
      if (k t).ipcReady then some (k.goto i (.unlock (-1)), .tau)
      else some ((k.upd t (putMail msg)).goto i (.wakeup (some t) 0 (.send msg.length)),
        .sent t pid msg)
    else some (k.goto i (.sendScan pid msg (n + 1)), .tau)

def kill (p : Proc) : Proc :=
  { p with killed := true, state := if p.state = .sleeping then .runnable else p.state }

/-- One round of `kkill`; the test does not look at `p->state`. -/
def killScanStep (pid : Int32) (n : Nat) : Option (Kernel × Event) :=
  match slotAt n with
  | none => some (k.ret i (ofInt (-1)), .tau)
  | some j =>
    if (k j).locked then none
    else if (k j).pid = pid then some ((k.upd j kill).ret i 0, .tau)
    else some (k.goto i (.killScan pid (n + 1)), .tau)

def raise (s : Fin nsig) (p : Proc) : Proc :=
  { p with pendingSignals := p.pendingSignals ||| (1#32 <<< s.val) }

/-- One round of `ksigsend`. -/
def sigsendScanStep (pid : Int32) (s : Fin nsig) (n : Nat) : Option (Kernel × Event) :=
  match slotAt n with
  | none => some (k.ret i (ofInt (-1)), .tau)
  | some j =>
    if (k j).locked then none
    else if (k j).pid = pid then some ((k.upd j (raise s)).ret i 0, .sigsend j s)
    else some (k.goto i (.sigsendScan pid s (n + 1)), .tau)

/-! ## sys_getppid and kgetchildren -/

/-- `p->parent->pid`, with the parent that was loaded before and no lock held. -/
def ppidStep (k : Kernel) (i q : Slot) : Option (Kernel × Event) :=
  some (k.ret i (ofInt (k q).pid), .tau)

def childLockStep (addr : UInt64) (maxn : Int32) : Option (Kernel × Event) :=
  if k.waitLock = none then
    some ({ k with waitLock := some i }.goto i (.childScan addr maxn 0 [] 0), .tau)
  else none

/-- One round of the loop of `kgetchildren`; behind the last one it releases `wait_lock`. -/
def childScanStep (addr : UInt64) (maxn : Int32) (m : Nat)
    (pids : List Int32) (n : Nat) : Option (Kernel × Event) :=
  match slotAt m with
  | none => some ({ k with waitLock := none }.goto i (.childCopy addr maxn pids n), .tau)
  | some j =>
    if (k j).parent = some i ∧ (k j).state ≠ .unused ∧ (k j).state ≠ .zombie then
      some (k.goto i (.childScan addr maxn (m + 1)
        (if (n : Int) < maxn.toInt then pids ++ [(k j).pid] else pids) (n + 1)), .tau)
    else some (k.goto i (.childScan addr maxn (m + 1) pids n), .tau)

/-- The `copyout` at the end of `kgetchildren`. A negative `maxn` makes its
length, an unsigned number, larger than the address space: it goes on past
the array over the kernel's stack, until it comes upon a page that the caller
does not have. -/
def childCopyStep (addr : UInt64) (maxn : Int32) (pids : List Int32)
    (n : Nat) : Choice → Option (Kernel × Event)
  | .page ok =>
    if addr = 0 then some (k.ret i (ofInt (Int32.ofNat n)), .children [])
    else if maxn < 0 then none
    else match copyout ok (k i).mem addr.toNat (pids.flatMap intBytes) with
      | (m, false) =>
        some ((k.upd i fun p => { p with mem := m }).ret i (ofInt (-1)), .children pids)
      | (m, true) => some ((k.upd i fun p => { p with mem := m }).ret i (ofInt (Int32.ofNat n)),
          .children pids)
  | .spill ok bytes =>
    if addr ≠ 0 ∧ maxn < 0 then
      some ((k.upd i fun p => { p with mem := (copyout ok p.mem addr.toNat bytes).1 }).ret i
        (ofInt (-1)), .children [])
    else none
  | _ => none

/-! ## The other system calls, and the scheduler -/

/-- A system call that is not modelled: it may sleep on some other channel, and
it returns some value with new contents of the caller's memory and files. -/
def otherStep : Choice → Option (Kernel × Event)
  | .finish v mem ofile cwd =>
    some ((k.upd i fun p => { p with mem := mem, ofile := ofile, cwd := cwd }).ret i v, .tau)
  | .nap n => some (k.upd i fun p =>
      { p with chan := some (.other n), state := .sleeping, cpu := none, point := .napping }, .tau)
  | _ => none

/-- A kernel thread is preempted only where it holds no lock. -/
def Point.preemptible : Point → Bool
  | .user _ _ | .allocReady _ _ _ | .allocLen _ _ _ | .allocRest _ _ _ | .exitReparent _ _
  | .wakeup _ _ _ | .exitZombie _ | .exitUnlock | .exitSched | .dead | .waitScan _ _ _
      | .waitpidScan _ _ _ | .recvTest _ _ | .callKilled _ | .sleepLock _
  | .sleepRelease _ | .sleepSwitch _ | .asleep _ | .unlock _ | .sendScan _ _ _
  | .childScan _ _ _ _ _ | .napping => false
  | _ => true

def yieldStep : Option (Kernel × Event) :=
  if Point.preemptible (k i).point then
    some (k.upd i fun p => { p with state := .runnable, cpu := none }, .tau)
  else none

/-- What `sched` returns into: `sleep` tidies up, the others go on. -/
def resume (p : Proc) : Proc :=
  match p.point with
  | .asleep c => { p with chan := none, point := .enter c }
  | .napping => { p with chan := none, point := .other }
  | _ => p

/-- The scheduler of hart `h`, which runs nothing, picks `i`. -/
def dispatchStep (h : Nat) : Option (Kernel × Event) :=
  if (k i).state = .runnable ∧ (k i).locked = false ∧ ∀ j, (k j).cpu ≠ some h then
    some (k.upd i fun p => { resume p with state := .running, cpu := some h }, .tau)
  else none

/-- Someone calls `wakeup` on the other channel that `i` sleeps on. -/
def rouseStep : Option (Kernel × Event) :=
  match (k i).chan with
  | some (.other _) =>
    if (k i).state = .sleeping ∧ (k i).locked = false then
      some (k.upd i fun p => { p with state := .runnable }, .tau)
    else none
  | _ => none

/-- The section at a control point. -/
def threadStep (c : Choice) : Point → Option (Kernel × Event)
  | .user r pc => userStep k i r pc c
  | .syscall => syscallStep k i c
  | .tail => tailStep k i
  | .sigTest => sigTestStep k i
  | .sigScan n => sigScanStep k i n
  | .sigLoad s => some (k.goto i (.sigStore s (k i).pendingSignals), .tau)
  | .sigStore s w => some (k.upd i (deliver s w), .deliver s (k i).trapframe)
  | .prepare => prepareStep k i
  | .forkret => prepareStep k i
  | .forkCheck f => forkCheckStep k i f
  | .forkScan f n => forkScanStep k i f n
  | .allocReady f j pid => allocReadyStep k i f j pid
  | .allocLen f j pid => allocLenStep k i f j pid
  | .allocRest f j pid => allocRestStep k i f j pid c
  | .forkLink j pid => forkLinkStep k i j pid
  | .forkReady j pid => forkReadyStep k i j pid
  | .forkLoad pid => forkLoadStep k i pid
  | .forkStore pid v => forkStoreStep k i pid v
  | .exitLoad status => exitLoadStep k i status
  | .exitStore status q v => exitStoreStep k i status q v
  | .exitClose status => exitCloseStep k i status
  | .exitLock status => exitLockStep k i status
  | .exitReparent status n => exitReparentStep k i status n
  | .wakeup chan m w => wakeupStep k i chan m w
  | .exitZombie status => exitZombieStep k i status
  | .exitUnlock => exitUnlockStep k i
  | .exitSched => exitSchedStep k i
  | .dead => none
  | .enter call => enterStep k i call
  | .waitScan addr n kids => waitScanStep k i addr n kids c
  | .waitpidScan pid addr n => waitpidScanStep k i pid addr n c
  | .recvTest dst n => recvTestStep k i dst n c
  | .callKilled call => callKilledStep k i call
  | .sleepLock call => sleepLockStep k i call
  | .sleepRelease call => sleepReleaseStep k i call
  | .sleepSwitch call => sleepSwitchStep k i call
  | .asleep _ => none
  | .unlock v => unlockStep k i v
  | .sendLock pid msg => sendLockStep k i pid msg
  | .sendScan pid msg n => sendScanStep k i pid msg n
  | .killScan pid n => killScanStep k i pid n
  | .sigsendScan pid s n => sigsendScanStep k i pid s n
  | .ppid q => ppidStep k i q
  | .childLock addr maxn => childLockStep k i addr maxn
  | .childScan addr maxn m pids n => childScanStep k i addr maxn m pids n
  | .childCopy addr maxn pids n => childCopyStep k i addr maxn pids n c
  | .other => otherStep k i c
  | .napping => none

/-- One step of process `i`. Only a process on some hart runs its thread. -/
def step (c : Choice) : Option (Kernel × Event) :=
  match c with
  | .dispatch h => dispatchStep k i h
  | .rouse => rouseStep k i
  | .yield => if (k i).cpu = none then none else yieldStep k i
  | c => if (k i).cpu = none then none else threadStep k i c (k i).point

end steps

/-- A step's label: who took it, what was chosen, and what it did. -/
structure Label where
  actor : Slot
  choice : Choice
  event : Event

/-- The kernel as a labelled transition system. -/
def Step (k : Kernel) (l : Label) (k' : Kernel) : Prop :=
  step k l.actor l.choice = some (k', l.event)

/-- The histories of a booted kernel: any number of steps of any processes in
any order. -/
abbrev History (b : Boot) : List Label → Kernel → Prop := Run Step (boot b)

/-- The event gives slot `j` to a new occupant, if only until `allocproc` fails. -/
def takes (j : Slot) : Event → Bool
  | .alloc child => child = j
  | _ => false

/-- Which occupant of slot `j` a history has reached. -/
def incarnation : List Label → Slot → Nat
  | [], _ => 0
  | l :: t, j => if takes j l.event then incarnation t j + 1 else incarnation t j

theorem incarnation_takes {t l j} (h : takes j l.event = true) :
    incarnation (l :: t) j = incarnation t j + 1 := by simp [incarnation, h]

theorem incarnation_other {t l j} (h : takes j l.event = false) :
    incarnation (l :: t) j = incarnation t j := by simp [incarnation, h]

theorem incarnation_mono (t : List Label) (l : Label) (j : Slot) :
    incarnation t j ≤ incarnation (l :: t) j := by
  simp only [incarnation]
  split <;> omega

/-- The part of a history that belongs to the current occupant of slot `j`. -/
def tenure : List Label → Slot → List Label
  | [], _ => []
  | l :: t, j => if takes j l.event then [] else l :: tenure t j

theorem tenure_takes {i j c e t} (h : takes j e = true) : tenure (⟨i, c, e⟩ :: t) j = [] := by
  simp [tenure, h]

theorem tenure_cons {i j c e t}
    (h : takes j e = false) : tenure (⟨i, c, e⟩ :: t) j = ⟨i, c, e⟩ :: tenure t j := by
  simp [tenure, h]

/-! ## Concrete runs -/

/-- Who takes the next steps, each with its choice. -/
abbrev Schedule := List (Slot × Choice)

/-- Take the steps one after another, as long as each meets `cond`. -/
def execWhen (cond : Kernel → Label → Prop) [∀ k l, Decidable (cond k l)] (k : Kernel)
    (as : Schedule) : Option (Kernel × List Label) :=
  replay (fun k a => (step k a.1 a.2).bind fun r =>
    if cond k ⟨a.1, a.2, r.2⟩ then some (r.1, ⟨a.1, a.2, r.2⟩) else none) k [] as

theorem execWhen_run {cond} [∀ k l, Decidable (cond k l)] {k k' as ls}
    (h : execWhen cond k as = some (k', ls)) : Run (When Step cond) k ls k' := by
  refine replay_run (fun s a s' e hn => ?_) .nil h
  simp only [bind_eq_some_iff] at hn
  obtain ⟨⟨s1, e1⟩, hs, hn⟩ := hn
  split at hn
  · rename_i hc
    cases hn
    exact ⟨hs, hc⟩
  · cases hn

/-- A replay that ends in a state with a decidable property is a run to it. -/
theorem execWhen_reaches (cond : Kernel → Label → Prop) [∀ k l, Decidable (cond k l)] (k : Kernel)
    (as : Schedule) (P : List Label → Kernel → Prop) [∀ t k, Decidable (P t k)]
    (h : ((execWhen cond k as).any fun r => decide (P r.2 r.1)) = true) :
    ∃ t k', Run (When Step cond) k t k' ∧ P t k' := by
  rw [any_eq_true] at h
  obtain ⟨⟨k', t⟩, hr, hp⟩ := h
  exact ⟨t, k', execWhen_run hr, of_decide_eq_true hp⟩

def exec (k : Kernel) (as : Schedule) : Option (Kernel × List Label) :=
  execWhen (fun _ _ => True) k as

theorem exec_reaches {b} (as : Schedule) {P : List Label → Kernel → Prop}
    [∀ t k, Decidable (P t k)] (h : ((exec (boot b) as).any fun r => decide (P r.2 r.1)) = true) :
    ∃ t k, History b t k ∧ P t k := by
  obtain ⟨t, k, hr, hp⟩ := execWhen_reaches _ _ _ _ h
  exact ⟨t, k, hr.of_when, hp⟩

/-- A replay, and one more step from where it ends. -/
theorem execWhen_steps (cond : Kernel → Label → Prop) [∀ k l, Decidable (cond k l)] (k : Kernel)
    (as : Schedule) (i : Slot) (c : Choice)
    (P : List Label → Kernel → Event → Kernel → Prop) [∀ t k e k', Decidable (P t k e k')]
    (h : ((execWhen cond k as).any fun r => (step r.1 i c).any fun r' =>
      decide (P r.2 r.1 r'.2 r'.1)) = true) :
    ∃ t k1 e k2, Run (When Step cond) k t k1 ∧ Step k1 ⟨i, c, e⟩ k2 ∧ P t k1 e k2 := by
  rw [any_eq_true] at h
  obtain ⟨⟨k1, t⟩, hr, h⟩ := h
  rw [any_eq_true] at h
  obtain ⟨⟨k2, e⟩, hs, hp⟩ := h
  exact ⟨t, k1, e, k2, execWhen_run hr, hs, of_decide_eq_true hp⟩

theorem exec_steps {b} (as : Schedule) (i : Slot) (c : Choice)
    {P : List Label → Kernel → Event → Kernel → Prop} [∀ t k e k', Decidable (P t k e k')]
    (h : ((exec (boot b) as).any fun r => (step r.1 i c).any fun r' =>
      decide (P r.2 r.1 r'.2 r'.1)) = true) :
    ∃ t k e k', History b t k ∧ Step k ⟨i, c, e⟩ k' ∧ P t k e k' := by
  obtain ⟨t, k, e, k', hr, hs, hp⟩ := execWhen_steps _ _ _ _ _ _ h
  exact ⟨t, k, e, k', hr.of_when, hs, hp⟩

/-- A replay, one step, and another replay. -/
theorem exec_step_exec {b} (as : Schedule) (i : Slot) (c : Choice)
    (bs : Schedule) {P : Event → List Label → Kernel → Prop}
    [∀ e t k, Decidable (P e t k)]
    (h : ((exec (boot b) as).any fun r => (step r.1 i c).any fun r1 =>
      (exec r1.1 bs).any fun r2 => decide (P r1.2 r2.2 r2.1)) = true) :
    ∃ t1 e t2 k, History b (t2 ++ ⟨i, c, e⟩ :: t1) k ∧ P e t2 k := by
  rw [any_eq_true] at h
  obtain ⟨⟨k1, t1⟩, run1, h⟩ := h
  rw [any_eq_true] at h
  obtain ⟨⟨k2, e⟩, s, h⟩ := h
  obtain ⟨t2, k3, run2, hp⟩ := execWhen_reaches _ _ _ (fun t k => P e t k) h
  refine ⟨t1, e, t2, k3, .trans (.cons (execWhen_run run1).of_when ?_) run2.of_when, hp⟩
  exact s

/-- The kernel that a list of steps leads to, if they can all be taken. -/
def after (k : Kernel) (as : Schedule) : Kernel := (exec k as).elim k Prod.fst

theorem after_run (k : Kernel) (as : Schedule) : ∃ t, Run Step k t (after k as) := by
  unfold after
  cases h : exec k as with
  | none => exact ⟨[], .nil⟩
  | some r => exact ⟨r.2, (execWhen_run h).of_when⟩

/-- A boot of the empty program. -/
def bareBoot : Boot where
  init := ⟨.empty, 0, 0, 0, []⟩
  root := 0
  satp := fun _ => 0
  usertrap := 0

/-- A boot of a program with one page of data. -/
def dataBoot : Boot :=
  { bareBoot with init := { bareBoot.init with
    mem := ⟨fun v => if v = 1 then some zeroPage else none, 8192⟩ } }

/-- `n` sections of `i`. -/
def goes (i : Slot) (n : Nat) : Schedule := List.replicate n (i, .go)

/-- `i` calls system call `num` from user space, and `syscall` takes choice `c`. -/
def ecall (i : Slot) (num a0 a1 a2 : UInt64) (c : Choice) : Schedule :=
  [(i, .run { UserRegs.fill 0 with a7 := num, a0 := a0, a1 := a1, a2 := a2 } 0 []),
    (i, .trap .syscall), (i, c)]

/-- `i` starts on hart `h` and reaches user space. -/
def starts (i : Slot) (h : Nat) : Schedule := [(i, .dispatch h), (i, .go)]

/-- From `usertrap`'s tail through a signal loop that finds nothing. -/
def returns (i : Slot) : Schedule := goes i (nsig + 4)

/-- `i` forks a child into slot `n`, the first unused one, and returns. -/
def forks (i : Slot) (n : Nat) : Schedule :=
  ecall i 1 0 0 0 .go ++ goes i (n + 4) ++ [(i, .alloc .ok)] ++ goes i 4 ++ returns i

/-- `i` exits with `status`, handing `kids` children to init. -/
def exits (i : Slot) (status : UInt64) (kids : Nat) : Schedule :=
  ecall i 2 status 0 0 .go ++ goes i (4 + (nproc + 1) + kids * (nproc + 1) + (nproc + 1) + 3)

end OsProject.Xv6.Machine
