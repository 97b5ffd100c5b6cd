import Mathlib.Data.Fintype.Basic
import Mathlib.Data.Fin.Basic
import OsProject.Xv6.Memory

/-! # The process table

`Proc` is `struct proc` with the user page table read as an address space.
The kernel thread of a process (its `context` and kernel stack) is a control
point: the place in the kernel's code where it stands, with the local
variables that are live there. Between two control points lies one section of
code that no other process can observe half done: a section under some
`p->lock`, or a single unlocked access to shared memory. `wait_lock` sections
are cut at the `p->lock` sections inside them. `allocproc` is cut at its stores
to the mailbox: `kipc_send` writes there under `wait_lock` and does not wait for
`p->lock`. -/
namespace OsProject.Xv6.ProcTable
open Memory

abbrev nproc : Nat := 64
abbrev nofile : Nat := 16
abbrev nsig : Nat := 32
abbrev ipcMaxMsg : Nat := 64

/-- An index into `proc[NPROC]`, standing for a `struct proc *`. -/
abbrev Slot := Fin nproc

instance : NeZero nproc := ⟨by decide⟩

/-- `userinit` runs `allocproc` on an empty table, so `initproc` is `&proc[0]`. -/
def initproc : Slot := 0

inductive ProcState where
  | unused | used | sleeping | runnable | running | zombie
  deriving DecidableEq

/-- What a process sleeps on: a `struct proc *`, or some other kernel address. -/
inductive Chan where
  | proc (j : Slot)
  | other (n : Nat)
  deriving DecidableEq

/-- The user registers that `uservec` saves and `userret` restores. -/
structure UserRegs where
  (ra sp gp tp : UInt64)
  (t0 t1 t2 : UInt64)
  (s0 s1 : UInt64)
  (a0 a1 a2 a3 a4 a5 a6 a7 : UInt64)
  (s2 s3 s4 s5 s6 s7 s8 s9 s10 s11 : UInt64)
  (t3 t4 t5 t6 : UInt64)
  deriving DecidableEq

/-- Every user register holding `v`. -/
def UserRegs.fill (v : UInt64) : UserRegs :=
  ⟨v, v, v, v, v, v, v, v, v, v, v, v, v, v, v, v, v, v, v, v, v, v, v, v, v, v, v, v, v, v, v⟩

structure Trapframe where
  kernelSatp : UInt64
  kernelSp : UInt64
  kernelTrap : UInt64
  epc : UInt64
  kernelHartid : UInt64
  user : UserRegs
  deriving DecidableEq

def Trapframe.fill (v : UInt64) : Trapframe := ⟨v, v, v, v, v, .fill v⟩

/-- `p->trapframe->a0 = v`. -/
def Trapframe.setA0 (t : Trapframe) (v : UInt64) : Trapframe :=
  { t with user := { t.user with a0 := v } }

/-- The two callers of `allocproc` that make a child. -/
inductive Fork where
  | fork
  | thread (func arg : UInt64)

/-- The calls that loop under `wait_lock` and `sleep` on the caller's own slot. -/
inductive Call where
  | wait (addr : UInt64)
  | waitpid (pid : Int32) (addr : UInt64)
  | recv (dst : UInt64) (n : Nat)

/-- Where `wakeup` returns to. -/
inductive Wake where
  | reparent (status : Int32) (n : Nat)
  | exit (status : Int32)
  | send (n : Nat)

/-- Where a process's kernel thread stands. -/
inductive Point where
  -- user mode, with the live registers and program counter
  | user (r : UserRegs) (pc : UInt64)
  -- usertrap
  | syscall
  | tail
  | sigTest
  | sigScan (n : Nat)
  | sigLoad (s : Fin nsig)
  | sigStore (s : Fin nsig) (w : BitVec 32)
  | prepare
  | forkret
  -- kfork, thread_fork
  | forkCheck (f : Fork)
  | forkScan (f : Fork) (n : Nat)
  -- allocproc behind `found:`, before `p->ipc_ready = 0`, before `p->ipc_len = 0` and behind it
  | allocReady (f : Fork) (child : Slot) (pid : Int32)
  | allocLen (f : Fork) (child : Slot) (pid : Int32)
  | allocRest (f : Fork) (child : Slot) (pid : Int32)
  | forkLink (child : Slot) (pid : Int32)
  | forkReady (child : Slot) (pid : Int32)
  | forkLoad (pid : Int32)
  | forkStore (pid : Int32) (v : Int)
  -- kexit
  | exitLoad (status : Int32)
  | exitStore (status : Int32) (parent : Slot) (v : Int)
  | exitClose (status : Int32)
  | exitLock (status : Int32)
  | exitReparent (status : Int32) (n : Nat)
  | wakeup (chan : Option Slot) (m : Nat) (w : Wake)
  | exitZombie (status : Int32)
  | exitUnlock
  | exitSched
  | dead
  -- kwait, kwaitpid, kipc_recv, sleep
  | enter (c : Call)
  | waitScan (addr : UInt64) (n : Nat) (havekids : Bool)
  | waitpidScan (pid : Int32) (addr : UInt64) (n : Nat)
  | recvTest (dst : UInt64) (n : Nat)
  | callKilled (c : Call)
  | sleepLock (c : Call)
  | sleepRelease (c : Call)
  | sleepSwitch (c : Call)
  | asleep (c : Call)
  | unlock (v : Int32)
  -- kipc_send
  | sendLock (pid : Int32) (msg : List UInt8)
  | sendScan (pid : Int32) (msg : List UInt8) (n : Nat)
  -- kkill, ksigsend
  | killScan (pid : Int32) (n : Nat)
  | sigsendScan (pid : Int32) (s : Fin nsig) (n : Nat)
  -- sys_getppid, between its loads of the parent and of the parent's pid
  | ppid (parent : Slot)
  -- kgetchildren
  | childLock (addr : UInt64) (maxn : Int32)
  | childScan (addr : UInt64) (maxn : Int32) (m : Nat) (pids : List Int32) (n : Nat)
  | childCopy (addr : UInt64) (maxn : Int32) (pids : List Int32) (n : Nat)
  -- every other system call
  | other
  | napping

/-- `struct proc`. `locked` is `p->lock`, `mem` is `p->pagetable` with `p->sz`,
`point` is `p->context` with the kernel stack, `name` is the string up to its
NUL, and `cpu` is the hart whose `c->proc` is this process. A null
`p->trapframe` is the frame of zeroes: it is never read. -/
structure Proc where
  locked : Bool
  state : ProcState
  chan : Option Chan
  killed : Bool
  xstate : Int32
  pid : Int32
  -- an `int` in C; `ForkCount.forkCount_range` says how long it cannot wrap
  forkCount : Int
  parent : Option Slot
  mem : AddrSpace
  trapframe : Trapframe
  point : Point
  ofile : Fin nofile → Option Nat
  cwd : Option Nat
  name : List UInt8
  pendingSignals : BitVec 32
  signalHandlers : Fin nsig → UInt64
  savedTrapframe : Trapframe
  handlingSignal : Bool
  ipcReady : Bool
  ipcLen : Nat
  ipcMsg : List UInt8
  cpu : Option Nat

/-- A zeroed `struct proc`, as `procinit` leaves it. -/
def Proc.zero : Proc where
  locked := false
  state := .unused
  chan := none
  killed := false
  xstate := 0
  pid := 0
  forkCount := 0
  parent := none
  mem := .empty
  trapframe := .fill 0
  point := .dead
  ofile := fun _ => none
  cwd := none
  name := []
  pendingSignals := 0
  signalHandlers := fun _ => 0
  savedTrapframe := .fill 0
  handlingSignal := false
  ipcReady := false
  ipcLen := 0
  ipcMsg := List.replicate ipcMaxMsg 0
  cpu := none

/-- `(uint64)-1`: no handler registered. -/
def noHandler : UInt64 := 0xFFFFFFFFFFFFFFFF

/-- Release everything a process holds, as `freeproc` does. -/
def freeproc (p : Proc) : Proc :=
  { p with
    trapframe := .fill 0
    mem := .empty
    pid := 0
    parent := none
    name := []
    chan := none
    killed := false
    xstate := 0
    ipcReady := false
    ipcLen := 0
    state := .unused }

/-- `release(&p->lock)`. -/
def release (p : Proc) : Proc := { p with locked := false }

/-- `allocproc` from `acquire(&p->lock)` on an unused slot to the first store to
its mailbox. The new thread is put at `forkret` here: nobody runs it before it
is `RUNNABLE`. -/
def allocFound (p : Proc) (pid : Int32) : Proc :=
  { p with
    locked := true
    pid := pid
    state := .used
    pendingSignals := 0
    handlingSignal := false
    point := .forkret }

/-- The assignments of `allocproc` behind `p->ipc_len = 0`, before any allocation. -/
def allocReset (p : Proc) : Proc :=
  { p with
    signalHandlers := fun _ => noHandler
    ipcMsg := List.replicate ipcMaxMsg 0
    forkCount := 0 }

/-- The rest of `allocproc` when both allocations succeed; `kalloc` fills the
trapframe page with fives. -/
def allocproc (p : Proc) : Proc :=
  { allocReset p with
    trapframe := .fill 0x0505050505050505
    mem := { p.mem with pages := fun _ => none } }

/-- What `kfork` and `thread_fork` copy from the parent `p` into the child
`np` while they hold `np->lock`. -/
def forkCopy (f : Fork) (p np : Proc) : Proc :=
  { np with
    mem := uvmcopy p.mem
    trapframe := match f with
      | .fork => p.trapframe.setA0 0
      | .thread func arg => { p.trapframe with epc := func }.setA0 arg
    ofile := fun fd => match p.ofile fd with
      | some x => some x
      | none => np.ofile fd
    cwd := p.cwd
    name := p.name.take 15 }

/-- The program that a successful `kexec` loads. -/
structure Image where
  mem : AddrSpace
  entry : UInt64
  sp : UInt64
  argc : UInt64
  name : List UInt8

/-- `kexec` from `p->trapframe->a1 = sp` to its `return argc`. -/
def kexecCommit (img : Image) (p : Proc) : Proc :=
  { p with
    name := img.name.take 15
    mem := img.mem
    trapframe := { p.trapframe with
      epc := img.entry
      user := { p.trapframe.user with a1 := img.sp, sp := img.sp } } }

/-- The kernel's process state: the table, `wait_lock` with its holder,
`nextpid`, and the values `prepare_return` reads from the machine (the `satp`
of each hart while it is in the kernel, the address of `usertrap`). -/
@[ext]
structure Kernel where
  proc : Slot → Proc
  waitLock : Option Slot
  nextpid : Int32
  satp : Nat → UInt64
  usertrap : UInt64

-- `k i` is the entry of slot `i`
instance : CoeFun Kernel fun _ => Slot → Proc := ⟨Kernel.proc⟩

/-- The fixed values a boot starts from, with the program `/init`. -/
structure Boot where
  init : Image
  root : Nat
  satp : Nat → UInt64
  usertrap : UInt64

/-- After `userinit` and the `kexec` of `/init` in init's `forkret`: one process,
in slot 0, ready to enter user space. -/
def boot (b : Boot) : Kernel where
  proc := fun j =>
    if j = initproc then
      let np := release (allocproc (allocFound .zero 1))
      let p := kexecCommit b.init { np with cwd := some b.root, state := .runnable }
      { p with trapframe := p.trapframe.setA0 b.init.argc }
    else .zero
  waitLock := none
  nextpid := 2
  satp := b.satp
  usertrap := b.usertrap

/-- What init has after `userinit` as an unused entry has it, every entry has. -/
theorem boot_frame {β : Type*} (b : Boot) (m : Slot) (g : Proc → β)
    (init : g ((boot b).proc initproc) = g .zero) : g ((boot b).proc m) = g .zero := by
  by_cases hm : m = initproc
  · rw [hm, init]
  · simp only [boot, hm, if_false]

/-! ## Updates of the table -/

def Kernel.upd (k : Kernel) (j : Slot) (f : Proc → Proc) : Kernel :=
  { k with proc := fun m => if m = j then f (k m) else k.proc m }

def Kernel.goto (k : Kernel) (i : Slot) (pt : Point) : Kernel :=
  k.upd i fun p => { p with point := pt }

/-- A system call returns `v`: `syscall` stores it in `a0`, and `usertrap` goes on. -/
def Kernel.ret (k : Kernel) (i : Slot) (v : UInt64) : Kernel :=
  k.upd i fun p => { p with trapframe := p.trapframe.setA0 v, point := .tail }

section updates
variable {k : Kernel} {i j m : Slot} {f : Proc → Proc}

theorem upd_proc : (k.upd j f).proc m = if m = j then f (k m) else k.proc m := rfl

@[simp] theorem upd_self : (k.upd j f).proc j = f (k j) := by simp [upd_proc]

@[simp] theorem upd_ne (h : m ≠ j) : (k.upd j f).proc m = k.proc m := by simp [upd_proc, h]

theorem upd_upd (g : Proc → Proc) : (k.upd j f).upd j g = k.upd j fun p => g (f p) := by
  simp only [Kernel.upd, Kernel.mk.injEq, and_self, and_true]
  funext m
  split <;> rfl

theorem upd_congr {f g} {k : Kernel} {j} (h : f (k j) = g (k j)) : k.upd j f = k.upd j g := by
  simp only [Kernel.upd, Kernel.mk.injEq, and_self, and_true]
  funext m
  split
  · rename_i hm; rw [hm]; exact h
  · rfl

/-- A field that `f` leaves alone is unchanged in every slot. -/
theorem upd_frame {β : Type*} (g : Proc → β) (h : g (f (k j)) = g (k j)) :
    g ((k.upd j f).proc m) = g (k m) := by
  by_cases hm : m = j
  · subst hm; simp [h]
  · simp [hm]

/-! A move of `i`'s control point, and a return, leave the fields of every process's life alone. -/

variable {pt : Point} {v : UInt64}

@[simp] theorem goto_self : (k.goto i pt).proc i = { k.proc i with point := pt } := upd_self
@[simp] theorem goto_point : ((k.goto i pt).proc i).point = pt := by rw [goto_self]
@[simp] theorem goto_ne (h : m ≠ i) : (k.goto i pt).proc m = k.proc m := upd_ne h
@[simp] theorem goto_locked : ((k.goto i pt).proc m).locked = (k m).locked :=
  upd_frame Proc.locked rfl
@[simp] theorem goto_state : ((k.goto i pt).proc m).state = (k m).state := upd_frame Proc.state rfl
@[simp] theorem goto_pid : ((k.goto i pt).proc m).pid = (k m).pid := upd_frame Proc.pid rfl
@[simp] theorem goto_trapframe : ((k.goto i pt).proc m).trapframe = (k m).trapframe :=
  upd_frame Proc.trapframe rfl
@[simp] theorem goto_forkCount : ((k.goto i pt).proc m).forkCount = (k m).forkCount :=
  upd_frame Proc.forkCount rfl
@[simp] theorem goto_parent : ((k.goto i pt).proc m).parent = (k m).parent :=
  upd_frame Proc.parent rfl
@[simp] theorem goto_cpu : ((k.goto i pt).proc m).cpu = (k m).cpu := upd_frame Proc.cpu rfl

@[simp] theorem ret_ne (h : m ≠ i) : (k.ret i v).proc m = k.proc m := upd_ne h
@[simp] theorem ret_point : ((k.ret i v).proc i).point = .tail := by simp [Kernel.ret]
@[simp] theorem ret_state : ((k.ret i v).proc m).state = (k m).state := upd_frame Proc.state rfl
@[simp] theorem ret_forkCount : ((k.ret i v).proc m).forkCount = (k m).forkCount :=
  upd_frame Proc.forkCount rfl

theorem goto_goto (pt' : Point) : (k.goto i pt).goto i pt' = k.goto i pt' := upd_upd _

/-- What holds of every entry still does after one entry has changed. -/
theorem upd_all {P : Slot → Proc → Prop} {k : Kernel} {j f}
    (h : ∀ m, P m (k m)) (hj : P j (f (k j))) (m : Slot) : P m ((k.upd j f).proc m) := by
  by_cases hm : m = j
  · subst hm; rw [upd_self]; exact hj
  · rw [upd_ne hm]; exact h m

end updates

end OsProject.Xv6.ProcTable
