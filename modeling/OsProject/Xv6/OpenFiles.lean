import OsProject.Lib.Threads
import OsProject.Lib.Transition
import OsProject.Xv6.Files

/-! # The file table and the descriptors

`file.c`, the descriptors of `sysfile.c`, and what `fork`, `thread_create` and `exit` do to
them, by all processes at once. A section is what a call does under `ftable.lock`,
`pi->lock` or a `p->lock`, or one access to its own table. What the file system, the
allocator and the user's memory answer is the environment's choice; so is whether
`fork_count` is at its limit. A pipe is named by the number of its allocation, and `frees`
counts how often its page is freed. -/
namespace OsProject.Xv6.OpenFiles
open Lib.Threads Lib.Transition
open Function (update)

abbrev Slot := Fin Files.nproc
abbrev Desc := Fin Files.nofile
abbrev Entry := Fin Files.nfile

inductive FdType where
  | none | pipe | inode | device
  deriving DecidableEq

structure File where
  type : FdType
  ref : Nat
  readable : Bool
  writable : Bool
  pipe : Nat
  ip : Nat
  off : UInt32
  major : Int16

inductive State where
  | unused | used | live | zombie
  deriving DecidableEq

inductive Panic where
  | filedup | fileclose | initExiting
  deriving DecidableEq

structure Shared where
  ftable : Entry → File
  ofile : Slot → Desc → Option Entry
  state : Slot → State
  pid : Slot → Int32
  nextpid : Int32
  npipes : Nat
  isOpen : Nat → Bool → Bool
  frees : Nat → Nat
  panic : Option Panic

/-- What `sys_open` finds: the inode, if it is a device, and its major number. -/
structure Found where
  ip : Nat
  device : Bool
  major : Int16

/-- What the environment answers. -/
structure Choice where
  ok : Bool
  found : Option Found

/-- What a call writes into a file that it has allocated. -/
inductive Fill where
  | pipe (pi : Nat) (writable : Bool)
  | inode (ip : Found) (omode : UInt32)

inductive Op where
  | ofile (fd : Desc)
  | setOfile (fd : Desc) (v : Option Entry)
  | filealloc
  | filedup (f : Entry)
  | drop (f : Entry)
  | fill (f : Entry) (x : Fill)
  | closeEnd (pi : Nat) (writable : Bool)
  | kalloc
  | kfree (pi : Nat)
  | inode
  | iput (ip : Nat)
  | succeeds
  | claim (j : Slot)
  | freeproc (j : Slot)
  | setChild (j : Slot) (fd : Desc) (f : Entry)
  | pid (j : Slot)
  | runnable (j : Slot)
  | notInit
  | zombie
  | reap (j : Slot)

def Res : Op → Type
  | .ofile _ => Option Entry
  | .filealloc => Option Entry
  | .drop _ => Option File
  | .closeEnd .. | .succeeds | .claim _ | .reap _ => Bool
  | .kalloc => Option Nat
  | .inode => Option Found
  | .pid _ => Int32
  | .setOfile .. | .filedup _ | .fill .. | .kfree _ | .iput _ | .freeproc _ | .setChild ..
      | .runnable _
  | .notInit | .zombie => Unit

abbrev Code := Prog Res

/-! ## Sections -/

theorem nproc_pos : 0 < Files.nproc := by decide

def initproc : Slot := ⟨0, nproc_pos⟩

def O_WRONLY : UInt32 := 1
def O_RDWR : UInt32 := 2

def Fill.apply (f : File) : Fill → File
  | .pipe pi w => { f with type := .pipe, readable := !w, writable := w, pipe := pi }
  | .inode ip omode =>
    let f := if ip.device then { f with type := .device, major := ip.major }
      else { f with type := .inode, off := 0 }
    { f with
      ip := ip.ip
      readable := omode &&& O_WRONLY = 0
      writable := omode &&& O_WRONLY ≠ 0 || omode &&& O_RDWR ≠ 0 }

def Shared.setFile (s : Shared) (f : Entry) (x : File) : Shared :=
  { s with ftable := update s.ftable f x }

def Shared.setFd (s : Shared) (p : Slot) (fd : Desc) (v : Option Entry) : Shared :=
  { s with ofile := update s.ofile p (update (s.ofile p) fd v) }

def Shared.setState (s : Shared) (p : Slot) (x : State) : Shared :=
  { s with state := update s.state p x }

def Shared.setOpen (s : Shared) (pi : Nat) (x : Bool → Bool) : Shared :=
  { s with isOpen := update s.isOpen pi x }

def exec : Exec Slot Res Choice Shared := fun p o c s =>
  match o with
  | .ofile fd => some (some (s.ofile p fd), s)
  | .setOfile fd v => some (some (), s.setFd p fd v)
  | .filealloc =>
    match (List.finRange Files.nfile).find? fun f => (s.ftable f).ref = 0 with
    | some f => some (some (some f), s.setFile f { s.ftable f with ref := 1 })
    | none => some (some none, s)
  | .filedup f =>
    if (s.ftable f).ref < 1 then some (none, { s with panic := some .filedup })
    else some (some (), s.setFile f { s.ftable f with ref := (s.ftable f).ref + 1 })
  | .drop f =>
    let ff := { s.ftable f with ref := (s.ftable f).ref - 1 }
    if (s.ftable f).ref < 1 then some (none, { s with panic := some .fileclose })
    else if 0 < ff.ref then some (some none, s.setFile f ff)
    else some (some (some ff), s.setFile f { ff with type := .none })
  | .fill f x => some (some (), s.setFile f (x.apply (s.ftable f)))
  | .closeEnd pi w =>
    let ends := update (s.isOpen pi) w false
    some (some (!ends false && !ends true), s.setOpen pi ends)
  | .kalloc =>
    if c.ok then
      some (some (some s.npipes),
        { s.setOpen s.npipes (fun _ => true) with npipes := s.npipes + 1 })
    else some (some none, s)
  | .kfree pi => some (some (), { s with frees := update s.frees pi (s.frees pi + 1) })
  | .inode => some (some c.found, s)
  | .iput _ => some (some (), s)
  | .succeeds => some (some c.ok, s)
  | .claim j =>
    if s.state j = .unused then
      some (some true, { s.setState j .used with
        pid := update s.pid j s.nextpid
        nextpid := s.nextpid + 1 })
    else some (some false, s)
  | .freeproc j => some (some (), { s.setState j .unused with pid := update s.pid j 0 })
  | .setChild j fd f => some (some (), s.setFd j fd (some f))
  | .pid j => some (some (s.pid j), s)
  | .runnable j => some (some (), s.setState j .live)
  | .notInit =>
    if p = initproc then some (none, { s with panic := some .initExiting }) else some (some (), s)
  | .zombie => some (none, s.setState p .zombie)
  | .reap j =>
    if s.state j = .zombie then
      some (some true, { s.setState j .unused with pid := update s.pid j 0 })
    else some (some false, s)

/-! ## Calls -/

def ofile (fd : Desc) : Code (Option Entry) := perform (Op.ofile fd)
def setOfile (fd : Desc) (v : Option Entry) : Code Unit := perform (Op.setOfile fd v)
def filealloc : Code (Option Entry) := perform Op.filealloc
def filedup (f : Entry) : Code Unit := perform (Op.filedup f)
def fill (f : Entry) (x : Fill) : Code Unit := perform (Op.fill f x)
def kfree (pi : Nat) : Code Unit := perform (Op.kfree pi)
def iput (ip : Nat) : Code Unit := perform (Op.iput ip)
def succeeds : Code Bool := perform Op.succeeds
def freeproc (j : Slot) : Code Unit := perform (Op.freeproc j)

/-- The section of `fileclose`: the file if this was its last reference. -/
def drop (f : Entry) : Code (Option File) := perform (Op.drop f)

/-- The section of `pipeclose`: if both ends are closed. -/
def closeEnd (pi : Nat) (writable : Bool) : Code Bool := perform (Op.closeEnd pi writable)

/-- A page for a pipe, with both ends open. -/
def kalloc : Code (Option Nat) := perform Op.kalloc

/-- `p->state == UNUSED` in `allocproc`, and then `USED` with a new pid. -/
def claim (j : Slot) : Code Bool := perform (Op.claim j)

/-- `np->ofile[fd] = f` in the child. -/
def setChild (j : Slot) (fd : Desc) (f : Entry) : Code Unit := perform (Op.setChild j fd f)

def pidOf (j : Slot) : Code Int32 := perform (Op.pid j)
def runnable (j : Slot) : Code Unit := perform (Op.runnable j)
def notInit : Code Unit := perform Op.notInit
def zombie : Code Unit := perform Op.zombie
def reap (j : Slot) : Code Bool := perform (Op.reap j)
def openInode : Code (Option Found) := perform Op.inode

def pipeclose (pi : Nat) (writable : Bool) : Code Unit := do
  if ← closeEnd pi writable then kfree pi

def fileclose (f : Entry) : Code Unit := do
  match ← drop f with
  | none => return ()
  | some ff =>
    match ff.type with
    | .pipe => pipeclose ff.pipe ff.writable
    | .inode | .device => iput ff.ip
    | .none => return ()

def argfd (n : Int32) : Code (Option (Desc × Entry)) := do
  if h : 0 ≤ n.toInt ∧ n.toInt.toNat < Files.nofile then
    match ← ofile ⟨n.toInt.toNat, h.2⟩ with
    | some f => return some (⟨n.toInt.toNat, h.2⟩, f)
    | none => return none
  else return none

def fdallocFrom (f : Entry) : List Desc → Code (Option Desc)
  | [] => return none
  | fd :: rest => do
    match ← ofile fd with
    | none =>
      setOfile fd (some f)
      return some fd
    | some _ => fdallocFrom f rest

def fdalloc (f : Entry) : Code (Option Desc) := fdallocFrom f (List.finRange Files.nofile)

def sysDup (n : Int32) : Code Int := do
  match ← argfd n with
  | none => return -1
  | some (_, f) =>
    match ← fdalloc f with
    | none => return -1
    | some fd =>
      filedup f
      return fd.val

def sysClose (n : Int32) : Code Int := do
  match ← argfd n with
  | none => return -1
  | some (fd, f) =>
    setOfile fd none
    fileclose f
    return 0

/-- From where the inode is looked up or created and locked. -/
def sysOpen (omode : UInt32) : Code Int := do
  match ← openInode with
  | none => return -1
  | some ip =>
    if ip.device ∧ (ip.major < 0 ∨ Files.ndev ≤ ip.major) then
      iput ip.ip
      return -1
    else
      match ← filealloc with
      | none =>
        iput ip.ip
        return -1
      | some f =>
        match ← fdalloc f with
        | none =>
          fileclose f
          iput ip.ip
          return -1
        | some fd =>
          fill f (.inode ip omode)
          return fd.val

/-- At `bad` the pipe has never been allocated. -/
def pipealloc : Code (Option (Entry × Entry)) := do
  match ← filealloc with
  | none => return none
  | some f0 =>
    match ← filealloc with
    | none =>
      fileclose f0
      return none
    | some f1 =>
      match ← kalloc with
      | none =>
        fileclose f0
        fileclose f1
        return none
      | some pi =>
        fill f0 (.pipe pi false)
        fill f1 (.pipe pi true)
        return some (f0, f1)

/-- The end of `sys_pipe` where a descriptor cannot be had or told. -/
def closeBoth (rf wf : Entry) : Code Int := do
  fileclose rf
  fileclose wf
  return -1

def sysPipe : Code Int := do
  match ← pipealloc with
  | none => return -1
  | some (rf, wf) =>
    match ← fdalloc rf with
    | none => closeBoth rf wf
    | some fd0 =>
      match ← fdalloc wf with
      | none =>
        setOfile fd0 none
        closeBoth rf wf
      | some fd1 =>
        -- the two `copyout`
        if ← succeeds then return 0
        else
          setOfile fd0 none
          setOfile fd1 none
          closeBoth rf wf

def allocprocFrom : List Slot → Code (Option Slot)
  | [] => return none
  | j :: rest => do
    if ← claim j then
      -- the trapframe and the page table
      if ← succeeds then return some j
      else
        freeproc j
        return none
    else allocprocFrom rest

def allocproc : Code (Option Slot) := allocprocFrom (List.finRange Files.nproc)

def dupFiles (np : Slot) : List Desc → Code Unit
  | [] => return ()
  | fd :: rest => do
    match ← ofile fd with
    | some f =>
      filedup f
      setChild np fd f
      dupFiles np rest
    | none => dupFiles np rest

/-- The common part of `kfork` and `thread_fork`, which differ in the registers of the child. -/
def forkWith : Code Int := do
  -- `fork_count` below its limit
  if ← succeeds then
    match ← allocproc with
    | none => return -1
    | some np =>
      -- `uvmcopy`
      if ← succeeds then
        dupFiles np (List.finRange Files.nofile)
        let pid ← pidOf np
        runnable np
        return pid.toInt
      else
        freeproc np
        return -1
  else return -1

def kfork : Code Int := forkWith

def threadFork : Code Int := forkWith

def closeAll : List Desc → Code Unit
  | [] => return ()
  | fd :: rest => do
    match ← ofile fd with
    | some f =>
      fileclose f
      setOfile fd none
      closeAll rest
    | none => closeAll rest

def kexit : Code Int := do
  notInit
  closeAll (List.finRange Files.nofile)
  zombie
  return 0

inductive Call where
  | dup (n : Int32)
  | close (n : Int32)
  | openFile (omode : UInt32)
  | pipe
  | fork
  | threadCreate
  | exit
  | wait (j : Slot)

/-- `wait` is there to make slots free again: it looks at one of its children. -/
def syscall : Call → Code Int
  | .dup n => sysDup n
  | .close n => sysClose n
  | .openFile omode => sysOpen omode
  | .pipe => sysPipe
  | .fork => kfork
  | .threadCreate => threadFork
  | .exit => kexit
  | .wait j => do
    if ← reap j then return j.val else return -1

abbrev Sys := Pool Slot Res Shared Int

inductive Act where
  | call (p : Slot) (c : Call)
  | go (p : Slot) (c : Choice)

def step (s : Sys) : Act → Option (Sys × Option Int)
  | .call p c =>
    if s.shared.panic = none ∧ s.shared.state p = .live then
      match s.code p with
      | none => some (s.enter p s.shared (syscall c))
      | some _ => none
    else none
  | .go p c => if s.shared.panic = none then s.advance exec p c else none

/-- `init` runs, and no file is open. -/
def boot : Sys where
  shared := {
    ftable _ := ⟨.none, 0, false, false, 0, 0, 0, 0⟩
    ofile _ _ := none
    state p := if p = initproc then .live else .unused
    pid p := if p = initproc then 1 else 0
    nextpid := 2
    npipes := 0
    isOpen _ _ := false
    frees _ := 0
    panic := none }
  code _ := none

end OsProject.Xv6.OpenFiles
