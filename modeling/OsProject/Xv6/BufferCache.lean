import OsProject.Lib.Circular
import OsProject.Lib.Threads
import OsProject.Xv6.Log

/-! # The buffer cache with its pointers and its locks

`bio.c` by any number of processes at once, and the part of `log.c` that pins buffers. A
section is what a call does under `bcache.lock` or `log.lock`, or one access to a buffer
under its sleep lock; a process that would sleep waits before its section. Buffers are the
entries of `bcache.buf`, and `none` is `bcache.head`. What nothing in the kernel stores is
kept beside it: who has pins, what was left in a block, and if it has been lost. -/
namespace OsProject.Xv6.BufferCache
open Lib.Circular Lib.Threads Lib.Transition
open Bio (Block nbuf)
open Log (LogArea logBlocks maxOpBlocks headBlock)
open Function (update)

abbrev Buffer := Fin nbuf

structure Buf where
  valid : Bool
  dev : UInt32
  blockno : UInt32
  refcnt : Nat
  data : Block

/-- The device of the file system, and the log on it. -/
structure Device extends LogArea where
  dev : UInt32
  mounted : dev ≠ 0

/-- A pin of the log, or of somebody else. -/
inductive Pinner where
  | log | other
  deriving DecidableEq

structure Cache (np : Nat) where
  buf : Buffer → Buf
  links : Links Buffer
  /-- who has the sleep lock of a buffer -/
  lock : Buffer → Option (Fin np)
  disk : UInt32 → Block
  /-- `log.lh`, the first `n` entries -/
  lh : List UInt32
  outstanding : Int
  committing : Bool
  pins : Pinner → Buffer → Nat
  /-- how many entries of `log.lh` the commit has installed -/
  installed : Nat
  /-- how often a block was entered into the log, and unpinned by a commit -/
  entered : UInt32 → Nat
  unpinned : UInt32 → Nat
  /-- what the last holder of the buffer's lock left in the block -/
  last : UInt32 → Block
  /-- the block was modified and has not been written since -/
  dirty : UInt32 → Bool
  /-- while nobody had the lock, the block was written or pinned -/
  kept : UInt32 → Bool

variable {np : Nat}

/-! ## Sections -/

variable (s : Cache np)

def Cache.setBuf (b : Buffer) (x : Buf) : Cache np :=
  { s with buf := update s.buf b x }

def Cache.setLock (b : Buffer) (x : Option (Fin np)) : Cache np :=
  { s with lock := update s.lock b x }

def Cache.setPins (w : Pinner) (b : Buffer) (n : Nat) : Cache np :=
  { s with pins := update s.pins w (update (s.pins w) b n) }

def Cache.pinned (b : Buffer) : Bool := 0 < s.pins .log b + s.pins .other b

/-- The loops of `bget` come back to the head after all buffers. -/
def rounds : Nat := nbuf + 1

variable (g : Device)

/-- The section of `bget`; no buffer is the panic "bget: no buffers". -/
def bget (s : Cache np) (blockno : UInt32) : Option (Option Buffer × Cache np) :=
  match scan s.links.next (fun b => (s.buf b).dev = g.dev ∧ (s.buf b).blockno = blockno) rounds
      (s.links.next none) with
  | some (some b) => some (some b, s.setBuf b { s.buf b with refcnt := (s.buf b).refcnt + 1 })
  | some none =>
    match scan s.links.prev (fun b => (s.buf b).refcnt = 0) rounds (s.links.prev none) with
    | some (some b) =>
      some (some b, s.setBuf b
        { s.buf b with dev := g.dev, blockno := blockno, valid := false, refcnt := 1 })
    | some none => some (none, s)
    | none => none
  | none => none

/-- What `bread` does with the buffer it has locked. -/
def fill (b : Buffer) : Cache np :=
  if (s.buf b).valid then s
  else s.setBuf b { s.buf b with data := s.disk (s.buf b).blockno, valid := true }

/-- `virtio_disk_rw(b, 1)`. -/
def write (b : Buffer) : Cache np :=
  let x := s.buf b
  { s with
    disk := update s.disk x.blockno x.data
    dirty := update s.dirty x.blockno false }

/-- Stores into the data of a buffer. -/
def store (b : Buffer) (v : Block) : Cache np :=
  let x := s.buf b
  { s.setBuf b { x with data := v } with dirty := update s.dirty x.blockno true }

/-- If the block is as on disk, or the buffer is held or pinned. -/
def Cache.safe (b : Buffer) : Bool :=
  !s.dirty (s.buf b).blockno || (s.lock b).isSome || s.pinned b

def Cache.note (b : Buffer) : Cache np :=
  let k := (s.buf b).blockno
  { s with kept := update s.kept k (s.kept k && s.safe b) }

def Cache.unlock (b : Buffer) : Cache np :=
  let x := s.buf b
  { s.setLock b none with last := update s.last x.blockno x.data }

def releasesleep (b : Buffer) : Cache np := (s.unlock b).note b

/-- The section of `brelse`. -/
def release (b : Buffer) : Cache np :=
  let s := s.setBuf b { s.buf b with refcnt := (s.buf b).refcnt - 1 }
  if (s.buf b).refcnt = 0 then { s with links := (s.links.unlink b).pushFront b } else s

def bpin (w : Pinner) (b : Buffer) : Cache np :=
  (s.setBuf b { s.buf b with refcnt := (s.buf b).refcnt + 1 }).setPins w b (s.pins w b + 1)

def bunpin (w : Pinner) (b : Buffer) : Cache np :=
  ((s.setBuf b { s.buf b with refcnt := (s.buf b).refcnt - 1 }).setPins w b (s.pins w b - 1)).note b

/-- A new entry of `log.lh`. -/
def Cache.enter (k : UInt32) : Cache np :=
  { s with lh := s.lh ++ [k], entered := update s.entered k (s.entered k + 1) }

/-- The section of `log_write`; none where it panics. -/
def logWrite (b : Buffer) : Option (Cache np) :=
  let k := (s.buf b).blockno
  if logBlocks ≤ s.lh.length then none
  else if s.outstanding < 1 then none
  else if k ∈ s.lh then some s
  else some ((bpin s .log b).enter k)

/-- An entry of `log.lh` is installed and unpinned. -/
def Cache.settle (k : UInt32) : Cache np :=
  { s with
    installed := s.installed + 1
    unpinned := update s.unpinned k (s.unpinned k + 1) }

/-- `bunpin` in `install_trans`. -/
def unpinInstalled (b : Buffer) : Cache np := (bunpin s .log b).settle (s.buf b).blockno

inductive Op where
  | bget (blockno : UInt32)
  | acquiresleep (b : Buffer)
  | fill (b : Buffer)
  | holdingsleep (b : Buffer)
  | write (b : Buffer)
  | releasesleep (b : Buffer)
  | release (b : Buffer)
  | data (b : Buffer)
  | store (b : Buffer) (v : Block)
  | unpinInstalled (b : Buffer)
  | header
  | clear
  | beginOp
  | endOp
  | finish
  | panic

def Res : Op → Type
  | .bget _ => Buffer
  | .holdingsleep _ | .endOp => Bool
  | .data _ => Block
  | .header => List UInt32
  | .acquiresleep _ | .fill _ | .write _ | .releasesleep _ | .release _ | .store ..
      | .unpinInstalled _
  | .clear | .beginOp | .finish | .panic => Unit

def exec : Exec (Fin np) Res Unit (Cache np) := fun p o _ s =>
  match o with
  | .bget k => bget g s k
  | .acquiresleep b => if s.lock b = none then some (some (), s.setLock b (some p)) else none
  | .fill b => some (some (), fill s b)
  | .holdingsleep b => some (some (decide (s.lock b = some p)), s)
  | .write b => some (some (), write s b)
  | .releasesleep b => some (some (), releasesleep s b)
  | .release b => some (some (), release s b)
  | .data b => some (some (s.buf b).data, s)
  | .store b v => some (some (), store s b v)
  | .unpinInstalled b => some (some (), unpinInstalled s b)
  | .header => some (some s.lh, s)
  | .clear => some (some (), { s with lh := [], installed := 0 })
  | .beginOp =>
    if s.committing then none
    else if (logBlocks : Int) < s.lh.length + (s.outstanding + 1) * maxOpBlocks then none
    else some (some (), { s with outstanding := s.outstanding + 1 })
  | .endOp =>
    let s := { s with outstanding := s.outstanding - 1 }
    -- panic "log.committing"
    if s.committing then some (none, s)
    else if s.outstanding = 0 then some (some true, { s with committing := true })
    else some (some false, s)
  | .finish => some (some (), { s with committing := false })
  | .panic => some (none, s)

/-! ## Calls -/

abbrev Code := Prog Res

def acquiresleep (b : Buffer) : Code Unit := perform (Op.acquiresleep b)
def holdingsleep (b : Buffer) : Code Bool := perform (Op.holdingsleep b)
def dataOf (b : Buffer) : Code Block := perform (Op.data b)
def setData (b : Buffer) (v : Block) : Code Unit := perform (Op.store b v)

/-- `log.lh`, which only the process that commits reads outside of `log.lock`. -/
def header : Code (List UInt32) := perform Op.header

def panic : Code Unit := perform Op.panic

def bread (blockno : UInt32) : Code Buffer := do
  let b : Buffer ← perform (Op.bget blockno)
  acquiresleep b
  let _ : Unit ← perform (Op.fill b)
  return b

def bwrite (b : Buffer) : Code Unit := do
  if ← holdingsleep b then perform (Op.write b) else panic

def brelse (b : Buffer) : Code Unit := do
  if ← holdingsleep b then
    let _ : Unit ← perform (Op.releasesleep b)
    perform (Op.release b)
  else panic

/-- The body of the loop in `write_log`. -/
def copyEntry (tail : Nat) (blockno : UInt32) : Code Unit := do
  let toBuf ← bread (g.block tail)
  let fromBuf ← bread blockno
  setData toBuf (← dataOf fromBuf)
  bwrite toBuf
  brelse fromBuf
  brelse toBuf

/-- The body of the loop in `install_trans`, when not recovering. -/
def installEntry (tail : Nat) (blockno : UInt32) : Code Unit := do
  let lbuf ← bread (g.block tail)
  let dbuf ← bread blockno
  setData dbuf (← dataOf lbuf)
  bwrite dbuf
  let _ : Unit ← perform (Op.unpinInstalled dbuf)
  brelse lbuf
  brelse dbuf

/-- A loop over the entries of `log.lh`, of which there are at most `LOGBLOCKS`. -/
def eachEntry (body : Nat → UInt32 → Code Unit) : Nat → Nat → Code Unit
  | 0, _ => return ()
  | n + 1, tail => do
    match (← header)[tail]? with
    | some blockno =>
      body tail blockno
      eachEntry body n (tail + 1)
    | none => return ()

def writeLog : Code Unit := eachEntry (copyEntry g) logBlocks 0

def installTrans : Code Unit := eachEntry (installEntry g) logBlocks 0

def writeHead : Code Unit := do
  let buf ← bread g.start
  setData buf (headBlock (← header) (← dataOf buf))
  bwrite buf
  brelse buf

def commit : Code Unit := do
  if 0 < (← header).length then
    writeLog g
    writeHead g
    installTrans g
    let _ : Unit ← perform Op.clear
    writeHead g

def endOp (g : Device) : Code Unit := do
  let last : Bool ← perform Op.endOp
  if last then
    commit g
    perform Op.finish

/-- What a call returns. -/
inductive Ret where
  | bread (blockno : UInt32) (b : Buffer)
  | unit

inductive Call where
  | bread (blockno : UInt32)
  | bwrite (b : Buffer)
  | brelse (b : Buffer)
  | beginOp
  | endOp

def Call.code : Call → Code Ret
  | .bread k => do
    let b ← BufferCache.bread k
    return .bread k b
  | .bwrite b => do
    BufferCache.bwrite b
    return .unit
  | .brelse b => do
    BufferCache.brelse b
    return .unit
  | .beginOp => do
    let _ : Unit ← perform Op.beginOp
    return .unit
  | .endOp => do
    BufferCache.endOp g
    return .unit

/-! ## The system -/

abbrev Sys (np : Nat) := Pool (Fin np) Res (Cache np) Ret

inductive Act (np : Nat) where
  | call (p : Fin np) (c : Call)
  | go (p : Fin np)
  /-- new contents for a buffer, by the holder of its lock -/
  | change (p : Fin np) (b : Buffer) (v : Block)
  | logWrite (p : Fin np) (b : Buffer)
  | bpin (p : Fin np) (b : Buffer)
  | bunpin (p : Fin np) (b : Buffer)

/-- A process that is in no call, and has the lock of the buffer. -/
def Holds (s : Sys np) (p : Fin np) (b : Buffer) : Prop :=
  (s.code p).isNone = true ∧ s.shared.lock b = some p
  deriving Decidable

/-- A buffer is changed and logged by the holder of its lock and pinned while it is in use,
and a pin is given up once. -/
def step (s : Sys np) : Act np → Option (Sys np × Option Ret)
  | .call p c =>
    if (s.code p).isNone then some (s.enter p s.shared (c.code g)) else none
  | .go p => s.advance (exec g) p ()
  | .change p b v =>
    if Holds s p b then some ({ s with shared := store s.shared b v }, none) else none
  | .logWrite p b =>
    if Holds s p b then (logWrite s.shared b).map fun sh =>
      ({ s with shared := sh }, none) else none
  | .bpin p b =>
    if (s.code p).isNone ∧ 0 < (s.shared.buf b).refcnt then
      some ({ s with shared := bpin s.shared .other b }, none)
    else none
  | .bunpin p b =>
    if (s.code p).isNone ∧ 0 < s.shared.pins .other b then
      some ({ s with shared := bunpin s.shared .other b }, none)
    else none

def binit (disk : UInt32 → Block) : Cache np where
  buf _ := ⟨false, 0, 0, 0, fun _ => 0⟩
  links := (List.finRange nbuf).foldl Links.pushFront Links.empty
  lock _ := none
  disk := disk
  lh := []
  outstanding := 0
  committing := false
  pins _ _ := 0
  installed := 0
  entered _ := 0
  unpinned _ := 0
  last := disk
  dirty _ := false
  kept _ := true

def boot (disk : UInt32 → Block) : Sys np := ⟨binit disk, fun _ => none⟩

end OsProject.Xv6.BufferCache
