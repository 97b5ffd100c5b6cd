import OsProject.Lib.Outcome
import OsProject.Lib.Ring
import OsProject.Lib.Transition
import OsProject.Xv6.Bio

/-! # The disk driver and the device

`virtio_disk_rw` by any number of processes, `virtio_disk_intr` on any number of harts, and
the device, which shares descriptors and rings with them. A step of the driver is a section
under `vdisk_lock` between two accesses to what the device writes or waits for; the device
takes the chains in the order of the available ring, serves them in any order and puts each
into the used ring. The contents of the disk are left out. -/
namespace OsProject.Xv6.VirtioDisk
open Lib Lib.Transition
open Bio (nbuf)
open Function (update)

abbrev Buf := Fin nbuf

/-! ## Memory that driver and device share -/

def num : Nat := 8

def flagNext : UInt16 := 1
def flagWrite : UInt16 := 2

def typeIn : UInt32 := 0
def typeOut : UInt32 := 1

inductive Addr where
  | null
  | op (i : Nat)
  | data (b : Buf)
  | status (i : Nat)
  deriving DecidableEq

structure Desc where
  addr : Addr
  len : UInt32
  flags : UInt16
  next : UInt16
  deriving DecidableEq

def Desc.zero : Desc := ⟨.null, 0, 0, 0⟩

structure BlkReq where
  type : UInt32
  reserved : UInt32
  sector : UInt64

structure Info where
  b : Option Buf
  status : UInt8

structure Avail where
  idx : UInt16
  ring : Nat → UInt16

structure Used where
  idx : UInt16
  ring : Nat → UInt32

/-- What the device finds in a chain. -/
structure Transfer where
  type : UInt32
  sector : UInt64
  b : Buf
  deriving DecidableEq

/-- A chain that the device has taken: how many it took before, its first descriptor, and what
it has served. -/
structure Job where
  serial : Nat
  id : Nat
  served : Option Transfer

structure Disk where
  desc : Nat → Desc
  avail : Avail
  used : Used
  free : Nat → Bool
  usedIdx : UInt16
  info : Nat → Info
  ops : Nat → BlkReq
  /-- `b->disk` -/
  busy : Buf → Bool
  /-- the device's place in the available ring -/
  taken : UInt16
  jobs : List Job
  nposted : Nat
  ntaken : Nat
  /-- what the device has completed, by the number of the chain -/
  completed : Nat → Option Transfer

/-! ## Processes -/

/-- The arguments of `virtio_disk_rw`, and the buffer's block. -/
structure Ask where
  b : Buf
  blockno : UInt32
  write : Bool

def Ask.type (a : Ask) : UInt32 := if a.write then typeOut else typeIn

/-- `b->blockno * (BSIZE / 512)`, a product of 32 bits. -/
def Ask.sector (a : Ask) : UInt64 := (a.blockno * 2).toUInt64

def Ask.transfer (a : Ask) : Transfer := ⟨a.type, a.sector, a.b⟩

/-- A call with its descriptors. -/
structure Request extends Ask where
  idx0 : Nat
  idx1 : Nat
  idx2 : Nat

def Request.idx (r : Request) : List Nat := [r.idx0, r.idx1, r.idx2]

/-- What a process sleeps for: `disk.free[0]`, or its buffer. -/
inductive Wait where
  | desc (a : Ask)
  | buf (r : Request) (n : Nat)

/-- Where a process is. From `alloc` to `test` it has `vdisk_lock`; `n` is the number of its
chain. -/
inductive Point where
  | idle
  | acquire (a : Ask)
  | alloc (a : Ask)
  | format (r : Request)
  | post (r : Request)
  | test (r : Request) (n : Nat)
  | asleep (w : Wait)
  | woken (w : Wait)

/-- Where a hart is in `virtio_disk_intr`. -/
inductive Handler where
  | idle | acquire | loop | handle
  deriving DecidableEq

inductive Fault where
  | freeDesc1 | freeDesc2 | endless | intrStatus | noBuf
  deriving DecidableEq

structure Sys (np nh : Nat) extends Disk where
  vdiskLock : Option (Fin np ⊕ Fin nh)
  /-- the sleep lock of a buffer -/
  lock : Buf → Option (Fin np)
  point : Fin np → Point
  handler : Fin nh → Handler
  fault : Option Fault

variable {np nh : Nat} (s : Sys np nh)

def Sys.goto (p : Fin np) (pt : Point) : Sys np nh :=
  { s with point := update s.point p pt }

def Sys.enter (h : Fin nh) (x : Handler) : Sys np nh :=
  { s with handler := update s.handler h x }

def Sys.release : Sys np nh := { s with vdiskLock := none }

def Sys.panic (f : Fault) : Sys np nh := { s with fault := some f }

/-! ## Descriptors -/

def wake (on : Wait → Bool) : Point → Point
  | .asleep w => if on w then .woken w else .asleep w
  | pt => pt

def Sys.wakeup (on : Wait → Bool) : Sys np nh :=
  { s with point := fun p => wake on (s.point p) }

def Wait.onFree : Wait → Bool
  | .desc _ => true
  | .buf .. => false

def Wait.onBuf (b : Buf) : Wait → Bool
  | .desc _ => false
  | .buf r _ => r.b = b

def allocDesc : Option (Nat × Sys np nh) :=
  ((List.range num).find? s.free).map fun i => (i, { s with free := update s.free i false })

def freeDesc (i : Nat) : Except Fault (Sys np nh) :=
  if num ≤ i then .error .freeDesc1
  else if s.free i then .error .freeDesc2
  else .ok ({ s with
    desc := update s.desc i Desc.zero
    free := update s.free i true }.wakeup Wait.onFree)

/-- The loop of `free_chain`: it frees another descriptor in each round, so it is over after
`NUM` rounds or has met a free one. -/
def freeChain : Nat → Sys np nh → Nat → Except Fault (Sys np nh)
  | 0, _, _ => .error .endless
  | n + 1, s, i => do
    let flag := (s.desc i).flags
    let nxt := (s.desc i).next
    let s ← freeDesc s i
    if flag &&& flagNext ≠ 0 then freeChain n s nxt.toNat else return s

/-- The loop of `alloc3_desc`, with `n` descriptors to go; it gives all back when there are not
enough. -/
def allocDescs : Nat → List Nat → Sys np nh → Except Fault (Option (List Nat) × Sys np nh)
  | 0, idx, s => return (some idx, s)
  | n + 1, idx, s =>
    match allocDesc s with
    | some (i, s) => allocDescs n (idx ++ [i]) s
    | none => do
      let s ← idx.foldlM freeDesc s
      return (none, s)

def alloc3Desc : Except Fault (Option (List Nat) × Sys np nh) := allocDescs 3 [] s

/-! ## `virtio_disk_rw` -/

/-- What a call returns to its caller, with the number of its chain. -/
structure Ret where
  r : Request
  n : Nat

/-- The three descriptors, and the chain's place in the available ring. -/
def format (d : Disk) (r : Request) : Disk :=
  let ops := update d.ops r.idx0 ⟨r.type, 0, r.sector⟩
  let desc := update d.desc r.idx0 ⟨.op r.idx0, 16, flagNext, UInt16.ofNat r.idx1⟩
  let desc := update desc r.idx1
    ⟨.data r.b, 1024, (if r.write then 0 else flagWrite) ||| flagNext, UInt16.ofNat r.idx2⟩
  let desc := update desc r.idx2 ⟨.status r.idx0, 1, flagWrite, 0⟩
  { d with
    ops := ops
    desc := desc
    info := update d.info r.idx0 ⟨some r.b, 0xff⟩
    busy := update d.busy r.b true
    avail := { d.avail with
      ring := update d.avail.ring (d.avail.idx.toNat % num) (UInt16.ofNat r.idx0) } }

def post (d : Disk) : Disk :=
  { d with avail := { d.avail with idx := d.avail.idx + 1 }, nposted := d.nposted + 1 }

/-- After the loop that waits for the interrupt. -/
def finish (p : Fin np) (r : Request) (n : Nat) : Sys np nh × Option Ret :=
  let cleared := { s with info := update s.info r.idx0 { s.info r.idx0 with b := none } }
  match freeChain (num + 1) cleared r.idx0 with
  | .ok s => (s.release.goto p .idle, some ⟨r, n⟩)
  | .error f => (s.panic f, none)

def rw (p : Fin np) : Option (Sys np nh × Option Ret) :=
  match s.point p with
  | .idle | .asleep _ => none
  | .acquire a =>
    if s.vdiskLock = none then some ({ s with vdiskLock := some (.inl p) }.goto p (.alloc a), none)
    else none
  | .woken w =>
    if s.vdiskLock = none then
      some ({ s with vdiskLock := some (.inl p) }.goto p
        (match w with
          | .desc a => .alloc a
          | .buf r n => .test r n), none)
    else none
  | .alloc a =>
    match alloc3Desc s with
    | .ok (some idx, s) =>
      some (s.goto p (.format ⟨a, idx.getD 0 0, idx.getD 1 0, idx.getD 2 0⟩), none)
    | .ok (none, s) => some (s.release.goto p (.asleep (.desc a)), none)
    | .error f => some (s.panic f, none)
  | .format r => some ({ s with toDisk := format s.toDisk r }.goto p (.post r), none)
  | .post r => some ({ s with toDisk := post s.toDisk }.goto p (.test r s.nposted), none)
  | .test r n =>
    if s.busy r.b then some (s.release.goto p (.asleep (.buf r n)), none)
    else some (finish s p r n)

/-! ## `virtio_disk_intr` -/

/-- One entry of the used ring. -/
def handle (h : Fin nh) : Sys np nh :=
  let id := (s.used.ring (s.usedIdx.toNat % num)).toNat
  if (s.info id).status ≠ 0 then s.panic .intrStatus
  else match (s.info id).b with
    | none => s.panic .noBuf
    | some b =>
      ({ s with busy := update s.busy b false, usedIdx := s.usedIdx + 1 }.wakeup
        (Wait.onBuf b)).enter h .loop

def intr (h : Fin nh) : Option (Sys np nh) :=
  match s.handler h with
  | .idle => none
  | .acquire =>
    if s.vdiskLock = none then some ({ s with vdiskLock := some (.inr h) }.enter h .loop) else none
  | .loop => some (if s.usedIdx ≠ s.used.idx then s.enter h .handle else s.release.enter h .idle)
  | .handle => some (handle s h)

/-! ## The device -/

/-- The chain of a first descriptor: what to do, and where the status goes. -/
def readChain (d : Disk) (id : Nat) : Option (Transfer × Nat) :=
  let d0 := d.desc id
  let d1 := d.desc d0.next.toNat
  let d2 := d.desc d1.next.toNat
  if d0.flags &&& flagNext ≠ 0 ∧ d1.flags &&& flagNext ≠ 0 ∧ d2.flags &&& flagNext = 0 then
    match d0.addr, d1.addr, d2.addr with
    | .op i, .data b, .status j => some (⟨(d.ops i).type, (d.ops i).sector, b⟩, j)
    | _, _, _ => none
  else none

def take (d : Disk) : Option Disk :=
  if d.taken = d.avail.idx then none
  else some { d with
    jobs := d.jobs ++ [⟨d.ntaken, (d.avail.ring (d.taken.toNat % num)).toNat, none⟩]
    taken := d.taken + 1
    ntaken := d.ntaken + 1 }

/-- The transfer of the `k`th chain that it has, and its status. -/
def serve (d : Disk) (k : Nat) : Option Disk :=
  match d.jobs[k]? with
  | none => none
  | some j =>
    if j.served = none then
      (readChain d j.id).map fun (t, i) =>
        { d with
          info := update d.info i { d.info i with status := 0 }
          jobs := d.jobs.set k { j with served := some t } }
    else none

/-- The `k`th chain goes into the used ring. -/
def publish (d : Disk) (k : Nat) : Option Disk :=
  match d.jobs[k]? with
  | none => none
  | some j =>
    j.served.map fun t =>
      { d with
        jobs := d.jobs.eraseIdx k
        used := ⟨d.used.idx + 1, update d.used.ring (d.used.idx.toNat % num) (UInt32.ofNat j.id)⟩
        completed := update d.completed j.serial (some t) }

/-! ## The system -/

inductive Act (np nh : Nat) where
  | acquiresleep (p : Fin np) (b : Buf)
  | releasesleep (p : Fin np) (b : Buf)
  | call (p : Fin np) (a : Ask)
  | go (p : Fin np)
  /-- `kkill` -/
  | kill (p : Fin np)
  | interrupt (h : Fin nh)
  | intr (h : Fin nh)
  | take
  | serve (k : Nat)
  | publish (k : Nat)

def Point.isIdle : Point → Bool
  | .idle => true
  | _ => false

/-- As in `bio.c`, `virtio_disk_rw` is called with the buffer's lock held. -/
def act : Act np nh → Option (Sys np nh × Option Ret)
  | .acquiresleep p b =>
    if (s.point p).isIdle ∧ s.lock b = none then
      some ({ s with lock := update s.lock b (some p) }, none)
    else none
  | .releasesleep p b =>
    if (s.point p).isIdle ∧ s.lock b = some p then
      some ({ s with lock := update s.lock b none }, none)
    else none
  | .call p a =>
    if (s.point p).isIdle ∧ s.lock a.b = some p then some (s.goto p (.acquire a), none) else none
  | .go p => rw s p
  | .kill p => some (s.goto p (wake (fun _ => true) (s.point p)), none)
  | .interrupt h => if s.handler h = .idle then some (s.enter h .acquire, none) else none
  | .intr h => (intr s h).map (·, none)
  | .take => (take s.toDisk).map fun d => ({ s with toDisk := d }, none)
  | .serve k => (serve s.toDisk k).map fun d => ({ s with toDisk := d }, none)
  | .publish k => (publish s.toDisk k).map fun d => ({ s with toDisk := d }, none)

/-- Nothing goes on after a panic. -/
def step (a : Act np nh) : Option (Sys np nh × Option Ret) :=
  if s.fault = none then act s a else none

/-- `virtio_disk_init`. -/
def virtioDiskInit : Sys np nh where
  desc _ := Desc.zero
  avail := ⟨0, fun _ => 0⟩
  used := ⟨0, fun _ => 0⟩
  free _ := true
  usedIdx := 0
  info _ := ⟨none, 0⟩
  ops _ := ⟨0, 0, 0⟩
  busy _ := false
  taken := 0
  jobs := []
  nposted := 0
  ntaken := 0
  completed _ := none
  vdiskLock := none
  lock _ := none
  point _ := .idle
  handler _ := .idle
  fault := none

end OsProject.Xv6.VirtioDisk
