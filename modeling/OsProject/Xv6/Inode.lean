import OsProject.Lib.Words
import Mathlib.Logic.Function.Basic

/-! # Blocks and inodes

The block and inode layers of `fs.c`, on the contents that the buffer cache
shows. The free map is a bit per block and the inode blocks are an inode per
number; other blocks are bytes, with words where they hold addresses. A write
to user memory, or from it, may stop at any byte. -/
namespace OsProject.Xv6.Inode
open Lib.Words
open Function (update)

def bsize : Nat := 1024
def ndirect : Nat := 12
def nindirect : Nat := 256
def maxfile : Nat := ndirect + nindirect

abbrev Block := Fin (4 * nindirect) → UInt8

/-- Of the superblock: the number of blocks, and the first block behind the
free map. The number of inodes is a parameter of the types that need it. -/
structure Super where
  size : UInt32
  first : UInt32
  boot : 0 < first

variable (g : Super)

/-- The data blocks. -/
def Super.data : Set UInt32 := fun b => g.first ≤ b ∧ b < g.size

structure Dinode where
  type : Int16
  major : Int16
  minor : Int16
  nlink : Int16
  size : UInt32
  addrs : Fin (ndirect + 1) → UInt32

def Dinode.zero : Dinode := ⟨0, 0, 0, 0, 0, fun _ => 0⟩

def Dinode.setAddr (ip : Dinode) (k : Fin (ndirect + 1)) (a : UInt32) : Dinode :=
  { ip with addrs := update ip.addrs k a }

/-- `ip->addrs[NDIRECT]`. -/
def Dinode.ind (ip : Dinode) : UInt32 := ip.addrs (Fin.last ndirect)

structure Disk where
  bit : UInt32 → Bool
  block : UInt32 → Block

inductive Panic where
  | freeingFree | outOfRange | noInodes | ilock | noType
  deriving DecidableEq

/-! ## Blocks -/

variable (d : Disk)

def balloc : UInt32 × Disk :=
  match (List.range g.size.toNat).find? fun b => !d.bit (UInt32.ofNat b) with
  | some b =>
    (UInt32.ofNat b, { bit := update d.bit (UInt32.ofNat b) true
                       block := update d.block (UInt32.ofNat b) fun _ => 0 })
  | none => (0, d)

def bfree (b : UInt32) : Except Panic Disk :=
  if d.bit b then .ok { d with bit := update d.bit b false } else .error .freeingFree

/-! ## The blocks of an inode -/

/-- The entry of an inode's address table, allocated if it is zero. -/
def bmapAddr (ip : Dinode) (k : Fin (ndirect + 1)) : UInt32 × Disk × Dinode :=
  if ip.addrs k = 0 then
    let r := balloc g d
    if r.1 = 0 then (0, r.2, ip) else (r.1, r.2, ip.setAddr k r.1)
  else (ip.addrs k, d, ip)

/-- The entry of the indirect block `addr`, allocated if it is zero. -/
def bmapEntry (addr : UInt32) (j : Fin nindirect) : UInt32 × Disk :=
  if word (d.block addr) j = 0 then
    let r := balloc g d
    if r.1 = 0 then (0, r.2)
    else (r.1, { r.2 with
      block := update r.2.block addr (setWord (r.2.block addr) j r.1) })
  else (word (d.block addr) j, d)

def bmap (ip : Dinode) (bn : Nat) : Except Panic (UInt32 × Disk × Dinode) :=
  if h : bn < ndirect then .ok (bmapAddr g d ip ⟨bn, Nat.lt_succ_of_lt h⟩)
  else if h : bn - ndirect < nindirect then
    let r := bmapAddr g d ip (Fin.last ndirect)
    if r.1 = 0 then .ok r
    else
      let e := bmapEntry g r.2.1 r.1 ⟨bn - ndirect, h⟩
      .ok (e.1, e.2, r.2.2)
  else .error .outOfRange

/-- `itrunc`'s first loop. -/
def truncDirect (s : Disk × Dinode) (k : Fin ndirect) : Except Panic (Disk × Dinode) :=
  if s.2.addrs k.castSucc = 0 then .ok s
  else do
    let d ← bfree s.1 (s.2.addrs k.castSucc)
    return (d, s.2.setAddr k.castSucc 0)

/-- The loop over the indirect block. -/
def truncEntry (a : Block) (d : Disk) (j : Fin nindirect) : Except Panic Disk :=
  if word a j = 0 then .ok d else bfree d (word a j)

/-- Up to the `iupdate` at its end. -/
def itrunc (ip : Dinode) : Except Panic (Disk × Dinode) := do
  let (d, ip) ← (List.finRange ndirect).foldlM truncDirect (d, ip)
  if ip.ind = 0 then return (d, { ip with size := 0 })
  else
    let d ← (List.finRange nindirect).foldlM (truncEntry (d.block ip.ind)) d
    let d ← bfree d ip.ind
    return (d, { ip.setAddr (Fin.last ndirect) 0 with size := 0 })

/-! ## Contents -/

/-- User memory to read from: its bytes, how many of those for the chunk at
`tot` there are before the first that is not mapped, and whether a buffer that
was only partly filled stays in the cache. -/
structure Source where
  byte : Nat → UInt8
  got : Nat → Nat
  kept : Bool

/-- `c` bytes of the source from `tot` on go into a block from `pos` on. -/
def copyInto (b : Block) (pos : Nat) (src : Source) (tot c : Nat) : Block := fun k =>
  if pos ≤ k.val ∧ k.val < pos + c then src.byte (tot + (k.val - pos)) else b k

/-- What a step of the loop moves: `min(n - tot, BSIZE - off%BSIZE)`. -/
def chunk (n tot off : Nat) : Nat := min (n - tot) (bsize - off % bsize)

/-- `writei`'s loop. Each round moves at least one byte, so `n` rounds suffice. -/
def writeLoop (g : Super) (src : Source) (n : Nat) :
    Nat → Nat → Nat → Disk → Dinode → Except Panic (Nat × Nat × Disk × Dinode)
  | 0, tot, off, d, ip => .ok (tot, off, d, ip)
  | fuel + 1, tot, off, d, ip =>
    if n ≤ tot then .ok (tot, off, d, ip)
    else do
      let (addr, d, ip) ← bmap g d ip (off / bsize)
      if addr = 0 then return (tot, off, d, ip)
      else
        let m := chunk n tot off
        let new := copyInto (d.block addr) (off % bsize) src tot (min m (src.got tot))
        if src.got tot < m then
          return (tot, off, if src.kept then { d with block := update d.block addr new } else d,
            ip)
        else
          writeLoop g src n fuel (tot + m) (off + m)
            { d with block := update d.block addr new } ip

/-- Up to the `iupdate` at its end; -1 comes before it. -/
def writei (ip : Dinode) (src : Source) (off n : UInt32) :
    Except Panic (Option Nat × Disk × Dinode) :=
  if ip.size < off ∨ off + n < off then .ok (none, d, ip)
  else if maxfile * bsize < (off + n).toNat then .ok (none, d, ip)
  else do
    let (tot, off, d, ip) ← writeLoop g src n.toNat n.toNat 0 off.toNat d ip
    let ip := if ip.size.toNat < off then { ip with size := UInt32.ofNat off } else ip
    return (some tot, d, ip)

/-- `readi`'s loop. `copy tot` is `either_copyout` to behind the `tot` bytes that are read. -/
def readLoop {σ : Type} (g : Super) (copy : Nat → List UInt8 → σ → σ × Bool) (n : Nat) :
    Nat → Nat → Nat → Disk → Dinode → σ → Except Panic (Option Nat × σ × Disk × Dinode)
  | 0, tot, _, d, ip, out => .ok (some tot, out, d, ip)
  | fuel + 1, tot, off, d, ip, out =>
    if n ≤ tot then .ok (some tot, out, d, ip)
    else do
      let (addr, d, ip) ← bmap g d ip (off / bsize)
      if addr = 0 then return (some tot, out, d, ip)
      else
        let m := chunk n tot off
        match copy tot (((List.ofFn (d.block addr)).drop (off % bsize)).take m) out with
        | (out, false) => return (none, out, d, ip)
        | (out, true) => readLoop g copy n fuel (tot + m) (off + m) d ip out

/-- `readi` to the destination that `copy` writes to. -/
def readTo {σ : Type} (ip : Dinode) (copy : Nat → List UInt8 → σ → σ × Bool)
    (off n : UInt32) (out : σ) : Except Panic (Option Nat × σ × Disk × Dinode) :=
  if ip.size < off ∨ off + n < off then .ok (some 0, out, d, ip)
  else
    let n := if ip.size < off + n then ip.size - off else n
    readLoop g copy n.toNat n.toNat 0 off.toNat d ip out

/-- The bytes read. Of those behind the first `tot`, the destination takes `got tot` at a time. -/
def collect (got : Nat → Nat) (tot : Nat) (bytes out : List UInt8) : List UInt8 × Bool :=
  (out ++ bytes.take (got tot), bytes.length ≤ got tot)

def readi (ip : Dinode) (got : Nat → Nat) (off n : UInt32) :
    Except Panic (Option Nat × List UInt8 × Disk × Dinode) :=
  readTo g d ip (collect got) off n []

/-! ## The inode table -/

def ninode : Nat := 50

instance : NeZero ninode := ⟨by decide⟩

variable {n : Nat}

/-- An entry of `itable`. -/
structure Entry (n : Nat) where
  ref : Nat
  inum : Fin n
  valid : Bool
  ip : Dinode

/-- The file system with `n` inodes, and the copies of inodes in memory. -/
structure Fs (n : Nat) where
  disk : Disk
  dinode : Fin n → Dinode
  itable : Fin ninode → Entry n

variable (fs : Fs n)

def Fs.setEntry (e : Fin ninode) (x : Entry n) : Fs n :=
  { fs with itable := update fs.itable e x }

/-- The fields of a locked inode change, and the blocks with them. -/
def Fs.setIp (e : Fin ninode) (d : Disk) (ip : Dinode) : Fs n :=
  { fs.setEntry e { fs.itable e with ip := ip } with disk := d }

def iupdate (e : Fin ninode) : Fs n :=
  { fs with dinode := update fs.dinode (fs.itable e).inum (fs.itable e).ip }

def iget (inum : Fin n) : Except Panic (Fin ninode × Fs n) :=
  match (List.finRange ninode).find? fun e => 0 < (fs.itable e).ref ∧ (fs.itable e).inum = inum with
  | some e => .ok (e, fs.setEntry e { fs.itable e with ref := (fs.itable e).ref + 1 })
  | none =>
    match (List.finRange ninode).find? fun e => (fs.itable e).ref = 0 with
    | some e => .ok (e, fs.setEntry e { fs.itable e with inum := inum, ref := 1, valid := false })
    | none => .error .noInodes

def idup (e : Fin ninode) : Fs n :=
  fs.setEntry e { fs.itable e with ref := (fs.itable e).ref + 1 }

def ilock (fs : Fs n) (e : Fin ninode) : Except Panic (Fs n) :=
  let x := fs.itable e
  if x.ref < 1 then .error .ilock
  else if x.valid then .ok fs
  else if (fs.dinode x.inum).type = 0 then .error .noType
  else .ok (fs.setEntry e { x with ip := fs.dinode x.inum, valid := true })

def ialloc (type : Int16) : Except Panic (Option (Fin ninode) × Fs n) :=
  match (List.finRange n).find? fun i => 1 ≤ i.val ∧ (fs.dinode i).type = 0 with
  | some i => do
    let (e, fs) ← iget { fs with dinode := update fs.dinode i { Dinode.zero with type := type } } i
    return (some e, fs)
  | none => .ok (none, fs)

/-- `iput` of the last reference to an inode without links. -/
def iputFree (e : Fin ninode) : Except Panic (Fs n) := do
  let (d, ip) ← itrunc fs.disk (fs.itable e).ip
  let fs := iupdate (fs.setIp e d ip) e
  let fs := iupdate (fs.setIp e d { ip with type := 0 }) e
  return fs.setEntry e { fs.itable e with valid := false }

def iput (e : Fin ninode) : Except Panic (Fs n) := do
  let x := fs.itable e
  let fs ← (if x.ref = 1 ∧ x.valid ∧ x.ip.nlink = 0 then iputFree fs e else .ok fs)
  return fs.setEntry e { fs.itable e with ref := (fs.itable e).ref - 1 }

/-- What the callers do between `ilock` and `iunlock`: read, write (files, and
entries of directories), cut to size 0, or set the other fields. -/
inductive Use where
  | readi (got : Nat → Nat) (off n : UInt32)
  | writei (src : Source) (off n : UInt32)
  | itrunc
  | fields (major minor nlink : Int16)

def locked (e : Fin ninode) : Use → Except Panic (Fs n)
  | .readi got off n => do
    let (_, _, d, ip) ← readi g fs.disk (fs.itable e).ip got off n
    return fs.setIp e d ip
  | .writei src off n => do
    let (r, d, ip) ← writei g fs.disk (fs.itable e).ip src off n
    return if r.isSome then iupdate (fs.setIp e d ip) e else fs.setIp e d ip
  | .itrunc => do
    let (d, ip) ← itrunc fs.disk (fs.itable e).ip
    return iupdate (fs.setIp e d ip) e
  | .fields major minor nlink =>
    let ip := (fs.itable e).ip
    .ok (iupdate (fs.setIp e fs.disk { ip with major := major, minor := minor, nlink := nlink }) e)

/-- A call on the inode layer. -/
inductive Call (n : Nat) where
  | iget (inum : Fin n)
  | idup (e : Fin ninode)
  | ialloc (type : Int16)
  | iput (e : Fin ninode)
  | use (e : Fin ninode) (u : Use)

def call : Call n → Except Panic (Fs n)
  | .iget inum => do
    let (_, fs) ← iget fs inum
    return fs
  | .idup e => .ok (idup fs e)
  | .ialloc type => do
    let (_, fs) ← ialloc fs type
    return fs
  | .iput e => iput fs e
  | .use e u => do
    let fs ← ilock fs e
    locked g fs e u

/-- Callers of `idup` and `iput` have a reference. -/
def Held : Call n → Prop
  | .idup e => 0 < (fs.itable e).ref
  | .iput e => 0 < (fs.itable e).ref
  | _ => True

instance (fs : Fs n) : ∀ c : Call n, Decidable (Held fs c)
  | .idup e | .iput e => inferInstanceAs (Decidable (0 < (fs.itable e).ref))
  | .iget _ | .ialloc _ | .use _ _ => inferInstanceAs (Decidable True)

end OsProject.Xv6.Inode
