import OsProject.Lib.Count
import OsProject.Lib.Transition
import OsProject.Xv6.Inode

/-! # The inode table

`iget`, `idup`, `ilock`, `iunlock`, `iput`, `iupdate` and `ialloc` by any number of
processes. A step is a section under `itable.lock`, or a part of a section under an inode's
sleep lock: one read or write of the inode's block in the buffer cache, which is what was
logged last. Processes keep to the rules of `fs.c`: references are used and given up by
those who have them, an inode is changed under its lock and written back before the lock is
released, and only `iput` sets the type to 0. -/
namespace OsProject.Xv6.InodeTable
open Lib Lib.Transition Lib.Count
open Inode (Dinode ninode)
open Function (update)

structure Key where
  dev : UInt32
  inum : UInt32
  deriving DecidableEq

abbrev Entry := Fin ninode

structure Node where
  key : Key
  ref : Nat
  valid : Bool
  fields : Dinode

/-- What a process does with the lock of an inode in its hands: the rest of `ilock`, or what
`iput` does to free it. Outside of these the lock is for its caller. -/
inductive Work where
  | client | loading | trunc | truncated | cleared | zeroed | written
  deriving DecidableEq

inductive Point where
  | idle
  | locking (i : Entry)
  | working (i : Entry) (w : Work)
  | putting (i : Entry)
  | dropping (i : Entry)
  | scanning (dev : UInt32) (type : Int16) (inum : UInt32)
  | getting (k : Key)
  deriving DecidableEq

structure Sys (np : Nat) where
  node : Entry → Node
  lock : Entry → Option (Fin np)
  disk : Key → Dinode
  /-- the references that a process has been given and has not given up -/
  holds : Fin np → Entry → Nat
  /-- if the holder of the lock has changed the fields and not called `iupdate` since -/
  changed : Entry → Bool
  point : Fin np → Point

variable {np : Nat} (s : Sys np)

def Sys.setNode (i : Entry) (x : Node) : Sys np :=
  { s with node := update s.node i x }

variable (p : Fin np)

def Sys.goto (pt : Point) : Sys np :=
  { s with point := update s.point p pt }

def Sys.setHolds (i : Entry) (n : Nat) : Sys np :=
  { s with holds := update s.holds p (update (s.holds p) i n) }

def Sys.setLock (i : Entry) (x : Option (Fin np)) : Sys np :=
  { s with lock := update s.lock i x }

def Sys.setFields (i : Entry) (x : Dinode) : Sys np :=
  s.setNode i { s.node i with fields := x }

def Sys.setChanged (i : Entry) (b : Bool) : Sys np :=
  { s with changed := update s.changed i b }

def Sys.setDisk (k : Key) (d : Dinode) : Sys np :=
  { s with disk := update s.disk k d }

/-- The inode's part of its block is written and logged. -/
def iupdate (i : Entry) : Sys np :=
  (s.setDisk (s.node i).key (s.node i).fields).setChanged i false

/-! ## Who uses an inode -/

/-- The process is in an `iput` of the inode. -/
def puts (i : Entry) : Point → Bool
  | .putting j | .dropping j => j = i
  | .working j w => j = i && w ≠ .client && w ≠ .loading
  | .idle | .locking _ | .scanning .. | .getting _ => false

/-- What a process that has the lock of `i` does with it. -/
def workOn (i : Entry) : Point → Work
  | .working j w => if j = i then w else .client
  | _ => .client

def outstanding (i : Entry) : Nat := ∑ p, s.holds p i

def putters (i : Entry) : Nat := count fun p => puts i (s.point p) = true

/-- The process needs the inode to stay: it is in `ilock`, or has the lock from it. -/
def uses (i : Entry) (p : Fin np) : Bool :=
  s.point p = .locking i ||
    (s.lock i = some p && (workOn i (s.point p) = .client || workOn i (s.point p) = .loading))

/-- Some reference is not being given up. -/
def Kept (i : Entry) : Prop := putters s i < outstanding s i
  deriving Decidable

/-! ## Sections -/

/-- The section of `iget`; none is the panic "iget: no inodes". -/
def iget (k : Key) : Option (Sys np) :=
  match (List.finRange ninode).find? fun i => 0 < (s.node i).ref ∧ (s.node i).key = k with
  | some i =>
    some ((s.setNode i { s.node i with ref := (s.node i).ref + 1 }).setHolds p i (s.holds p i + 1))
  | none =>
    match (List.finRange ninode).find? fun i => (s.node i).ref = 0 with
    | some i =>
      some ((s.setNode i { s.node i with key := k, ref := 1, valid := false }).setHolds p i
        (s.holds p i + 1))
    | none => none

/-- `ip->ref--`, at the end of `iput`. -/
def drop (i : Entry) : Sys np :=
  (s.setNode i { s.node i with ref := (s.node i).ref - 1 }).setHolds p i (s.holds p i - 1)

/-- The first section of `iput`. -/
def iput (i : Entry) : Option (Sys np) :=
  let ip := s.node i
  if ip.ref = 1 ∧ ip.valid = true ∧ ip.fields.nlink = 0 then
    match s.lock i with
    | none => some ((s.setLock i (some p)).goto p (.working i .trunc))
    -- it would sleep with `itable.lock` held
    | some _ => none
  else some ((drop s p i).goto p .idle)

/-- What a process does next with the lock of `i`. -/
def work (i : Entry) : Work → Option (Sys np)
  | .client => none
  | .loading =>
    let d := s.disk (s.node i).key
    if d.type = 0 then none
    else some (((s.setNode i { s.node i with fields := d, valid := true }).setChanged i false).goto
      p .idle)
  | .trunc =>
    some ((s.setFields i { (s.node i).fields with size := 0, addrs := fun _ => 0 }).goto p
      (.working i .truncated))
  | .truncated => some ((iupdate s i).goto p (.working i .cleared))
  | .cleared =>
    some ((s.setFields i { (s.node i).fields with type := 0 }).goto p (.working i .zeroed))
  | .zeroed => some ((iupdate s i).goto p (.working i .written))
  | .written =>
    some (((s.setNode i { s.node i with valid := false }).setLock i none).goto p (.dropping i))

/-- One round of the loop of `ialloc`, with the buffer of the inode's block locked. -/
def scan (ninodes dev : UInt32) (type : Int16) (inum : UInt32) : Sys np :=
  if inum < ninodes then
    if (s.disk ⟨dev, inum⟩).type = 0 then
      (s.setDisk ⟨dev, inum⟩ { Dinode.zero with type := type }).goto p (.getting ⟨dev, inum⟩)
    else s.goto p (.scanning dev type (inum + 1))
  else s.goto p .idle

def go (ninodes : UInt32) (s : Sys np) (p : Fin np) : Option (Sys np) :=
  match s.point p with
  | .idle => none
  | .locking i =>
    match s.lock i with
    | none =>
      let s := (s.setLock i (some p)).setChanged i false
      some (s.goto p (if (s.node i).valid then .idle else .working i .loading))
    | some _ => none
  | .working i w => work s p i w
  | .putting i => iput s p i
  | .dropping i => some ((drop s p i).goto p .idle)
  | .scanning dev type inum => some (scan s p ninodes dev type inum)
  | .getting k => (iget s p k).map fun s' => s'.goto p .idle

/-! ## Calls -/

inductive Act (np : Nat) where
  | iget (p : Fin np) (k : Key)
  | idup (p : Fin np) (i : Entry)
  | ilock (p : Fin np) (i : Entry)
  | iunlock (p : Fin np) (i : Entry)
  | iput (p : Fin np) (i : Entry)
  | change (p : Fin np) (i : Entry) (x : Dinode)
  | iupdate (p : Fin np) (i : Entry)
  | ialloc (p : Fin np) (dev : UInt32) (type : Int16)
  | pass (p q : Fin np) (i : Entry)
  | go (p : Fin np)

/-- The caller of `iput` has a reference to give up, and leaves one for those who use the
inode. -/
def MayPut (i : Entry) : Prop :=
  1 ≤ s.holds p i ∧ ((∃ q, uses s i q = true) → putters s i + 1 < outstanding s i)
  deriving Decidable

/-- The process that a step is of. -/
def Act.actor : Act np → Fin np
  | .iget p _ | .idup p _ | .ilock p _ | .iunlock p _ | .iput p _ | .change p _ _ | .iupdate p _
  | .ialloc p _ _ | .pass p _ _ | .go p => p

/-- A call of a process that is in none, as the rules allow it. -/
def call : Act np → Option (Sys np)
  | .iget p k => iget s p k
  | .idup p i =>
    if Kept s i then
      some ((s.setNode i { s.node i with ref := (s.node i).ref + 1 }).setHolds p i
        (s.holds p i + 1))
    else none
  | .ilock p i => if Kept s i ∧ 1 ≤ (s.node i).ref then some (s.goto p (.locking i)) else none
  | .iunlock p i =>
    if s.lock i = some p ∧ s.changed i = false ∧ 1 ≤ (s.node i).ref
      then some (s.setLock i none) else none
  | .iput p i => if MayPut s p i then some (s.goto p (.putting i)) else none
  | .change p i x =>
    if s.lock i = some p ∧ x.type ≠ 0 then
      some ((s.setFields i x).setChanged i true)
    else none
  | .iupdate p i => if s.lock i = some p then some (iupdate s i) else none
  | .ialloc p dev type => if type ≠ 0 then some (s.goto p (.scanning dev type 1)) else none
  | .pass p q i =>
    if 1 ≤ s.holds p i then
      let s := s.setHolds p i (s.holds p i - 1)
      some (s.setHolds q i (s.holds q i + 1))
    else none
  | .go _ => none

def step (ninodes : UInt32) (s : Sys np) : Act np → Option (Sys np)
  | .go p => go ninodes s p
  | a => if s.point a.actor = .idle then call s a else none

/-- An empty table. -/
def iinit (disk : Key → Dinode) : Sys np where
  node _ := ⟨⟨0, 0⟩, 0, false, Dinode.zero⟩
  lock _ := none
  disk := disk
  holds _ _ := 0
  changed _ := false
  point _ := .idle

end OsProject.Xv6.InodeTable
