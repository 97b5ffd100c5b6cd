import OsProject.Xv6.Inode
import Mathlib.Data.Fintype.Card
import Mathlib.Data.List.TakeWhile

/-! # Directories, paths and open files

`fs.c` above the contents of inodes, `file.c` and `sysfile.c`, one system call at
a time. Inode numbers are `Fin n` for `n = sb.ninodes`; they are stored in 16
bits, and number 0 stands for none. Every change of an inode in memory is
followed by `iupdate`, so its fields are kept once, with the reference count and
the flag `valid` of the inode table beside them. A directory is the list of its
entries, and offsets in it count entries; a file has its bytes beside them. Names and
paths are strings without their NUL. -/
namespace OsProject.Xv6.Files
open List
open Function (update)

def dirsiz : Nat := 14
def nofile : Nat := 16
def nfile : Nat := 100
def nproc : Nat := 64
def ninode : Nat := 50
def ndev : Int16 := 10

/-- As many entries as `MAXFILE*BSIZE` bytes hold. -/
def maxSlots : Nat := Inode.maxfile * Inode.bsize / 16

inductive Kind where
  | free | dir | file | device
  deriving DecidableEq

structure Dirent (n : Nat) where
  inum : Fin n
  name : List UInt8
  deriving DecidableEq

structure Node (n : Nat) where
  type : Kind
  major : Int16
  minor : Int16
  nlink : Int16
  slots : List (Dirent n)
  data : List UInt8

inductive FdType where
  | none | inode | device
  deriving DecidableEq

structure File (n : Nat) where
  type : FdType
  ref : Nat
  readable : Bool
  writable : Bool
  ip : Fin n
  off : UInt32
  major : Int16

structure Proc (n : Nat) where
  cwd : Fin n
  ofile : Fin nofile → Option (Fin nfile)

structure Sys (n : Nat) where
  ino : Fin n → Node n
  ref : Fin n → Nat
  valid : Fin n → Bool
  ftable : Fin nfile → File n
  proc : Fin nproc → Option (Proc n)

/-- The panics, and a call by a process that there is not. -/
inductive Panic where
  | igetFull | ilock | noType | notDir | unlinkNlink | filedup | fileclose | initExiting | noCaller
  deriving DecidableEq

variable {n : Nat} [NeZero n]

def rootino : Fin n := Fin.ofNat n 1

variable (s : Sys n)

def Sys.setNode (i : Fin n) (x : Node n) : Sys n :=
  { s with ino := update s.ino i x }

/-! ## Inodes -/

def iget (i : Fin n) : Except Panic (Sys n) :=
  if 0 < s.ref i then .ok { s with ref := update s.ref i (s.ref i + 1) }
  else if ninode ≤ (Finset.univ.filter fun j => 0 < s.ref j).card then .error .igetFull
  else .ok { s with ref := update s.ref i 1, valid := update s.valid i false }

def idup (i : Fin n) : Sys n :=
  { s with ref := update s.ref i (s.ref i + 1) }

def ilock (s : Sys n) (i : Fin n) : Except Panic (Sys n) :=
  if s.ref i < 1 then .error .ilock
  else if s.valid i then .ok s
  else if (s.ino i).type = .free then .error .noType
  else .ok { s with valid := update s.valid i true }

/-- After `itrunc` and `ip->type = 0`. -/
def Node.freed (x : Node n) : Node n := { x with type := .free, slots := [], data := [] }

def iput (i : Fin n) : Sys n :=
  if s.ref i = 1 ∧ s.valid i ∧ (s.ino i).nlink = 0 then
    { s.setNode i (s.ino i).freed with
      ref := update s.ref i 0
      valid := update s.valid i false }
  else { s with ref := update s.ref i (s.ref i - 1) }

def ialloc (type : Kind) : Except Panic (Option (Fin n) × Sys n) :=
  match (List.finRange n).find? fun i => 1 ≤ i.val ∧ (s.ino i).type = .free with
  | some i => do
    let s ← iget (s.setNode i
      { type := type, major := 0, minor := 0, nlink := 0, slots := [], data := [] }) i
    return (some i, s)
  | none => .ok (none, s)

/-! ## Directories -/

/-- `strncmp` over `DIRSIZ` bytes. -/
def namecmp (s t : List UInt8) : Bool := s.take dirsiz = t.take dirsiz

/-- The scan of `dirlookup`: the number and the offset of the entry. -/
def lookup (name : List UInt8) : List (Dirent n) → Nat → Option (Fin n × Nat)
  | [], _ => none
  | e :: es, off =>
    if e.inum ≠ 0 ∧ namecmp name e.name then some (e.inum, off) else lookup name es (off + 1)

def dirlookup (dp : Fin n) (name : List UInt8) : Except Panic (Option (Fin n × Nat) × Sys n) :=
  if (s.ino dp).type ≠ .dir then .error .notDir
  else match lookup name (s.ino dp).slots 0 with
    | some (i, off) => do
      let s ← iget s i
      return (some (i, off), s)
    | none => .ok (none, s)

/-- The entry goes to the first one that is free; none if there is none. -/
def fillSlot (e : Dirent n) : List (Dirent n) → Option (List (Dirent n))
  | [] => none
  | x :: xs => if x.inum = 0 then some (e :: xs) else (fillSlot e xs).map (x :: ·)

/-- `dirlink`'s write. At the end of the directory it takes a block, unless the
disk is full, and fails at the greatest size. -/
def addSlot (room : Bool) (e : Dirent n) (l : List (Dirent n)) : Option (List (Dirent n)) :=
  match fillSlot e l with
  | some l' => some l'
  | none => if room ∧ l.length < maxSlots then some (l ++ [e]) else none

def dirlink (dp : Fin n) (name : List UInt8) (inum : Fin n) (room : Bool) :
    Except Panic (Bool × Sys n) := do
  let (r, s) ← dirlookup s dp name
  match r with
  | some (i, _) => return (false, iput s i)
  | none =>
    match addSlot room ⟨inum, name.take dirsiz⟩ (s.ino dp).slots with
    | some l => return (true, s.setNode dp { s.ino dp with slots := l })
    | none => return (false, s)

/-- The entries behind `.` and `..`. -/
def isdirempty (x : Node n) : Bool := (x.slots.drop 2).all fun e => e.inum = 0

/-! ## Paths -/

def slash : UInt8 := 47
def dot : UInt8 := 46

def skipelem (path : List UInt8) : Option (List UInt8 × List UInt8) :=
  match path.dropWhile (· = slash) with
  | [] => none
  | c :: p => some (((c :: p).takeWhile (· ≠ slash)).take dirsiz,
      ((c :: p).dropWhile (· ≠ slash)).dropWhile (· = slash))

/-- The names that `skipelem` yields one after the other. -/
def elementsFrom : Nat → List UInt8 → List (List UInt8)
  | 0, _ => []
  | fuel + 1, path =>
    match skipelem path with
    | none => []
    | some (name, rest) => name :: elementsFrom fuel rest

def elements (path : List UInt8) : List (List UInt8) := elementsFrom path.length path

theorem skipelem_shorter {path name rest} (h : skipelem path = some (name, rest)) :
    rest.length < path.length := by
  unfold skipelem at h
  split at h
  · cases h
  · rename_i c p tail
    cases h
    have first : ¬ c = slash := by
      have := head_dropWhile_not (fun c => decide (c = slash)) (l := path)
        (by rw [tail]; exact cons_ne_nil c p)
      simpa only [tail, head_cons, decide_eq_false_iff_not] using this
    have within := length_dropWhile_le (fun c => decide (c = slash)) path
    rw [tail, length_cons] at within
    rw [dropWhile_cons_of_pos (by simpa using first)]
    have skip := length_dropWhile_le (fun c => decide (c = slash))
      (p.dropWhile fun c => decide (c ≠ slash))
    have name := length_dropWhile_le (fun c => decide (c ≠ slash)) p
    omega

/-- With enough fuel the names do not depend on it. -/
theorem elementsFrom_stable {fuel fuel' path} (enough : path.length ≤ fuel)
    (enough' : path.length ≤ fuel') : elementsFrom fuel path = elementsFrom fuel' path := by
  induction fuel generalizing fuel' path with
  | zero =>
    rw [length_eq_zero_iff.1 (Nat.le_zero.1 enough)]
    cases fuel' with
    | zero => rfl
    | succ => rfl
  | succ fuel ih =>
    cases fuel' with
    | zero =>
      rw [length_eq_zero_iff.1 (Nat.le_zero.1 enough')]
      rfl
    | succ fuel' =>
      rw [elementsFrom, elementsFrom]
      cases first : skipelem path with
      | none => rfl
      | some r =>
        have shorter := skipelem_shorter first
        have same : elementsFrom fuel r.2 = elementsFrom fuel' r.2 := ih (by omega) (by omega)
        dsimp only
        rw [same]

/-- The loop reads names until `skipelem` finds none. -/
theorem elements_eq (path : List UInt8) :
    elements path = match skipelem path with
      | none => []
      | some (name, rest) => name :: elements rest := by
  rw [elements, elementsFrom_stable (le_refl _) (Nat.le_succ _), elementsFrom]
  cases first : skipelem path with
  | none => rfl
  | some r =>
    have shorter := skipelem_shorter first
    dsimp only
    rw [elements, elementsFrom_stable (le_of_lt shorter) (le_refl _)]

/-- `namex`'s loop, over the names of the path. -/
def walk (parent : Bool) :
    List (List UInt8) → Sys n → Fin n → Except Panic (Option (Fin n × List UInt8) × Sys n)
  | [], s, ip => if parent then .ok (none, iput s ip) else .ok (some (ip, []), s)
  | name :: rest, s, ip => do
    let s ← ilock s ip
    if (s.ino ip).type ≠ .dir then return (none, iput s ip)
    else if parent ∧ rest = [] then return (some (ip, name), s)
    else
      let (r, s) ← dirlookup s ip name
      match r with
      | none => return (none, iput s ip)
      | some (next, _) => walk parent rest (iput s ip) next

def namex (cwd : Fin n) (path : List UInt8) (parent : Bool) :
    Except Panic (Option (Fin n × List UInt8) × Sys n) :=
  if path.head? = some slash then do
    let s ← iget s rootino
    walk parent (elements path) s rootino
  else walk parent (elements path) (idup s cwd) cwd

def namei (cwd : Fin n) (path : List UInt8) := namex s cwd path false

def nameiparent (cwd : Fin n) (path : List UInt8) := namex s cwd path true

/-! ## Open files -/

def filealloc : Option (Fin nfile × Sys n) :=
  ((List.finRange nfile).find? fun f => (s.ftable f).ref = 0).map fun f =>
    (f, { s with ftable := update s.ftable f { s.ftable f with ref := 1 } })

def filedup (s : Sys n) (f : Fin nfile) : Except Panic (Sys n) :=
  if (s.ftable f).ref < 1 then .error .filedup
  else .ok { s with
    ftable := update s.ftable f { s.ftable f with ref := (s.ftable f).ref + 1 } }

def fileclose (s : Sys n) (f : Fin nfile) : Except Panic (Sys n) :=
  let x := s.ftable f
  if x.ref < 1 then .error .fileclose
  else if 0 < x.ref - 1 then
    .ok { s with ftable := update s.ftable f { x with ref := x.ref - 1 } }
  else
    let s := { s with ftable := update s.ftable f { x with ref := 0, type := .none } }
    .ok (if x.type = .inode ∨ x.type = .device then iput s x.ip else s)

def fdalloc (pr : Proc n) (f : Fin nfile) : Option (Fin nofile × Proc n) :=
  ((List.finRange nofile).find? fun fd => pr.ofile fd = none).map fun fd =>
    (fd, { pr with ofile := update pr.ofile fd (some f) })

def Sys.setProc (p : Fin nproc) (pr : Option (Proc n)) : Sys n :=
  { s with proc := update s.proc p pr }

/-! ## System calls -/

def Sys.setNlink (i : Fin n) (v : Int16) : Sys n :=
  s.setNode i { s.ino i with nlink := v }

def sysLink (cwd : Fin n) (old new : List UInt8) (room : Bool) :
    Except Panic (Int × Sys n) := do
  let (r, s) ← namei s cwd old
  match r with
  | none => return (-1, s)
  | some (ip, _) =>
    let s ← ilock s ip
    if (s.ino ip).type = .dir then return (-1, iput s ip)
    else
      let s := s.setNlink ip ((s.ino ip).nlink + 1)
      let (r, s) ← nameiparent s cwd new
      match r with
      | none => undo s ip
      | some (dp, name) =>
        let s ← ilock s dp
        let (ok, s) ← dirlink s dp name ip room
        let s := iput s dp
        if ok then return (0, iput s ip) else undo s ip
where
  /-- The label `bad`. -/
  undo (s : Sys n) (ip : Fin n) : Except Panic (Int × Sys n) := do
    let s ← ilock s ip
    return (-1, iput (s.setNlink ip ((s.ino ip).nlink - 1)) ip)

def sysUnlink (cwd : Fin n) (path : List UInt8) : Except Panic (Int × Sys n) := do
  let (r, s) ← nameiparent s cwd path
  match r with
  | none => return (-1, s)
  | some (dp, name) =>
    let s ← ilock s dp
    if namecmp name [dot] ∨ namecmp name [dot, dot] then return (-1, iput s dp)
    else
      let (r, s) ← dirlookup s dp name
      match r with
      | none => return (-1, iput s dp)
      | some (ip, off) =>
        let s ← ilock s ip
        if (s.ino ip).nlink < 1 then .error .unlinkNlink
        else if (s.ino ip).type = .dir ∧ ¬ isdirempty (s.ino ip) then
          return (-1, iput (iput s ip) dp)
        else
          let s := s.setNode dp { s.ino dp with slots := (s.ino dp).slots.set off ⟨0, []⟩ }
          let s := if (s.ino ip).type = .dir then s.setNlink dp ((s.ino dp).nlink - 1) else s
          let s := iput s dp
          return (0, iput (s.setNlink ip ((s.ino ip).nlink - 1)) ip)

/-- `create` writes at most three entries. -/
instance neZero_three : NeZero 3 := ⟨by decide⟩

/-- The entries `.` and `..` of a new directory. -/
def makeDots (ip dp : Fin n) (room : Fin 3 → Bool) : Except Panic (Bool × Sys n) := do
  let (ok, s) ← dirlink s ip [dot] ip (room 0)
  if ok then dirlink s ip [dot, dot] dp (room 1) else return (false, s)

/-- The rest of `create`, after the new inode is on the disk. -/
def createIn (dp : Fin n) (name : List UInt8) (ip : Fin n) (type : Kind)
    (room : Fin 3 → Bool) : Except Panic (Option (Fin n) × Sys n) := do
  let (ok, s) ← (if type = .dir then makeDots s ip dp room else .ok (true, s))
  let (ok, s) ← (if ok then dirlink s dp name ip (room 2) else .ok (false, s))
  if ok then
    let s := if type = .dir then s.setNlink dp ((s.ino dp).nlink + 1) else s
    return (some ip, iput s dp)
  else return (none, iput (iput (s.setNlink ip 0) ip) dp)

def create (cwd : Fin n) (path : List UInt8) (type : Kind) (major minor : Int16)
    (room : Fin 3 → Bool) : Except Panic (Option (Fin n) × Sys n) := do
  let (r, s) ← nameiparent s cwd path
  match r with
  | none => return (none, s)
  | some (dp, name) =>
    let s ← ilock s dp
    let (r, s) ← dirlookup s dp name
    match r with
    | some (ip, _) =>
      let s ← ilock (iput s dp) ip
      if type = .file ∧ ((s.ino ip).type = .file ∨ (s.ino ip).type = .device) then
        return (some ip, s)
      else return (none, iput s ip)
    | none =>
      let (r, s) ← ialloc s type
      match r with
      | none => return (none, iput s dp)
      | some ip =>
        let s ← ilock s ip
        let s := s.setNode ip { s.ino ip with major := major, minor := minor, nlink := 1 }
        createIn s dp name ip type room

def oWronly : UInt32 := 0x001
def oRdwr : UInt32 := 0x002
def oCreate : UInt32 := 0x200
def oTrunc : UInt32 := 0x400

/-- `sys_open` once it has the inode. -/
def openFile (p : Fin nproc) (pr : Proc n) (ip : Fin n) (omode : UInt32) :
    Except Panic (Int × Sys n) :=
  let x := s.ino ip
  if x.type = .device ∧ (x.major < 0 ∨ ndev ≤ x.major) then .ok (-1, iput s ip)
  else match filealloc s with
    | none => .ok (-1, iput s ip)
    | some (f, s) =>
      match fdalloc pr f with
      | none => do
        let s ← fileclose s f
        return (-1, iput s ip)
      | some (fd, pr) =>
        let file : File n :=
          { type := if x.type = .device then .device else .inode
            ref := (s.ftable f).ref
            readable := omode &&& oWronly = 0
            writable := omode &&& oWronly ≠ 0 ∨ omode &&& oRdwr ≠ 0
            ip := ip
            off := if x.type = .device then (s.ftable f).off else 0
            major := if x.type = .device then x.major else (s.ftable f).major }
        let s := ({ s with ftable := update s.ftable f file }).setProc p (some pr)
        .ok (fd.val, if omode &&& oTrunc ≠ 0 ∧
          x.type = .file then s.setNode ip { x with data := [] } else s)

def sysOpen (p : Fin nproc) (pr : Proc n) (path : List UInt8) (omode : UInt32)
    (room : Fin 3 → Bool) : Except Panic (Int × Sys n) :=
  if omode &&& oCreate ≠ 0 then do
    let (r, s) ← create s pr.cwd path .file 0 0 room
    match r with
    | none => return (-1, s)
    | some ip => openFile s p pr ip omode
  else do
    let (r, s) ← namei s pr.cwd path
    match r with
    | none => return (-1, s)
    | some (ip, _) =>
      let s ← ilock s ip
      if (s.ino ip).type = .dir ∧ omode ≠ 0 then return (-1, iput s ip)
      else openFile s p pr ip omode

/-- `sys_mkdir` and `sys_mknod`. -/
def sysMake (cwd : Fin n) (path : List UInt8) (type : Kind) (major minor : Int16)
    (room : Fin 3 → Bool) : Except Panic (Int × Sys n) := do
  let (r, s) ← create s cwd path type major minor room
  match r with
  | none => return (-1, s)
  | some ip => return (0, iput s ip)

def sysChdir (p : Fin nproc) (pr : Proc n) (path : List UInt8) :
    Except Panic (Int × Sys n) := do
  let (r, s) ← namei s pr.cwd path
  match r with
  | none => return (-1, s)
  | some (ip, _) =>
    let s ← ilock s ip
    if (s.ino ip).type ≠ .dir then return (-1, iput s ip)
    else return (0, (iput s pr.cwd).setProc p (some { pr with cwd := ip }))

def sysClose (p : Fin nproc) (pr : Proc n) (fd : Int) : Except Panic (Int × Sys n) :=
  if h : 0 ≤ fd ∧ fd < nofile then
    let fd : Fin nofile := ⟨fd.toNat, by omega⟩
    match pr.ofile fd with
    | none => .ok (-1, s)
    | some f => do
      let s ← fileclose (s.setProc p (some { pr with ofile := update pr.ofile fd none })) f
      return (0, s)
  else .ok (-1, s)

/-- The part of `kfork` about files, for a child in slot `c`. -/
def kfork (pr : Proc n) (c : Fin nproc) : Except Panic (Int × Sys n) :=
  if (s.proc c).isSome then .ok (-1, s)
  else do
    let s ← (List.finRange nofile).foldlM (fun s fd =>
      match pr.ofile fd with
      | some f => filedup s f
      | none => .ok s) s
    return (c.val, (idup s pr.cwd).setProc c (some pr))

/-- The part of `kexit` about files. -/
def kexit (p : Fin nproc) (pr : Proc n) : Except Panic (Sys n) :=
  if p.val = 0 then .error .initExiting
  else do
    let s ← (List.finRange nofile).foldlM (fun s fd =>
      match pr.ofile fd with
      | some f => fileclose s f
      | none => .ok s) s
    return (iput s pr.cwd).setProc p none

/-- A system call of a process, with the strings that `argstr` fetches, and
whether there is room on the disk where a directory grows. -/
inductive Call (n : Nat) where
  | open (path : Option (List UInt8)) (omode : UInt32) (room : Fin 3 → Bool)
  | mkdir (path : Option (List UInt8)) (room : Fin 3 → Bool)
  | mknod (path : Option (List UInt8)) (major minor : Int16) (room : Fin 3 → Bool)
  | link (old new : Option (List UInt8)) (room : Bool)
  | unlink (path : Option (List UInt8))
  | chdir (path : Option (List UInt8))
  | close (fd : Int)
  | fork (c : Fin nproc)
  | exit

def syscall (p : Fin nproc) (pr : Proc n) : Call n → Except Panic (Int × Sys n)
  | .open (some path) omode room => sysOpen s p pr path omode room
  | .mkdir (some path) room => sysMake s pr.cwd path .dir 0 0 room
  | .mknod (some path) major minor room => sysMake s pr.cwd path .device major minor room
  | .link (some old) (some new) room => sysLink s pr.cwd old new room
  | .unlink (some path) => sysUnlink s pr.cwd path
  | .chdir (some path) => sysChdir s p pr path
  | .close fd => sysClose s p pr fd
  | .fork c => kfork s pr c
  | .exit => do
    let s ← kexit s p pr
    return (0, s)
  | .open none _ _ | .mkdir none _ | .mknod none _ _ _ | .link none _ _ | .link _ none _
  | .unlink none | .chdir none => .ok (-1, s)

/-- A completed call of process `p`. -/
def step (e : Fin nproc × Call n) : Except Panic (Sys n) :=
  match s.proc e.1 with
  | none => .error .noCaller
  | some pr => do
    let (_, s) ← syscall s e.1 pr e.2
    return s

end OsProject.Xv6.Files
