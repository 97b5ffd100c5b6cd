import OsProject.Lib.Cycle
import OsProject.Lib.Transition
import OsProject.Xv6.Sbrk

/-! # The user heap allocator

`malloc`, `free` and `morecore` of `umalloc.c` on memory that `sbrk` grows. Addresses are in
units of `sizeof(Header)`: the break is page aligned at the start, and `morecore` moves it by
whole units. A call that touches memory that is not mapped ends the process and has no
result. -/
namespace OsProject.Xv6.Malloc
open Lib Lib.Transition Lib.Cycle Memory Sbrk
open Function (update update_of_ne update_self)

/-- `sizeof(Header)`. -/
def unit : Nat := 16

/-- A `Header` in memory: `s.ptr`, in units, and `s.size`. -/
structure Hdr where
  ptr : Nat
  size : UInt32

/-- A block that `malloc` has returned and `free` has not taken back, from its header on. -/
structure Block where
  addr : Nat
  units : Nat
  nbytes : Nat
deriving DecidableEq

/-- The program's memory, seen as headers, with `freep` (`none` is null), the address space and
the blocks in use. -/
structure Heap where
  hdr : Nat → Hdr
  freep : Option Nat
  mem : AddrSpace
  live : List Block

/-- Whether a header at `a` can be read and written. -/
def mapped (m : AddrSpace) (a : Nat) : Bool :=
  (m.pages (a * unit / pgSize)).any fun pg => pg.user && pg.writable

def setPtr (h : Nat → Hdr) (a ptr : Nat) : Nat → Hdr := update h a ⟨ptr, (h a).size⟩

def setSize (h : Nat → Hdr) (a : Nat) (size : UInt32) : Nat → Hdr := update h a ⟨(h a).ptr, size⟩

section headers
variable (h : Nat → Hdr) (a x v : Nat) (n : UInt32)

@[simp] theorem setPtr_self_ptr : (setPtr h a v a).ptr = v := by
  unfold setPtr
  rw [update_self]

@[simp] theorem setPtr_size : (setPtr h a v x).size = (h x).size := by
  unfold setPtr
  by_cases eq : x = a
  · rw [eq, update_self]
  · rw [update_of_ne eq]

@[simp] theorem setSize_self_size : (setSize h a n a).size = n := by
  unfold setSize
  rw [update_self]

@[simp] theorem setSize_ptr : (setSize h a n x).ptr = (h x).ptr := by
  unfold setSize
  by_cases eq : x = a
  · rw [eq, update_self]
  · rw [update_of_ne eq]

end headers

/-! ## free -/

/-- The test of the loop in `free`: `bp` belongs behind `p`. -/
def place (h : Nat → Hdr) (bp p : Nat) : Bool :=
  (bp > p ∧ bp < (h p).ptr) ∨ (p ≥ (h p).ptr ∧ (bp > p ∨ bp < (h p).ptr))

def freeScan (m : AddrSpace) (h : Nat → Hdr) (bp : Nat) : Nat → Nat → Option Nat
  | 0, _ => none
  | fuel + 1, p =>
    if !mapped m p then none else if place h bp p then some p else freeScan m h bp fuel (h p).ptr

/-- Join `bp` to the block behind `p`, or link it to it. -/
def joinUp (h : Nat → Hdr) (bp p : Nat) : Nat → Hdr :=
  if bp + (h bp).size.toNat = (h p).ptr then
    let h' := setSize h bp ((h bp).size + (h (h p).ptr).size)
    setPtr h' bp (h' (h' p).ptr).ptr
  else setPtr h bp (h p).ptr

/-- Join `p` to `bp`, or link it to it. -/
def joinDown (h : Nat → Hdr) (bp p : Nat) : Nat → Hdr :=
  if p + (h p).size.toNat = bp then
    let h' := setSize h p ((h p).size + (h bp).size)
    setPtr h' p (h' bp).ptr
  else setPtr h p bp

/-- How many headers there can be: the loops go around the free list, which lies below the break. -/
def Heap.fuel (s : Heap) : Nat := s.mem.sz / unit + 2

/-- `free` of a block with its header at `bp`. -/
def free (s : Heap) (bp : Nat) : Option Heap :=
  match s.freep with
  | none => none
  | some f =>
    match freeScan s.mem s.hdr bp s.fuel f with
    | none => none
    | some p =>
      if !mapped s.mem bp then none
      else if bp + (s.hdr bp).size.toNat = (s.hdr p).ptr ∧ !mapped s.mem (s.hdr p).ptr then none
      else some { s with hdr := joinDown (joinUp s.hdr bp p) bp p, freep := some p }

/-! ## malloc -/

/-- `SBRK_ERROR`. -/
def sbrkError : UInt64 := -1

/-- `morecore`: the new `freep`, or null. The number of bytes is a `size_t` that becomes the
`int` of `sbrk`. -/
def morecore (ok : Nat → Bool) (nu : UInt32) (s : Heap) : Option (Heap × Option Nat) :=
  let nu := if nu < 4096 then 4096 else nu
  match sysSbrk ok s.mem (nu.toUInt64 * 16).toUInt32.toInt32 sbrkEager with
  | none => none
  | some (m, p) =>
    let s := { s with mem := m }
    if p = sbrkError then some (s, none)
    else
      let hp := p.toNat / unit
      if !mapped s.mem hp then none
      else (free { s with hdr := setSize s.hdr hp nu } hp).map fun s => (s, s.freep)

/-- `malloc` has found `p`, behind `prevp`, large enough: all of it, or its tail, is the block. -/
def carve (s : Heap) (nunits : UInt32) (prevp p : Nat) : Option (Heap × Nat) :=
  if (s.hdr p).size = nunits then
    some ({ s with hdr := setPtr s.hdr prevp (s.hdr p).ptr, freep := some prevp }, p)
  else
    let h := setSize s.hdr p ((s.hdr p).size - nunits)
    let q := p + (h p).size.toNat
    if !mapped s.mem q then none
    else some ({ s with hdr := setSize h q nunits, freep := some prevp }, q)

/-- The loop of `malloc`; the result is the header of the block, or null. -/
def mallocLoop (ok : Nat → Bool) (nunits : UInt32) :
    Nat → Heap → Nat → Nat → Option (Heap × Option Nat)
  | 0, _, _, _ => none
  | fuel + 1, s, prevp, p =>
    if !mapped s.mem p then none
    else if (s.hdr p).size ≥ nunits then (carve s nunits prevp p).map fun r => (r.1, some r.2)
    else if s.freep = some p then
      match morecore ok nunits s with
      | none => none
      | some (s, none) => some (s, none)
      | some (s, some p) => mallocLoop ok nunits fuel s p (s.hdr p).ptr
    else mallocLoop ok nunits fuel s p (s.hdr p).ptr

/-- `(nbytes + sizeof(Header) - 1)/sizeof(Header) + 1`. -/
def nunits (nbytes : UInt32) : UInt32 := ((nbytes.toUInt64 + 16 - 1) / 16 + 1).toUInt32

/-- The first call makes `base` the free list. -/
def init (base : Nat) (s : Heap) : Heap :=
  match s.freep with
  | some _ => s
  | none => { s with hdr := update s.hdr base ⟨base, 0⟩, freep := some base }

def malloc (base : Nat) (ok : Nat → Bool) (nbytes : UInt32) (s : Heap) :
    Option (Heap × Option Nat) :=
  let s := init base s
  match s.freep with
  | none => none
  | some prevp =>
    if !mapped s.mem prevp then none
    else mallocLoop ok (nunits nbytes) (2 * s.fuel) s prevp (s.hdr prevp).ptr

/-! ## A program -/

/-- `(PHYSTOP - KERNBASE) / PGSIZE`. Every page below the break of a program that grows eagerly
has a frame, so page `v` can be had only if `v` frames and one more exist. -/
def physPages : Nat := 32768

/-- A program that has been loaded: where its `base` lies, its memory up to a page aligned
break, and what is in it. -/
structure Layout where
  base : Nat
  mem : AddrSpace
  junk : Nat → Hdr
  aligned : mem.sz % pgSize = 0
  low : (base + 1) * unit ≤ mem.sz
  static : mapped mem base = true
  small : mem.sz ≤ physPages * pgSize
  free : ∀ v, mem.sz / pgSize ≤ v → mem.pages v = none

inductive Act where
  /-- with `frames`, the first page for which there is no frame -/
  | malloc (nbytes : UInt32) (frames : Nat)
  | free (addr : Nat)
  /-- the program writes into one of its blocks -/
  | store (a : Nat) (h : Hdr)

def step (base : Nat) (s : Heap) : Act → Option Heap
  | .malloc nbytes frames =>
    (malloc base (fun v => v < min frames physPages) nbytes s).map fun r =>
      match r.2 with
      | none => r.1
      | some a => { r.1 with live := ⟨a, (nunits nbytes).toNat, nbytes.toNat⟩ :: r.1.live }
  | .free addr =>
    if s.live.any fun b => b.addr = addr then
      free { s with live := s.live.filter fun b => b.addr ≠ addr } addr
    else none
  | .store a h =>
    if s.live.any fun b => b.addr < a ∧ a < b.addr + b.units then
      some { s with hdr := update s.hdr a h }
    else none

def Layout.start (L : Layout) : Heap := ⟨L.junk, none, L.mem, []⟩

/-- The break, in units. -/
def Heap.brk (s : Heap) : Nat := s.mem.sz / unit

/-! ## What it is for -/

def Block.Apart (a b : Block) : Prop := a.addr + a.units ≤ b.addr ∨ b.addr + b.units ≤ a.addr

/-- The free list: from `base` through `rest` and back, in the order of addresses, with a gap
between any two of its blocks. -/
structure Listed (h : Nat → Hdr) (base : Nat) (rest : List Nat) : Prop where
  circular : Path (fun p => (h p).ptr) base rest base
  ordered : (base :: rest).Pairwise fun p q => p + (h p).size.toNat < q

/-- What the allocator guarantees. -/
structure Sound (L : Layout) (s : Heap) : Prop where
  large : ∀ b ∈ s.live, b.nbytes ≤ (b.units - 1) * unit
  below : ∀ b ∈ s.live, L.mem.sz ≤ b.addr * unit ∧ (b.addr + b.units) * unit ≤ s.mem.sz
  apart : s.live.Pairwise Block.Apart
  list : ∀ f, s.freep = some f → ∃ rest, f ∈ L.base :: rest ∧ Listed s.hdr L.base rest ∧
    ∀ p ∈ L.base :: rest, ∀ b ∈ s.live, ¬ (b.addr ≤ p ∧ p < b.addr + b.units)

/-- The largest request whose size in bytes is an `int` for `sbrk`. -/
def maxRequest : Nat := 2147483616

/-- No call asks for more. -/
def Modest (_ : Heap) : Act → Prop
  | .malloc nbytes _ => nbytes.toNat ≤ maxRequest
  | _ => True

end OsProject.Xv6.Malloc
