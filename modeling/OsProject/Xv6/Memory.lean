import Mathlib.Algebra.Ring.Nat
import Mathlib.Tactic.Common

/-! # User memory and the kernel's copies

A user address space is the finite map of pages that `walk` reads out of a
page table (only the leaves a user program can have; the trampoline and
trapframe pages carry no `PTE_U` and lie above every process size), with the
process size `sz` that `vmfault` consults. Whether a physical page can be
allocated is not decided here: `ok` says for which page numbers `kalloc` and
`mappages` succeed. -/
namespace OsProject.Xv6.Memory
open List

def pgSize : Nat := 4096
def maxVa : Nat := 2 ^ 38

/-- A mapped page: `PTE_U`, `PTE_W` and its bytes. -/
structure Page where
  user : Bool
  writable : Bool
  bytes : Nat → UInt8

structure AddrSpace where
  pages : Nat → Option Page
  sz : Nat

def AddrSpace.empty : AddrSpace := ⟨fun _ => none, 0⟩

variable (m : AddrSpace)

/-- Put page `pg` at page number `v`. -/
def AddrSpace.put (v : Nat) (pg : Page) : AddrSpace :=
  { m with pages := fun u => if u = v then some pg else m.pages u }

/-- The byte at user address `va`, if its page is mapped. -/
def AddrSpace.read (va : Nat) : Option UInt8 :=
  (m.pages (va / pgSize)).map fun pg => pg.bytes (va % pgSize)

def zeroPage : Page := ⟨true, true, fun _ => 0⟩

/-- `memmove` of `bs` into a page at offset `off`. -/
def Page.write (pg : Page) (off : Nat) (bs : List UInt8) : Page :=
  { pg with bytes := fun b =>
      if off ≤ b ∧ b < off + bs.length then bs.getD (b - off) 0 else pg.bytes b }

/-- A user store instruction that does not fault. -/
def AddrSpace.store (va : Nat) (b : UInt8) : AddrSpace :=
  match m.pages (va / pgSize) with
  | some pg =>
    if pg.user && pg.writable then m.put (va / pgSize) (pg.write (va % pgSize) [b]) else m
  | none => m

def walkaddr (va : Nat) : Option Page :=
  if va ≥ maxVa then none else (m.pages (va / pgSize)).filter fun pg => pg.user

/-- Map a zeroed page at a lazily allocated address. -/
def vmfault (ok : Nat → Bool) (m : AddrSpace) (va : Nat) : Option AddrSpace :=
  if va ≥ m.sz then none
  else if (m.pages (va / pgSize)).isSome then none
  else if ok (va / pgSize) then some (m.put (va / pgSize) zeroPage)
  else none

/-- `walkaddr`, and `vmfault` where it finds nothing. -/
def faultIn (ok : Nat → Bool) (m : AddrSpace) (va0 : Nat) : Option AddrSpace :=
  match walkaddr m va0 with
  | some _ => some m
  | none => vmfault ok m va0

/-- The loop of `copyout`; each round copies at least one byte, so `src.length`
rounds are enough. The bytes of earlier rounds stay written when a later
round fails. -/
def copyoutLoop (ok : Nat → Bool) : Nat → AddrSpace → Nat → List UInt8 → AddrSpace × Bool
  | 0, m, _, src => (m, src.isEmpty)
  | fuel + 1, m, dstva, src =>
    if src.isEmpty then (m, true)
    else
      let va0 := dstva / pgSize * pgSize
      if va0 ≥ maxVa then (m, false)
      else match faultIn ok m va0 with
        | none => (m, false)
        | some m1 => match m1.pages (va0 / pgSize) with
          | none => (m1, false)
          | some pg =>
            -- forbid copyout over read-only user text pages
            if !pg.writable then (m1, false)
            else
              let n := min (pgSize - (dstva - va0)) src.length
              copyoutLoop ok fuel (m1.put (va0 / pgSize) (pg.write (dstva - va0) (src.take n)))
                (va0 + pgSize) (src.drop n)

def copyout (ok : Nat → Bool) (m : AddrSpace) (dstva : Nat) (src : List UInt8) : AddrSpace × Bool :=
  copyoutLoop ok src.length m dstva src

/-- The loop of `copyin`. A page that `vmfault` maps stays mapped. -/
def copyinLoop (ok : Nat → Bool) : Nat → AddrSpace → Nat → Nat → AddrSpace × Option (List UInt8)
  | 0, m, _, len => (m, if len = 0 then some [] else none)
  | fuel + 1, m, srcva, len =>
    if len = 0 then (m, some [])
    else
      let va0 := srcva / pgSize * pgSize
      match faultIn ok m va0 with
      | none => (m, none)
      | some m1 => match m1.pages (va0 / pgSize) with
        | none => (m1, none)
        | some pg =>
          let n := min (pgSize - (srcva - va0)) len
          let here := (List.range n).map fun b => pg.bytes (srcva - va0 + b)
          let rest := copyinLoop ok fuel m1 (va0 + pgSize) (len - n)
          (rest.1, rest.2.map fun bs => here ++ bs)

def copyin (ok : Nat → Bool) (m : AddrSpace) (srcva len : Nat) : AddrSpace × Option (List UInt8) :=
  copyinLoop ok len m srcva len

/-- The child's memory after a successful `uvmcopy` and `np->sz = p->sz`. -/
def uvmcopy : AddrSpace :=
  { m with pages := fun v => if v * pgSize < m.sz then m.pages v else none }

/-! ## What a successful copyout leaves behind -/

@[simp] theorem put_pages (v u : Nat) (pg : Page) :
    (m.put v pg).pages u = if u = v then some pg else m.pages u := rfl

/-- `m'` has the byte of `m` at `a`, or a zero byte where a page below the size was freshly
mapped. -/
structure Extends (m m' : AddrSpace) (a : Nat) : Prop where
  size : m'.sz = m.sz
  byte : m'.read a = m.read a ∨ (m.read a = none ∧ m'.read a = some 0 ∧ a / pgSize * pgSize < m.sz)

theorem Extends.refl (a : Nat) : Extends m m a := ⟨rfl, .inl rfl⟩

theorem Extends.trans {m1 m2 m3 a} (h1 : Extends m1 m2 a) (h2 : Extends m2 m3 a) :
    Extends m1 m3 a := by
  refine ⟨h2.size.trans h1.size, ?_⟩
  rcases h1.byte with same | ⟨none, zero, low⟩ <;> rcases h2.byte with same' | ⟨none', zero', low'⟩
  · exact .inl (same'.trans same)
  · exact .inr ⟨same ▸ none', zero', h1.size ▸ low'⟩
  · exact .inr ⟨none, same'.trans zero, low⟩
  · rw [zero] at none'
    cases none'

variable {ok : Nat → Bool} {m m' : AddrSpace} {va srcva len : Nat}

theorem vmfault_extends (h : vmfault ok m va = some m') (a : Nat) : Extends m m' a := by
  unfold vmfault at h
  split at h
  · cases h
  rename_i hlow
  split at h
  · cases h
  rename_i hnone
  split at h
  · cases h
    simp only [Option.not_isSome_iff_eq_none] at hnone
    refine ⟨rfl, ?_⟩
    unfold AddrSpace.read
    by_cases ha : a / pgSize = va / pgSize
    · have low : va / pgSize * pgSize < m.sz :=
        lt_of_le_of_lt (Nat.div_mul_le_self ..) (not_le.1 hlow)
      right; simp [ha, hnone, zeroPage, low]
    · left; simp [ha]
  · cases h

theorem faultIn_extends {va0} (h : faultIn ok m va0 = some m') (a : Nat) : Extends m m' a := by
  unfold faultIn at h
  split at h
  · obtain rfl := Option.some.inj h; exact .refl _ _
  · exact vmfault_extends h a

/-- Writing inside one page: the range gets `bs`, the rest stays. -/
theorem read_put_write {v pg} (off : Nat) (bs : List UInt8)
    (hpg : m.pages v = some pg) (hfit : off + bs.length ≤ pgSize) (a : Nat) :
    (m.put v (pg.write off bs)).read a =
      if v * pgSize + off ≤ a ∧ a < v * pgSize + off + bs.length then
        some (bs.getD (a - (v * pgSize + off)) 0) else m.read a := by
  have hpos : 0 < pgSize := by decide
  have hdiv : a = a / pgSize * pgSize + a % pgSize := (Nat.div_add_mod' a pgSize).symm
  unfold AddrSpace.read
  by_cases hv : a / pgSize = v
  · simp only [put_pages, hv, if_true, Option.map_some, Page.write, hpg]
    rw [hv] at hdiv
    by_cases hin : off ≤ a % pgSize ∧ a % pgSize < off + bs.length
    · rw [if_pos hin, if_pos (by omega)]
      congr 2; omega
    · rw [if_neg hin, if_neg (by omega)]
  · rw [if_neg]
    · simp [hv]
    · rintro ⟨h1, h2⟩
      apply hv
      rw [Nat.div_eq_iff hpos]
      omega

theorem copyinLoop_sz {fuel} : (copyinLoop ok fuel m srcva len).1.sz = m.sz := by
  induction fuel generalizing m srcva len with
  | zero => rfl
  | succ fuel ih =>
    unfold copyinLoop
    split
    · rfl
    · dsimp only
      split
      · rfl
      · rename_i m1 found
        split
        · exact (faultIn_extends found 0).size
        · exact ih.trans (faultIn_extends found 0).size

/-! ## What a successful copyin returns -/

/-- The bytes of one page are read where they lie. -/
theorem read_page {v pg} (off : Nat) (hpg : m.pages v = some pg)
    (hoff : off < pgSize) : m.read (v * pgSize + off) = some (pg.bytes off) := by
  have hpos : 0 < pgSize := by decide
  have hdiv : (v * pgSize + off) / pgSize = v := by
    rw [mul_comm, Nat.mul_add_div hpos, Nat.div_eq_of_lt hoff, add_zero]
  have hmod : (v * pgSize + off) % pgSize = off := by
    rw [mul_comm, Nat.mul_add_mod, Nat.mod_eq_of_lt hoff]
  unfold AddrSpace.read
  rw [hdiv, hmod, hpg]
  rfl

theorem Extends.some {a b} (h : Extends m m' a) (hb : m.read a = some b) : m'.read a = some b := by
  rcases h.byte with h | ⟨h, -⟩
  · rw [h, hb]
  · rw [h] at hb; cases hb

/-- A `copyin` that returns 0 yields all the bytes asked for, those at `[srcva, srcva + len)`, and
memory stays, up to pages mapped on the way. -/
theorem copyinLoop_spec {fuel bs} (h : copyinLoop ok fuel m srcva len = (m', some bs)) :
    bs.length = len ∧ (∀ b, b < len → m'.read (srcva + b) = some (bs.getD b 0)) ∧
      ∀ a, Extends m m' a := by
  induction fuel generalizing m srcva len bs with
  | zero =>
    simp only [copyinLoop, Prod.mk.injEq] at h
    obtain ⟨rfl, h⟩ := h
    split at h
    · cases h
      exact ⟨Eq.symm ‹_›, fun b hb => by omega, .refl _⟩
    · cases h
  | succ fuel ih =>
    simp only [copyinLoop] at h
    split at h
    · cases h
      exact ⟨Eq.symm ‹_›, fun b hb => by omega, .refl _⟩
    split at h
    · cases h
    rename_i m1 hf
    split at h
    · cases h
    rename_i pg hpg
    have hpos : 0 < pgSize := by decide
    have hle : srcva / pgSize * pgSize ≤ srcva := Nat.div_mul_le_self _ _
    have hlt : srcva < srcva / pgSize * pgSize + pgSize := Nat.lt_div_mul_add hpos
    rw [Nat.mul_div_cancel _ hpos] at hpg
    simp only [Prod.mk.injEq, Option.map_eq_some_iff] at h
    obtain ⟨hm, bs', hbs, rfl⟩ := h
    obtain ⟨hlen, hrest, hframe⟩ := ih (Prod.ext hm hbs)
    generalize hn : min (pgSize - (srcva - srcva / pgSize * pgSize)) len = n at *
    refine ⟨?_, fun b hb => ?_, fun a => (faultIn_extends hf a).trans (hframe a)⟩
    · rw [length_append, length_map, length_range, hlen]
      omega
    by_cases hbn : b < n
    · -- this byte comes from the first page
      have hr := read_page (srcva - srcva / pgSize * pgSize + b) hpg (by omega)
      rw [show srcva / pgSize * pgSize + (srcva - srcva / pgSize * pgSize + b) = srcva + b by omega]
        at hr
      rw [(hframe _).some hr]
      simp [getD_eq_getElem?_getD, getElem?_append, hbn]
    · have hr := hrest (b - n) (by omega)
      rw [show srcva / pgSize * pgSize + pgSize + (b - n) = srcva + b by omega] at hr
      rw [hr]
      simp [getD_eq_getElem?_getD, getElem?_append, hbn]

theorem copyin_spec {bs} (h : copyin ok m srcva len = (m', some bs)) :
    bs.length = len ∧ (∀ b, b < len → m'.read (srcva + b) = some (bs.getD b 0)) ∧
      ∀ a, Extends m m' a :=
  copyinLoop_spec h

end OsProject.Xv6.Memory
