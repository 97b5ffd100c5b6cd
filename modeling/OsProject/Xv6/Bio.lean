import Mathlib.Algebra.Ring.Nat
import Mathlib.Data.List.Basic
import Mathlib.Data.List.Nodup
import Mathlib.Data.List.Perm.Subperm
import Mathlib.Data.Option.Basic
import Mathlib.Tactic.Common

/-! # The buffer cache

`bio.c` for the one disk the kernel has. The list `bcache.head` is a Lean list
with the most recently used buffer first; a buffer is named by the block it
holds, as no two buffers hold the same one (`Distinct`). What the cache does is
stated through `slot`, the buffer of a block: `bread` may in addition take the
buffer of another block that nobody refers to. -/
namespace OsProject.Xv6.Bio
open List
open Function (update update_of_ne update_self)

/-- `BSIZE` bytes, as words. -/
abbrev Block := Fin 256 → UInt32

structure Buf where
  /-- `dev` and `blockno`; none while `dev` is 0 after `binit` -/
  block : Option UInt32
  valid : Bool
  refcnt : Nat
  data : Block

def Buf.up (x : Buf) : Buf := { x with refcnt := x.refcnt + 1 }
def Buf.down (x : Buf) : Buf := { x with refcnt := x.refcnt - 1 }
def Buf.put (v : Block) (x : Buf) : Buf := { x with data := v }

/-- `bcache`, the most recently used buffer first. -/
abbrev Bcache := List Buf

def nbuf : Nat := 30

def binit : Bcache := List.replicate nbuf ⟨none, false, 0, fun _ => 0⟩

/-- A change to the buffer of a block. -/
def touch (b : UInt32) (f : Buf → Buf) (c : Bcache) : Bcache :=
  c.map fun x => if x.block = some b then f x else x

/-- `bget`'s second loop, over the list from its other end. -/
def recycle (b : UInt32) : List Buf → Option (List Buf)
  | [] => none
  | x :: c =>
    if x.refcnt = 0 then some ({ x with block := some b, valid := false, refcnt := 1 } :: c)
    else (recycle b c).map (x :: ·)

variable (c : Bcache)

/-- None is the panic "bget: no buffers". -/
def bget (b : UInt32) : Option Bcache :=
  if c.any fun x => x.block = some b then
    some (touch b Buf.up c)
  else (recycle b c.reverse).map List.reverse

def fill (disk : UInt32 → Block) (b : UInt32) (x : Buf) : Buf :=
  if x.valid then x else { x with valid := true, data := disk b }

def bread (disk : UInt32 → Block) (b : UInt32) : Option Bcache :=
  (bget c b).map (touch b (fill disk b))

/-- The buffer of a block. -/
def slot (b : UInt32) : Option Buf := c.find? fun x => x.block = some b

/-- A buffer that nobody refers to any more goes to the front. -/
def brelse (b : UInt32) : Bcache :=
  let c := touch b Buf.down c
  match slot c b with
  | some x => if x.refcnt = 0 then x :: c.filter fun y => y.block ≠ some b else c
  | none => c

def bpin (b : UInt32) : Bcache := touch b Buf.up c

def bunpin (b : UInt32) : Bcache := touch b Buf.down c

/-- Stores into the data of a buffer. -/
def store (b : UInt32) (v : Block) : Bcache := touch b (Buf.put v) c

/-- What a `bread` of the block returns. -/
def view (disk : UInt32 → Block) (b : UInt32) : Block :=
  match slot c b with
  | some x => if x.valid then x.data else disk b
  | none => disk b

/-! ## One buffer a block -/

def Distinct : Prop := c.Pairwise fun x y => x.block = y.block → x.block = none

section slot
variable {c c' : Bcache} {a b : UInt32} {x y : Buf} {f : Buf → Buf} {disk : UInt32 → Block}

theorem slot_mem (h : slot c b = some x) : x ∈ c ∧ x.block = some b := by
  exact ⟨mem_of_find?_eq_some h, by simpa using find?_some h⟩

theorem slot_of_mem (u : Distinct c) (hx : x ∈ c) (hb : x.block = some b) : slot c b = some x := by
  induction c with
  | nil => cases hx
  | cons y c ih =>
    obtain ⟨first, rest⟩ := pairwise_cons.1 u
    rcases mem_cons.1 hx with rfl | hx
    · simp [slot, hb]
    · have ne : y.block ≠ some b := by
        intro hy
        have := first x hx (hy.trans hb.symm)
        rw [hy] at this
        cases this
      simpa [slot, ne] using ih rest hx

theorem slot_eq_none : slot c b = none ↔ ∀ x ∈ c, x.block ≠ some b := by
  simp [slot, find?_eq_none]

theorem slot_eq_some (u : Distinct c) : slot c b = some x ↔ x ∈ c ∧ x.block = some b :=
  ⟨slot_mem, fun h => slot_of_mem u h.1 h.2⟩

/-- The buffers of a block are those among the members. -/
theorem slot_congr (u : Distinct c) (u' : Distinct c')
    (h : ∀ x, x.block = some b → (x ∈ c ↔ x ∈ c')) : slot c b = slot c' b := by
  refine Option.ext fun x => ?_
  rw [slot_eq_some u, slot_eq_some u']
  exact and_congr_left fun hb => h x hb

section touch
variable (keep : ∀ x, (f x).block = x.block)
include keep

theorem touch_block (x : Buf) : (if x.block = some b then f x else x).block = x.block := by
  split
  · exact keep x
  · rfl

theorem touch_distinct (u : Distinct c) : Distinct (touch b f c) := by
  refine pairwise_map.2 (u.imp fun {x y} h => ?_)
  rw [touch_block keep, touch_block keep]
  exact h

theorem slot_touch : slot (touch b f c) a = if a = b then (slot c b).map f else slot c a := by
  induction c with
  | nil => simp [touch, slot]
  | cons x c ih =>
    simp only [slot, touch, map_cons, find?_cons, touch_block keep] at ih ⊢
    by_cases hx : x.block = some a
    · by_cases hab : a = b
      · subst hab
        simp [hx]
      · simp [hx, hab, Option.some.injEq]
    · by_cases hab : a = b
      · subst hab
        simpa [hx] using ih
      · simpa [hx, hab] using ih

omit keep in
theorem touch_length : (touch b f c).length = c.length := length_map ..

/-- A buffer of no block is not touched. -/
theorem touch_fresh (hx : x ∈ touch b f c) (no : x.block = none) : x ∈ c := by
  obtain ⟨y, hy, rfl⟩ := mem_map.1 hx
  rw [touch_block keep] at no
  simpa [no] using hy

end touch

theorem any_slot : (c.any fun x => x.block = some b) = (slot c b).isSome := by
  rw [slot, Bool.eq_iff_iff, find?_isSome, any_eq_true]

/-! ## Reading a block -/

/-- The references to a block's buffer. -/
def refcnt (c : Bcache) (b : UInt32) : Nat := (slot c b).elim 0 Buf.refcnt

/-- What a `bread` leads to: the block's buffer has a reference more, and the
buffer of one other block may be gone, if nobody referred to it. -/
structure Reads (c : Bcache) (disk : UInt32 → Block) (b : UInt32) (c' : Bcache) : Prop where
  distinct : Distinct c'
  length : c'.length = c.length
  fresh : ∀ x ∈ c', x.block = none → x ∈ c
  here : slot c' b = some ⟨some b, true, refcnt c b + 1, view c disk b⟩
  away : ∀ a, a ≠ b → slot c' a = slot c a ∨
    ∃ x, slot c a = some x ∧ x.refcnt = 0 ∧ slot c' a = none

/-- The unused buffer that was found, between those around it. -/
theorem recycle_parts (h : recycle b c = some c') : ∃ pre x post, c = pre ++ x :: post ∧
    x.refcnt = 0 ∧ c' = pre ++ { x with block := some b, valid := false, refcnt := 1 } :: post := by
  induction c generalizing c' with
  | nil => cases h
  | cons x c ih =>
    simp only [recycle] at h
    split at h
    · rename_i free
      exact ⟨[], x, c, rfl, free, (Option.some.inj h).symm⟩
    · obtain ⟨c1, h1, rfl⟩ := Option.map_eq_some_iff.1 h
      obtain ⟨pre, y, post, rfl, free, rfl⟩ := ih h1
      exact ⟨x :: pre, y, post, rfl, free, rfl⟩

theorem recycle_isSome : (recycle b c).isSome = c.any fun x => x.refcnt = 0 := by
  induction c with
  | nil => rfl
  | cons x c ih =>
    simp only [recycle, any_cons]
    split
    · simp [*]
    · simp [*]

/-- A buffer in the middle is replaced by one for a block that had none. -/
theorem replace_reads (x' : Buf) {pre post : List Buf} (u : Distinct (pre ++ x :: post))
    (absent : slot (pre ++ x :: post) b = none) (hx' : x'.block = some b) :
    Distinct (pre ++ x' :: post) ∧ slot (pre ++ x' :: post) b = some x' ∧
    ∀ a, a ≠ b → slot (pre ++ x' :: post) a = slot (pre ++ x :: post) a ∨
      (slot (pre ++ x :: post) a = some x ∧ slot (pre ++ x' :: post) a = none) := by
  rw [slot_eq_none] at absent
  have u' : Distinct (pre ++ x' :: post) := by
    unfold Distinct at u ⊢
    rw [pairwise_append, pairwise_cons] at u ⊢
    obtain ⟨hpre, ⟨-, hpost⟩, cross⟩ := u
    refine ⟨hpre, ⟨fun y hy eq => ?_, hpost⟩, fun y hy z hz eq => ?_⟩
    · exact absurd (eq.symm.trans hx') (absent y (by simp [hy]))
    · rcases mem_cons.1 hz with rfl | hz
      · exact absurd (eq.trans hx') (absent y (by simp [hy]))
      · exact cross y hy z (by simp [hz]) eq
  refine ⟨u', slot_of_mem u' (by simp) hx', fun a ne => ?_⟩
  have not_x' : ∀ {y : Buf}, y.block = some a → y ≠ x' := by
    rintro y hy rfl
    exact ne (Option.some.inj (hy.symm.trans hx'))
  by_cases own : x.block = some a
  · have gone := slot_of_mem u (by simp) own
    refine .inr ⟨gone, slot_eq_none.2 fun y hy hya => ?_⟩
    -- another buffer of the block would have been there before
    rcases mem_append.1 hy with hy | hy
    · have twice := slot_of_mem u (mem_append_left _ hy) hya
      cases gone.symm.trans twice
      have := (pairwise_append.1 u).2.2 _ hy _ mem_cons_self rfl
      rw [own] at this
      cases this
    · rcases mem_cons.1 hy with rfl | hy
      · exact not_x' hya rfl
      · have := (pairwise_cons.1 (pairwise_append.1 u).2.1).1 y hy (own.trans hya.symm)
        rw [own] at this
        cases this
  · refine .inl (slot_congr u' u fun y hy => ?_)
    have not_x : y ≠ x := by rintro rfl; exact own hy
    simp [not_x' hy, not_x]

theorem fill_block (x : Buf) : (fill disk b x).block = x.block := by
  unfold fill
  split <;> rfl

theorem bread_reads (u : Distinct c) (h : bread c disk b = some c') : Reads c disk b c' := by
  obtain ⟨c1, get, rfl⟩ := Option.map_eq_some_iff.1 h
  unfold bget at get
  rw [any_slot] at get
  split at get
  · -- cached
    rename_i cached
    cases get
    obtain ⟨x, hx⟩ := Option.isSome_iff_exists.1 cached
    have blk := (slot_mem hx).2
    refine ⟨touch_distinct fill_block (touch_distinct (fun _ => rfl) u), ?_, fun y hy no => ?_, ?_,
      fun a ne => .inl ?_⟩
    · rw [touch_length, touch_length]
    · exact touch_fresh (f := Buf.up) (fun _ => rfl) (touch_fresh fill_block hy no) no
    · rw [slot_touch fill_block, if_pos rfl, slot_touch (f := Buf.up) (fun _ => rfl),
        if_pos rfl, hx]
      simp only [Option.map_some, refcnt, view, hx, Option.elim_some, fill, Buf.up]
      split <;> simp_all
    · rw [slot_touch fill_block, if_neg ne, slot_touch (f := Buf.up) (fun _ => rfl), if_neg ne]
  · -- the least recently used buffer without a reference
    rename_i absent
    rw [Bool.not_eq_true, Option.isSome_eq_false_iff, Option.isNone_iff_eq_none] at absent
    obtain ⟨c2, rec, rfl⟩ := Option.map_eq_some_iff.1 get
    obtain ⟨pre, x, post, parts, free, rfl⟩ := recycle_parts rec
    obtain rfl : c = post.reverse ++ x :: pre.reverse := by
      rw [← reverse_reverse c, parts]
      simp
    obtain ⟨u', new, away⟩ := replace_reads (b := b)
      { x with block := some b, valid := false, refcnt := 1 } u absent rfl
    simp only [reverse_append, reverse_cons, append_assoc, singleton_append]
    refine ⟨touch_distinct fill_block u', ?_, fun y hy no => ?_, ?_, fun a ne => ?_⟩
    · simp [touch_length]
    · have old := touch_fresh fill_block hy no
      simp only [mem_append, mem_cons] at old ⊢
      rcases old with old | rfl | old
      · exact .inl old
      · cases no
      · exact .inr (.inr old)
    · rw [slot_touch fill_block, if_pos rfl, new]
      simp [refcnt, view, absent, fill]
    · rw [slot_touch fill_block, if_neg ne]
      exact (away a ne).imp_right fun gone => ⟨x, gone.1, free, gone.2⟩

/-- When `bget` panics. -/
theorem bread_isSome : (bread c disk b).isSome = true ↔
    (slot c b).isSome = true ∨ ∃ x ∈ c, x.refcnt = 0 := by
  unfold bread bget
  rw [Option.isSome_map, any_slot]
  split
  · simp [*]
  · rw [Option.isSome_map, recycle_isSome]
    simp [*]

/-! ## Releasing a buffer -/

theorem front_distinct (u : Distinct c) (hx : slot c b = some x) :
    Distinct (x :: c.filter fun y => y.block ≠ some b) := by
  refine pairwise_cons.2 ⟨fun y hy eq => ?_, u.filter _⟩
  have out := (mem_filter.1 hy).2
  rw [← eq, (slot_mem hx).2] at out
  simp at out

theorem front_length (u : Distinct c) (hx : slot c b = some x) :
    (x :: c.filter fun y => y.block ≠ some b).length = c.length := by
  induction c with
  | nil => cases hx
  | cons y c ih =>
    obtain ⟨first, rest⟩ := pairwise_cons.1 u
    by_cases hy : y.block = some b
    · have none_later : ∀ z ∈ c, z.block ≠ some b := by
        intro z hz hzb
        have := first z hz (hy.trans hzb.symm)
        rw [hy] at this
        cases this
      have all : (c.filter fun z => z.block ≠ some b) = c :=
        filter_eq_self.2 fun z hz => by simpa using none_later z hz
      simp only [filter_cons, hy, ne_eq, not_true, decide_false, Bool.false_eq_true, if_false, all,
        length_cons]
    · have hx' : slot c b = some x := by simpa [slot, hy] using hx
      have := ih rest hx'
      simp [hy] at this ⊢
      omega

/-- What a `brelse` leads to. -/
theorem brelse_releases (u : Distinct c) : Distinct (brelse c b) ∧ (brelse c b).length = c.length ∧
    (∀ x ∈ brelse c b, x.block = none → x ∈ c) ∧
    ∀ a, slot (brelse c b) a = if a = b then (slot c b).map Buf.down else slot c a := by
  have u1 := touch_distinct (f := Buf.down) (b := b) (fun _ => rfl) u
  have slots : ∀ a, slot (touch b Buf.down c) a = _ := fun a => slot_touch fun _ => rfl
  have fresh : ∀ x ∈ touch b Buf.down c, x.block = none → x ∈ c := fun x =>
    touch_fresh (f := Buf.down) fun _ => rfl
  unfold brelse
  dsimp only
  split
  · rename_i x hx
    split
    · have u2 := front_distinct u1 hx
      refine ⟨u2, (front_length u1 hx).trans touch_length, fun y hy no => ?_, fun a => ?_⟩
      · rcases mem_cons.1 hy with rfl | hy
        · rw [(slot_mem hx).2] at no
          cases no
        · exact fresh y (mem_filter.1 hy).1 no
      rw [← slots a]
      by_cases hab : a = b
      · subst hab
        rw [hx]
        exact slot_of_mem u2 mem_cons_self (slot_mem hx).2
      · refine slot_congr u2 u1 fun y hy => ?_
        have ne : y.block ≠ some b := by rw [hy]; simpa using hab
        have not_x : y ≠ x := by rintro rfl; exact ne (slot_mem hx).2
        simp [not_x, ne]
    · exact ⟨u1, touch_length, fresh, slots⟩
  · exact ⟨u1, touch_length, fresh, slots⟩

end slot

/-! ## The cache over its disk -/

structure Dev where
  cache : Bcache
  disk : UInt32 → Block

namespace Dev

def bread (d : Dev) (b : UInt32) : Option Dev :=
  (Bio.bread d.cache d.disk b).map fun c => { d with cache := c }

/-- The contents of a block's buffer. -/
def data (d : Dev) (b : UInt32) : Block := view d.cache d.disk b

def store (d : Dev) (b : UInt32) (v : Block) : Dev := { d with cache := Bio.store d.cache b v }

def bwrite (d : Dev) (b : UInt32) : Dev := { d with disk := update d.disk b (d.data b) }

def brelse (d : Dev) (b : UInt32) : Dev := { d with cache := Bio.brelse d.cache b }
def bpin (d : Dev) (b : UInt32) : Dev := { d with cache := Bio.bpin d.cache b }
def bunpin (d : Dev) (b : UInt32) : Dev := { d with cache := Bio.bunpin d.cache b }

end Dev

/-- The cache stands for the contents `want`, with `ref b` references to the
buffer of `b`: a buffer in use is valid, and the disk has what no buffer in use
has. -/
structure Coherent (d : Dev) (want : UInt32 → Block) (ref : UInt32 → Nat) : Prop where
  distinct : Distinct d.cache
  length : d.cache.length = nbuf
  fresh : ∀ x ∈ d.cache, x.block = none → x.refcnt = 0
  cached : ∀ b x, slot d.cache b = some x → x.refcnt = ref b ∧ (x.valid = true → x.data = want b)
  held : ∀ b, ref b ≠ 0 → ∃ x, slot d.cache b = some x ∧ x.valid = true
  clean : ∀ b, ref b = 0 → d.disk b = want b

/-- One more reference, and one less. -/
def more (ref : UInt32 → Nat) (b : UInt32) : UInt32 → Nat := update ref b (ref b + 1)
def less (ref : UInt32 → Nat) (b : UInt32) : UInt32 → Nat := update ref b (ref b - 1)

namespace Coherent
variable {d d' : Dev} {want : UInt32 → Block} {ref : UInt32 → Nat} {b : UInt32} {v : Block}

theorem binit (disk : UInt32 → Block) : Coherent ⟨binit, disk⟩ disk fun _ => 0 where
  distinct := pairwise_replicate.2 (.inr fun _ => rfl)
  length := length_replicate
  fresh x hx _ := by rw [eq_of_mem_replicate hx]
  cached b x hx := by
    have := slot_mem hx
    rw [eq_of_mem_replicate this.1] at this
    cases this.2
  held _ h := absurd rfl h
  clean _ _ := rfl

variable (h : Coherent d want ref)
include h

theorem data_eq (b : UInt32) : d.data b = want b := by
  unfold Dev.data view
  split
  · rename_i x hx
    obtain ⟨cnt, eq⟩ := h.cached b x hx
    split
    · exact eq ‹_›
    · rename_i invalid
      refine h.clean b (by_contra fun ne => ?_)
      obtain ⟨y, hy, valid⟩ := h.held b ne
      cases hx.symm.trans hy
      exact invalid valid
  · rename_i absent
    refine h.clean b (by_contra fun ne => ?_)
    obtain ⟨y, hy, -⟩ := h.held b ne
    rw [absent] at hy
    cases hy

theorem refcnt_eq (b : UInt32) : refcnt d.cache b = ref b := by
  unfold refcnt
  cases hx : slot d.cache b with
  | some x => exact (h.cached b x hx).1
  | none =>
    by_contra ne
    obtain ⟨y, hy, -⟩ := h.held b (Ne.symm ne)
    rw [hx] at hy
    cases hy

theorem bread (hr : d.bread b = some d') : Coherent d' want (more ref b) ∧ d'.disk = d.disk := by
  obtain ⟨c, hc, rfl⟩ := Option.map_eq_some_iff.1 hr
  have reads := bread_reads h.distinct hc
  have here := reads.here
  rw [h.refcnt_eq, show view d.cache d.disk b = want b from h.data_eq b] at here
  refine ⟨⟨reads.distinct, reads.length.trans h.length,
    fun x hx no => h.fresh x (reads.fresh x hx no) no, fun a x hx => ?_, fun a ne => ?_,
    fun a zero => ?_⟩, rfl⟩
  · by_cases hab : a = b
    · subst hab
      cases here.symm.trans hx
      exact ⟨by simp [more], fun _ => rfl⟩
    · rw [more, update_of_ne hab]
      rcases reads.away a hab with same | ⟨y, -, -, gone⟩
      · exact h.cached a x (same.symm.trans hx)
      · rw [gone] at hx
        cases hx
  · by_cases hab : a = b
    · subst hab
      exact ⟨_, here, rfl⟩
    · rw [more, update_of_ne hab] at ne
      obtain ⟨x, hx, valid⟩ := h.held a ne
      rcases reads.away a hab with same | ⟨y, hy, zero, -⟩
      · exact ⟨x, same.trans hx, valid⟩
      · exact absurd ((h.cached a y hy).1.symm.trans zero) ne
  · by_cases hab : a = b
    · subst hab
      rw [more, update_self] at zero
      cases zero
    · rw [more, update_of_ne hab] at zero
      exact h.clean a zero

/-- A change to the buffer of a block that is in use. -/
theorem touch {f : Buf → Buf} {want' : UInt32 → Block} {ref' : UInt32 → Nat}
    (keep : ∀ x, (f x).block = x.block) (valid : ∀ x, (f x).valid = x.valid)
    (here : ∀ x, x.refcnt = ref b → (x.valid = true → x.data = want b) →
      (f x).refcnt = ref' b ∧ ((f x).valid = true → (f x).data = want' b))
    (used : ref b ≠ 0) (clean : ref' b = 0 → d.disk b = want' b)
    (away : ∀ a, a ≠ b → want' a = want a ∧ ref' a = ref a) :
    Coherent { d with cache := Bio.touch b f d.cache } want' ref' := by
  obtain ⟨y, hy, yvalid⟩ := h.held b used
  refine ⟨touch_distinct keep h.distinct, touch_length.trans h.length,
    fun x hx no => h.fresh x (touch_fresh keep hx no) no, fun a x hx => ?_, fun a ne => ?_,
    fun a zero => ?_⟩
  · rw [slot_touch keep] at hx
    by_cases hab : a = b
    · subst hab
      rw [if_pos rfl, hy] at hx
      cases hx
      exact here y (h.cached a y hy).1 (h.cached a y hy).2
    · rw [if_neg hab] at hx
      rw [(away a hab).1, (away a hab).2]
      exact h.cached a x hx
  · by_cases hab : a = b
    · subst hab
      exact ⟨f y, by rw [slot_touch keep, if_pos rfl, hy]; rfl, (valid y).trans yvalid⟩
    · rw [(away a hab).2] at ne
      obtain ⟨x, hx, xvalid⟩ := h.held a ne
      exact ⟨x, by rw [slot_touch keep, if_neg hab]; exact hx, xvalid⟩
  · by_cases hab : a = b
    · subst hab
      exact clean zero
    · rw [(away a hab).1]
      exact h.clean a ((away a hab).2 ▸ zero)

theorem bpin (used : ref b ≠ 0) : Coherent (d.bpin b) want (more ref b) := by
  refine h.touch (fun _ => rfl) (fun _ => rfl) (fun x cnt data => ⟨?_, data⟩) used (fun zero => ?_)
    fun a ne => ⟨rfl, update_of_ne ne ..⟩
  · simp [more, Buf.up, cnt]
  · simp [more] at zero

theorem bunpin (used : ref b ≠ 0)
    (clean : ref b = 1 → d.disk b = want b) : Coherent (d.bunpin b) want (less ref b) := by
  refine h.touch (fun _ => rfl) (fun _ => rfl) (fun x cnt data => ⟨?_, data⟩) used (fun zero => ?_)
    fun a ne => ⟨rfl, update_of_ne ne ..⟩
  · simp [less, Buf.down, cnt]
  · simp only [less, update_self] at zero
    exact clean (by omega)

/-- `brelse` is `bunpin` and a change of the order. -/
theorem brelse (used : ref b ≠ 0)
    (clean : ref b = 1 → d.disk b = want b) : Coherent (d.brelse b) want (less ref b) := by
  obtain ⟨distinct, length, fresh, slots⟩ := brelse_releases (b := b) h.distinct
  have same : ∀ a, slot (d.brelse b).cache a = slot (d.bunpin b).cache a := fun a =>
    (slots a).trans (slot_touch (f := Buf.down) fun _ => rfl).symm
  have unpinned := h.bunpin used clean
  exact ⟨distinct, length.trans h.length, fun x hx no => h.fresh x (fresh x hx no) no,
    fun a x hx => unpinned.cached a x (by rw [← same]; exact hx),
    fun a ne => by rw [same]; exact unpinned.held a ne, unpinned.clean⟩

theorem store (used : ref b ≠ 0) : Coherent (d.store b v) (update want b v) ref :=
  h.touch (fun _ => rfl) (fun _ => rfl) (fun _ cnt _ => ⟨cnt, fun _ => by simp [Buf.put]⟩) used
    (fun zero => absurd zero used) fun _ ne => ⟨update_of_ne ne .., rfl⟩

theorem bwrite (used : ref b ≠ 0) : Coherent (d.bwrite b) want ref := by
  refine ⟨h.distinct, h.length, h.fresh, h.cached, h.held, fun a zero => ?_⟩
  have ne : a ≠ b := by rintro rfl; exact used zero
  exact (update_of_ne ne ..).trans (h.clean a zero)

theorem disk_bwrite : (d.bwrite b).disk = update d.disk b (want b) := by
  rw [← h.data_eq b]
  rfl

/-- A buffer in use holds a block with references. -/
theorem in_use {x : Buf} (hx : x ∈ d.cache) (used : x.refcnt ≠ 0) :
    ∃ b, x.block = some b ∧ ref b = x.refcnt := by
  cases hb : x.block with
  | none => exact absurd (h.fresh x hx hb) used
  | some b => exact ⟨b, rfl, (h.cached b x (slot_of_mem h.distinct hx hb)).1.symm⟩

/-- With fewer blocks in use than buffers, `bread` finds one. -/
theorem bread_isSome {used : List UInt32}
    (sub : ∀ b, ref b ≠ 0 → b ∈ used) (lt : used.length < nbuf) (b : UInt32) :
    (d.bread b).isSome = true := by
  rw [Dev.bread, Option.isSome_map, Bio.bread_isSome]
  refine .inr (by_contra fun all => ?_)
  have busy : ∀ x ∈ d.cache, x.refcnt ≠ 0 := fun x hx zero => all ⟨x, hx, zero⟩
  have nodup : (d.cache.map Buf.block).Nodup := by
    refine pairwise_map.2 (h.distinct.imp_of_mem fun {x y} hx _ imp eq => ?_)
    obtain ⟨b, hb, -⟩ := h.in_use hx (busy x hx)
    rw [imp eq] at hb
    cases hb
  have into : d.cache.map Buf.block ⊆ used.map some := by
    intro o ho
    obtain ⟨x, hx, rfl⟩ := mem_map.1 ho
    obtain ⟨b, hb, cnt⟩ := h.in_use hx (busy x hx)
    rw [hb]
    exact mem_map_of_mem (sub b (cnt ▸ busy x hx))
  have := (List.Nodup.subperm nodup into).length_le
  rw [length_map, length_map, h.length] at this
  omega

/-- The buffer of a block in use is there. -/
theorem bread_isSome_of_used (used : ref b ≠ 0) : (d.bread b).isSome = true := by
  rw [Dev.bread, Option.isSome_map, Bio.bread_isSome]
  obtain ⟨x, hx, -⟩ := h.held b used
  exact .inl (by rw [hx]; rfl)

/-- When every buffer is in use, no other block can be read. -/
theorem bread_eq_none {used : List UInt32} (nodup : used.Nodup)
    (all : ∀ b ∈ used, ref b ≠ 0) (full : used.length = nbuf) (out : ref b = 0) :
    d.bread b = none := by
  have into : used.map some ⊆ (d.cache.filter fun x => x.refcnt ≠ 0).map Buf.block := by
    intro o ho
    obtain ⟨a, ha, rfl⟩ := mem_map.1 ho
    obtain ⟨x, hx, -⟩ := h.held a (all a ha)
    refine mem_map.2 ⟨x, mem_filter.2 ⟨(slot_mem hx).1, ?_⟩, (slot_mem hx).2⟩
    simpa [(h.cached a x hx).1] using all a ha
  have count := (List.Nodup.subperm (nodup.map (Option.some_injective _)) into).length_le
  rw [length_map, length_map, full, ← h.length] at count
  have busy : ∀ x ∈ d.cache, x.refcnt ≠ 0 := by
    have eq := le_antisymm (length_filter_le ..) count
    rw [length_filter_eq_length_iff] at eq
    exact fun x hx => by simpa using eq x hx
  rw [← Option.not_isSome_iff_eq_none, Dev.bread, Option.isSome_map, Bio.bread_isSome]
  rintro (cached | ⟨x, hx, zero⟩)
  · obtain ⟨x, hx⟩ := Option.isSome_iff_exists.1 cached
    exact busy x (slot_mem hx).1 ((h.cached b x hx).1.trans out)
  · exact busy x hx zero

end Coherent

end OsProject.Xv6.Bio
