import OsProject.Lib.Redo
import OsProject.Lib.Transition
import OsProject.Xv6.Bio

/-! # The log

`log.c` over the buffer cache. Any number of operations run between `begin_op`
and `end_op`, hold buffers and log blocks; the one that ends last commits. A
step of a commit or of a recovery makes at most one disk write, and the machine
may crash before every step. The disk as a redo log says what a crash leaves
(`Lib.Redo`): only the write of a header with blocks in it changes what the
disk stands for. -/
namespace OsProject.Xv6.Log
open Lib.Transition Lib.Redo Bio List Option
open Function (update update_of_ne update_self update_eq_self)
open Option (ite_none_right_eq_some)

def maxOpBlocks : Nat := 10
def logBlocks : Nat := maxOpBlocks * 3

/-- Where the superblock puts the log: a header and `LOGBLOCKS` blocks behind it. -/
structure LogArea where
  start : UInt32
  fits : start.toNat + logBlocks < 2 ^ 32

variable (g : LogArea)

/-- `log.start+tail+1`. -/
def LogArea.block (tail : Nat) : UInt32 := g.start + UInt32.ofNat tail + 1

/-- The blocks outside the log. -/
def LogArea.home (b : UInt32) : Bool :=
  b.toNat < g.start.toNat ∨ g.start.toNat + logBlocks < b.toNat

/-! ## The header block -/

/-- `read_head`'s loop over the block's words. -/
def readHead (b : Block) : List UInt32 :=
  (List.range (b 0).toInt32.toInt.toNat).map fun i => if h : i + 1 < 256 then b ⟨i + 1, h⟩ else 0

/-- `write_head`'s stores into the buffer of the header. -/
def headBlock (lh : List UInt32) (old : Block) : Block := fun w =>
  if w.val = 0 then UInt32.ofNat lh.length
  else if h : w.val - 1 < lh.length then lh[w.val - 1] else old w

/-! ## The system -/

inductive Phase where
  | run
  /-- `write_log`, `write_head`, `install_trans`, the second `write_head` and the end of `end_op` -/
  | copy (tail : Nat) | head | install (tail : Nat) | clear | finish
  | off
  /-- `install_trans` and `write_head` in `recover_from_log` -/
  | recover (tail : Nat) | erase
  deriving DecidableEq

structure Sys where
  dev : Dev
  /-- `log.lh`, the first `n` entries -/
  lh : List UInt32
  outstanding : Nat
  phase : Phase
  /-- the operations between `begin_op` and `end_op`, with the blocks each has logged -/
  ops : Nat → Option (List UInt32)
  /-- the references to buffers that processes hold -/
  refs : List UInt32

inductive Ev where
  | begin (i : Nat)
  | hold (b : UInt32)
  | release (b : UInt32)
  /-- new contents for a buffer that is held, and `log_write` -/
  | write (i : Nat) (b : UInt32) (v : Block)
  /-- `end_op` while other operations are running -/
  | endOp (i : Nat)
  /-- `end_op` of the last operation, up to `commit` -/
  | close (i : Nat)
  | io
  /-- `end_op` returns after `commit` -/
  | returned
  | crash
  | boot
  | recovered

inductive Panic where
  | tooBig | outsideTrans

/-- `log_write` on the header in memory. -/
def logWrite (lh : List UInt32) (outstanding : Nat) (b : UInt32) : Except Panic (List UInt32) :=
  if logBlocks ≤ lh.length then .error .tooBig
  else if outstanding < 1 then .error .outsideTrans
  else if b ∈ lh then .ok lh
  else .ok (lh ++ [b])

/-- The body of `write_log`'s loop. -/
def copyBlock (d : Dev) (dst src : UInt32) : Option Dev := do
  let d ← d.bread dst
  let d ← d.bread src
  let d := (d.store dst (d.data src)).bwrite dst
  return (d.brelse src).brelse dst

/-- The body of `install_trans`'s loop. -/
def installBlock (recovering : Bool) (d : Dev) (src dst : UInt32) : Option Dev := do
  let d ← d.bread src
  let d ← d.bread dst
  let d := (d.store dst (d.data src)).bwrite dst
  let d := if recovering then d else d.bunpin dst
  return (d.brelse src).brelse dst

def writeHead (d : Dev) (lh : List UInt32) : Option Dev := do
  let d ← d.bread g.start
  let d := (d.store g.start (headBlock lh (d.data g.start))).bwrite g.start
  return d.brelse g.start

/-- The next step of `commit` or `recover_from_log`; none where `bget` panics. -/
def ioStep (s : Sys) : Option Sys :=
  match s.phase with
  | .copy tail =>
    if h : tail < s.lh.length then
      (copyBlock s.dev (g.block tail) s.lh[tail]).map fun d =>
        { s with dev := d, phase := .copy (tail + 1) }
    else some { s with phase := .head }
  | .head => (writeHead g s.dev s.lh).map fun d => { s with dev := d, phase := .install 0 }
  | .install tail =>
    if h : tail < s.lh.length then
      (installBlock false s.dev (g.block tail) s.lh[tail]).map fun d =>
        { s with dev := d, phase := .install (tail + 1) }
    else some { s with lh := [], phase := .clear }
  | .clear => (writeHead g s.dev s.lh).map fun d => { s with dev := d, phase := .finish }
  | .recover tail =>
    if h : tail < s.lh.length then
      (installBlock true s.dev (g.block tail) s.lh[tail]).map fun d =>
        { s with dev := d, phase := .recover (tail + 1) }
    else some { s with lh := [], phase := .erase }
  | _ => none

/-- Processes run; recovery comes before the first of them. -/
def Phase.up : Phase → Bool
  | .off | .recover _ | .erase => false
  | _ => true

def logStep (s : Sys) : Ev → Option Sys
  | .begin i =>
    if s.phase = .run ∧ s.lh.length + (s.outstanding + 1) * maxOpBlocks ≤ logBlocks ∧
        s.ops i = none then
      some { s with outstanding := s.outstanding + 1, ops := update s.ops i (some []) }
    else none
  | .hold b =>
    if s.phase.up then
      (s.dev.bread b).map fun d => { s with dev := d, refs := b :: s.refs }
    else none
  | .release b =>
    if b ∈ s.refs then some { s with dev := s.dev.brelse b, refs := s.refs.erase b } else none
  | .write i b v =>
    match s.ops i, logWrite s.lh s.outstanding b with
    | some own, .ok lh =>
      if b ∈ s.refs ∧ g.home b then
        let d := s.dev.store b v
        some { s with
          dev := if b ∈ s.lh then d else d.bpin b
          lh := lh
          ops := update s.ops i (some (own.insert b)) }
      else none
    | _, _ => none
  | .endOp i =>
    if (s.ops i).isSome ∧ s.phase = .run ∧ s.outstanding ≠ 1 then
      some { s with outstanding := s.outstanding - 1, ops := update s.ops i none }
    else none
  | .close i =>
    if (s.ops i).isSome ∧ s.phase = .run ∧ s.outstanding = 1 then
      some { s with
        outstanding := 0
        ops := update s.ops i none
        phase := if s.lh = [] then .finish else .copy 0 }
    else none
  | .io => ioStep g s
  | .returned => if s.phase = .finish then some { s with phase := .run } else none
  | .crash => some ⟨⟨binit, s.dev.disk⟩, [], 0, .off, fun _ => none, []⟩
  | .boot =>
    if s.phase = .off then
      (s.dev.bread g.start).map fun d =>
        { s with
          dev := d.brelse g.start
          lh := readHead (d.data g.start)
          phase := .recover 0 }
    else none
  | .recovered =>
    if s.phase = .erase then
      (writeHead g s.dev s.lh).map fun d => { s with dev := d, phase := .run }
    else none

/-- The machine before it is switched on. -/
def powerOff (disk : UInt32 → Block) : Sys := ⟨⟨binit, disk⟩, [], 0, .off, fun _ => none, []⟩

/-- A log at block 2. -/
def sampleArea : LogArea := ⟨2, by decide⟩

/-! ## The disk as a redo log -/

section area
variable {g : LogArea} {i j : Nat} {b : UInt32} {v : Block} {disk : UInt32 → Block}

theorem block_toNat (hi : i < logBlocks) : (g.block i).toNat = g.start.toNat + i + 1 := by
  have fits := g.fits
  simp only [LogArea.block, UInt32.toNat_add, UInt32.toNat_ofNat', UInt32.reduceToNat]
  omega

theorem block_inj (hi : i < logBlocks) (hj : j < logBlocks) (eq : g.block i = g.block j) :
    i = j := by
  have := congrArg UInt32.toNat eq
  rw [block_toNat hi, block_toNat hj] at this
  omega

theorem home_block (hi : i < logBlocks) : g.home (g.block i) = false := by
  simp only [LogArea.home, block_toNat hi, decide_eq_false_iff_not]
  omega

theorem home_start : g.home g.start = false := by simp [LogArea.home]

theorem block_ne_start (hi : i < logBlocks) : g.block i ≠ g.start := by
  intro eq
  have := congrArg UInt32.toNat eq
  rw [block_toNat hi] at this
  omega

theorem home_ne_block (hb : g.home b = true) (hi : i < logBlocks) : b ≠ g.block i := by
  rintro rfl
  rw [home_block hi] at hb
  cases hb

theorem home_ne_start (hb : g.home b = true) : b ≠ g.start := by
  rintro rfl
  rw [home_start] at hb
  cases hb

theorem readHead_headBlock {lh} (h : lh.length ≤ logBlocks) : readHead (headBlock lh v) = lh := by
  simp only [logBlocks, maxOpBlocks] at h
  have small : ∀ n : Fin 31, (UInt32.ofNat n).toInt32.toInt.toNat = n := by decide
  have n : (headBlock lh v 0).toInt32.toInt.toNat = lh.length := small ⟨lh.length, by omega⟩
  refine ext_getElem (by simp [readHead, n]) fun i h1 h2 => ?_
  simp only [readHead, getElem_map, getElem_range, headBlock]
  rw [dif_pos (by omega)]
  simp [h2]

/-- The disk with the log area taken apart. -/
def LogArea.store (disk : UInt32 → Block) : Store UInt32 Block where
  data b := if g.home b then disk b else fun _ => 0
  log i := if i < logBlocks then disk (g.block i) else fun _ => 0
  head := readHead (disk g.start)

theorem store_data (hb : g.home b = true) :
    g.store (update disk b v) = (g.store disk).setData b v := by
  simp only [LogArea.store, Store.setData, Store.mk.injEq]
  refine ⟨funext fun a => ?_, funext fun i => ?_, ?_⟩
  · by_cases hab : a = b
    · subst hab
      simp [hb]
    · simp [update_of_ne hab]
  · split
    · rw [update_of_ne (home_ne_block hb ‹_›).symm]
    · rfl
  · rw [update_of_ne (home_ne_start hb).symm]

theorem store_log (hi : i < logBlocks) :
    g.store (update disk (g.block i) v) = (g.store disk).setLog i v := by
  simp only [LogArea.store, Store.setLog, Store.mk.injEq]
  refine ⟨funext fun a => ?_, funext fun j => ?_, ?_⟩
  · split
    · rw [update_of_ne (home_ne_block ‹_› hi)]
    · rfl
  · by_cases hj : j = i
    · subst hj
      simp [hi]
    · rw [update_of_ne hj]
      split
      · rw [update_of_ne fun eq => hj (block_inj ‹_› hi eq)]
      · rfl
  · rw [update_of_ne (block_ne_start hi).symm]

theorem store_head : g.store (update disk g.start v) = (g.store disk).setHead (readHead v) := by
  simp only [LogArea.store, Store.setHead, Store.mk.injEq]
  refine ⟨funext fun a => ?_, funext fun j => ?_, by simp⟩
  · split
    · rw [update_of_ne (home_ne_start ‹_›)]
    · rfl
  · split
    · rw [update_of_ne (block_ne_start ‹_›)]
    · rfl

end area

/-! ## The disk writes of `commit` and `recover_from_log` -/

section writes
variable {d d' : Dev} {want : UInt32 → Block} {ref : UInt32 → Nat} {src dst : UInt32}
  {g : LogArea} {lh : List UInt32}

variable {b : UInt32}

theorem less_more : less (more ref b) b = ref := by simp [less, more]

theorem more_less (used : ref b ≠ 0) : more (less ref b) b = ref := by
  simp [less, more, Nat.sub_add_cancel (Nat.pos_of_ne_zero used)]

theorem more_comm (ref : UInt32 → Nat) (a b : UInt32) :
    more (more ref a) b = more (more ref b) a := by
  funext x
  by_cases ha : x = a <;> by_cases hb : x = b <;> simp_all [more]

/-- The contents of one held buffer are stored into another one and written. -/
theorem store_bwrite (dst : UInt32) (v : Block) (h : Coherent d want ref) (used : ref dst ≠ 0) :
    Coherent ((d.store dst v).bwrite dst) (update want dst v) ref ∧
      ((d.store dst v).bwrite dst).disk = update d.disk dst v := by
  have stored := h.store (v := v) used
  refine ⟨stored.bwrite used, ?_⟩
  rw [stored.disk_bwrite, update_self]
  rfl

/-- Both loops: with the two buffers held, the contents of one go to the other
one and to the disk. -/
theorem transfer (src dst : UInt32) {d1 d2 a} (h : Coherent d want ref)
    (h1 : d.bread a = some d1) (h2 : d1.bread b = some d2) (used : more (more ref a) b dst ≠ 0) :
    Coherent ((d2.store dst (d2.data src)).bwrite dst) (update want dst (want src))
      (more (more ref a) b) ∧
    ((d2.store dst (d2.data src)).bwrite dst).disk = update d.disk dst (want src) := by
  obtain ⟨c1, disk1⟩ := h.bread h1
  obtain ⟨c2, disk2⟩ := c1.bread h2
  rw [c2.data_eq, ← disk1, ← disk2]
  exact store_bwrite dst _ c2 used

/-- Both buffers are released again. -/
theorem release_both (h : Coherent d want (more (more ref dst) src)) (ne : src ≠ dst)
    (clean : ref src = 0 → d.disk src = want src) (written : d.disk dst = want dst) :
    Coherent ((d.brelse src).brelse dst) want ref := by
  have one := h.brelse (b := src) (by simp [more]) fun one => clean (by simpa [more, ne] using one)
  rw [less_more] at one
  have both := one.brelse (b := dst) (by simp [more]) fun _ => written
  rwa [less_more] at both

theorem copyBlock_spec (h : Coherent d want ref) (ne : src ≠ dst)
    (hc : copyBlock d dst src = some d') : Coherent d' (update want dst (want src)) ref ∧
      d'.disk = update d.disk dst (want src) := by
  simp only [copyBlock, bind, bind_eq_some_iff, pure, Option.some.injEq] at hc
  obtain ⟨d1, h1, d2, h2, rfl⟩ := hc
  obtain ⟨c3, disk3⟩ := transfer src dst h h1 h2 (by simp [more, ne.symm])
  refine ⟨release_both c3 ne (fun zero => ?_) ((congrFun disk3 dst).trans (by simp)), disk3⟩
  rw [disk3, update_of_ne ne, update_of_ne ne]
  exact h.clean src zero

/-- An installed block is no longer pinned; recovery has pinned none. -/
theorem installBlock_spec {recovering} (h : Coherent d want ref) (ne : src ≠ dst)
    (pinned : recovering = false → ref dst ≠ 0) (hc : installBlock recovering d src dst = some d') :
    Coherent d' (update want dst (want src)) (if recovering then ref else less ref dst) ∧
      d'.disk = update d.disk dst (want src) := by
  simp only [installBlock, bind, bind_eq_some_iff, pure, Option.some.injEq] at hc
  obtain ⟨d1, h1, d2, h2, rfl⟩ := hc
  obtain ⟨c3, disk3⟩ := transfer src dst h h1 h2 (by simp [more])
  have clean : ref src = 0 →
      ((d2.store dst (d2.data src)).bwrite dst).disk src = update want dst (want src) src := by
    intro zero
    rw [disk3, update_of_ne ne, update_of_ne ne]
    exact h.clean src zero
  have written : ((d2.store dst (d2.data src)).bwrite dst).disk dst =
      update want dst (want src) dst := (congrFun disk3 dst).trans (by simp)
  cases recovering with
  | true =>
    rw [more_comm] at c3
    exact ⟨release_both c3 ne clean written, disk3⟩
  | false =>
    have c4 := c3.bunpin (b := dst) (by simp [more]) fun _ => written
    rw [less_more, ← more_less (pinned rfl)] at c4
    exact ⟨release_both c4 ne (fun zero => clean (by simpa [less, ne] using zero)) written, disk3⟩

theorem writeHead_spec (h : Coherent d want ref) (hc : writeHead g d lh = some d') :
    Coherent d' (update want g.start (headBlock lh (want g.start))) ref ∧
      d'.disk = update d.disk g.start (headBlock lh (want g.start)) := by
  simp only [writeHead, bind, bind_eq_some_iff, pure, Option.some.injEq] at hc
  obtain ⟨d1, h1, rfl⟩ := hc
  obtain ⟨c1, disk1⟩ := h.bread h1
  rw [c1.data_eq, ← disk1]
  obtain ⟨c2, disk2⟩ := store_bwrite g.start (headBlock lh (want g.start)) c1
    (by simp [more])
  have c3 := c2.brelse (b := g.start) (by simp [more]) fun _ =>
    (congrFun disk2 g.start).trans (by simp)
  rw [less_more] at c3
  exact ⟨c3, disk2⟩

end writes

/-! ## The invariant -/

/-- The blocks that `log_write` has pinned and `install_trans` has not yet unpinned. -/
def pinned (lh : List UInt32) : Phase → List UInt32
  | .run | .copy _ | .head => lh
  | .install tail => lh.drop tail
  | _ => []

/-- The references to a block's buffer: those of processes, and the pin. -/
def Sys.ref (s : Sys) (b : UInt32) : Nat :=
  s.refs.count b + if b ∈ pinned s.lh s.phase then 1 else 0

/-- A log that the kernel can have written. -/
structure Valid (g : LogArea) (lh : List UInt32) : Prop where
  nodup : lh.Nodup
  homes : ∀ b ∈ lh, g.home b = true
  room : lh.length ≤ logBlocks

/-- The first `n` log blocks hold the contents of the first `n` blocks in the header. -/
def Copied (disk : UInt32 → Block) (lh : List UInt32) (want : UInt32 → Block)
    (n : Nat) : Prop := ∀ i (h : i < lh.length), i < n → disk (g.block i) = want lh[i]

/-- The same contents of the home blocks. -/
def Agree (f f' : UInt32 → Block) : Prop := ∀ b, g.home b = true → f b = f' b

/-- What the disk is like in each phase. -/
def Stage (disk : UInt32 → Block) (lh : List UInt32) (want : UInt32 → Block) :
    Phase → Prop
  | .run => (g.store disk).head = []
  | .copy tail => (g.store disk).head = [] ∧ Copied g disk lh want tail
  | .head => (g.store disk).head = [] ∧ Copied g disk lh want lh.length
  | .install _ => (g.store disk).head = lh ∧ Copied g disk lh want lh.length ∧
      Agree g want (g.store disk).redo
  | .clear => lh = [] ∧ Agree g want (g.store disk).redo
  | .finish => lh = [] ∧ (g.store disk).head = []
  | .off => lh = []
  | .recover tail => lh = (g.store disk).head ∧
      ∀ b, g.home b = true → b ∉ lh.drop tail → disk b = (g.store disk).redo b
  | .erase => lh = [] ∧ Agree g disk (g.store disk).redo

/-- `want` is what the file system sees in the cache. It differs from the disk
only in pinned blocks. -/
structure Inv (g : LogArea) (s : Sys) (want : UInt32 → Block) : Prop where
  coherent : Coherent s.dev want s.ref
  settled : ∀ b, b ∉ pinned s.lh s.phase → s.dev.disk b = want b
  lh : Valid g s.lh
  head : Valid g (g.store s.dev.disk).head
  busy : s.phase ≠ .run → s.outstanding = 0
  stage : Stage g s.dev.disk s.lh want s.phase

theorem Valid.nil : Valid g [] := ⟨.nil, by simp, Nat.zero_le _⟩

section steps
variable {g : LogArea} {s s' : Sys} {want : UInt32 → Block} {b : UInt32}

theorem ref_eq (s : Sys) (lh : List UInt32) (phase : Phase)
    (same : pinned lh phase = pinned s.lh s.phase) :
    { s with phase := phase, lh := lh }.ref = s.ref := by
  funext b
  simp only [Sys.ref, same]

variable {d : Dev} {v : Block} {tail : Nat}

variable (inv : Inv g s want)
include inv

/-- A step of a process that changes neither the disk nor the header. -/
theorem Inv.of_disk {refs n ops} (disk : d.disk = s.dev.disk) (busy : s.phase ≠ .run → n = 0)
    (coherent : Coherent d want { s with dev := d, refs := refs }.ref) :
    Inv g { s with dev := d, refs := refs, outstanding := n, ops := ops } want where
  coherent := coherent
  settled b hb := by rw [disk]; exact inv.settled b hb
  lh := inv.lh
  head := by rw [disk]; exact inv.head
  busy := busy
  stage := by rw [disk]; exact inv.stage

/-- A step to another phase that leaves the buffers as they are. -/
theorem Inv.move {lh phase n ops} (same : pinned lh phase = pinned s.lh s.phase)
    (valid : Valid g lh) (busy : phase ≠ .run → n = 0) (stage : Stage g s.dev.disk lh want phase) :
    Inv g { s with outstanding := n, ops := ops, lh := lh, phase := phase } want where
  coherent := (ref_eq s lh phase same).symm ▸ inv.coherent
  settled b out := inv.settled b (same ▸ out)
  lh := valid
  head := inv.head
  busy := busy
  stage := stage

theorem hold_inv (h : s.dev.bread b = some d) :
    Inv g { s with dev := d, refs := b :: s.refs } want := by
  obtain ⟨coherent, disk⟩ := inv.coherent.bread h
  refine inv.of_disk disk inv.busy ?_
  convert coherent using 1
  funext a
  by_cases hab : a = b
  · subst hab
    simp [Sys.ref, more]
    omega
  · simp [Sys.ref, more, hab, count_cons_of_ne (Ne.symm hab)]

theorem release_inv (h : b ∈ s.refs) :
    Inv g { s with dev := s.dev.brelse b, refs := s.refs.erase b } want := by
  have pos := count_pos_iff.2 h
  refine inv.of_disk rfl inv.busy ?_
  convert inv.coherent.brelse (b := b) (by unfold Sys.ref; omega) fun one =>
    inv.settled b fun pin => ?_ using 1
  · funext a
    by_cases hab : a = b
    · subst hab
      simp only [Sys.ref, less, count_erase_self, update_self]
      omega
    · simp [Sys.ref, less, hab, count_erase_of_ne hab]
  · simp only [Sys.ref, pin, if_true] at one
    omega

/-- `log_write` of a block that is in the header already, and of a new one. -/
theorem write_inv {i} (run : s.phase = .run) (held : b ∈ s.refs)
    (home : g.home b = true) (room : s.lh.length < logBlocks) {own} : Inv g { s with
      dev := if b ∈ s.lh then s.dev.store b v else (s.dev.store b v).bpin b
      lh := if b ∈ s.lh then s.lh else s.lh ++ [b]
      ops := update s.ops i own } (update want b v) := by
  have used : s.ref b ≠ 0 := by
    have := count_pos_iff.2 held
    unfold Sys.ref
    omega
  have stored := inv.coherent.store (v := v) used
  have settled : ∀ a, a ∉ s.lh → a ≠ b → s.dev.disk a = update want b v a := by
    intro a out ne
    rw [update_of_ne ne]
    exact inv.settled a (by rw [run]; exact out)
  have clean := inv.stage
  rw [run] at clean
  by_cases hb : b ∈ s.lh
  · simp only [hb, if_true]
    refine ⟨stored, fun a out => ?_, inv.lh, inv.head, inv.busy, by rw [run]; exact clean⟩
    rw [run] at out
    exact settled a out fun eq => out (eq ▸ hb)
  · simp only [hb, if_false]
    refine ⟨?_, fun a out => ?_, ⟨?_, ?_, ?_⟩, inv.head, inv.busy, by rw [run]; exact clean⟩
    · convert stored.bpin used using 1
      funext a
      by_cases hab : a = b
      · subst hab
        simp [Sys.ref, more, pinned, run, hb]
      · simp [Sys.ref, more, pinned, run, hab]
    · rw [run] at out
      obtain ⟨out, ne⟩ := not_or.1 (mt mem_append.2 out)
      exact settled a out (by simpa using ne)
    · exact nodup_append.2 ⟨inv.lh.nodup, nodup_singleton b, by
        rintro x hx y hy rfl
        exact hb (mem_singleton.1 hy ▸ hx)⟩
    · intro a ha
      rcases mem_append.1 ha with ha | ha
      · exact inv.lh.homes a ha
      · exact mem_singleton.1 ha ▸ home
    · simp only [length_append, length_singleton]
      omega

theorem close_inv {ops} (run : s.phase = .run) : Inv g { s with
      outstanding := 0, ops := ops, phase := if s.lh = [] then .finish else .copy 0 } want := by
  have clean := inv.stage
  have same : pinned s.lh (if s.lh = [] then .finish else .copy 0) = pinned s.lh s.phase := by
    rw [run]
    split
    · rename_i nil
      rw [nil]
      rfl
    · rfl
  rw [run] at clean
  refine inv.move same inv.lh (fun _ => rfl) ?_
  split
  · exact ⟨‹_›, clean⟩
  · exact ⟨clean, fun i _ no => absurd no (Nat.not_lt_zero i)⟩

/-- The home block of the entry and its log block. -/
theorem Inv.entry (h : tail < s.lh.length) :
    tail < logBlocks ∧ g.home s.lh[tail] = true ∧ s.lh[tail] ≠ g.block tail :=
  have hi : tail < logBlocks := lt_of_lt_of_le h inv.lh.room
  have home := inv.lh.homes _ (getElem_mem h)
  ⟨hi, home, home_ne_block home hi⟩

/-- A log block or the header is written: the contents of the home blocks stay. -/
theorem Inv.log_update {phase lh a}
    (off : g.home a = false) (disk : d.disk = update s.dev.disk a v)
    (coherent : Coherent d (update want a v) { s with phase := phase, lh := lh }.ref)
    (pins : ∀ b, b ∉ pinned lh phase → g.home b = true → s.dev.disk b = want b)
    (valid : Valid g lh) (head : Valid g (g.store d.disk).head)
    (busy : phase ≠ .run → s.outstanding = 0) (stage : Stage g d.disk lh (update want a v) phase) :
    Inv g { s with dev := d, phase := phase, lh := lh } (update want a v) := by
  refine ⟨coherent, fun b out => ?_, valid, head, busy, stage⟩
  rw [disk]
  by_cases hba : b = a
  · subst hba
    simp
  · rw [update_of_ne hba, update_of_ne hba]
    cases home : g.home b with
    | true => exact pins b out home
    | false =>
      refine inv.settled b fun pin => ?_
      have : b ∈ s.lh := by
        revert pin
        cases s.phase <;> simp [pinned]
        exact fun h => mem_of_mem_drop h
      rw [inv.lh.homes b this] at home
      cases home

omit inv

theorem agree_update {a} (off : g.home a = false) : Agree g (update want a v) want := fun b home =>
  update_of_ne (by rintro rfl; rw [off] at home; cases home) ..

/-- `write_log` copies a block. -/
theorem copy_inv (inv : Inv g s want) (ph : s.phase = .copy tail) (h : tail < s.lh.length)
    (hc : copyBlock s.dev (g.block tail) s.lh[tail] = some d) :
    ∃ want', Inv g { s with dev := d, phase := .copy (tail + 1) } want' ∧ Agree g want' want ∧
      (g.store d.disk).redo = (g.store s.dev.disk).redo := by
  obtain ⟨hi, -, ne⟩ := inv.entry h
  obtain ⟨coherent, disk⟩ := copyBlock_spec inv.coherent ne hc
  have stage := inv.stage
  rw [ph] at stage
  have store : g.store d.disk = (g.store s.dev.disk).setLog tail (want s.lh[tail]) := by
    rw [disk, store_log hi]
  have head : (g.store d.disk).head = [] := by rw [store]; exact stage.1
  have same := ref_eq s s.lh (.copy (tail + 1)) (by rw [ph]; rfl)
  refine ⟨_, inv.log_update (home_block hi) disk (by rw [same]; exact coherent)
    (fun b out _ => inv.settled b (by rw [ph]; exact out)) inv.lh (by rw [head]; exact .nil g)
    (fun _ => inv.busy (by rw [ph]; rintro ⟨⟩)) ⟨head, fun i hil lt => ?_⟩,
    agree_update (home_block hi), ?_⟩
  · rw [disk, agree_update (home_block hi) _ (inv.lh.homes _ (getElem_mem hil))]
    by_cases eq : i = tail
    · subst eq
      rw [update_self]
    · rw [update_of_ne fun e => eq (block_inj (inv.entry hil).1 hi e)]
      exact stage.2 i hil (by omega)
  · rw [store, Store.redo_setLog (by rw [stage.1]; exact Nat.zero_le _)]

/-- The commit point: the header is written over the copied blocks. -/
theorem head_inv (inv : Inv g s want) (ph : s.phase = .head)
    (hc : writeHead g s.dev s.lh = some d) :
    ∃ want', Inv g { s with dev := d, phase := .install 0 } want' ∧ Agree g want' want ∧
      Agree g (g.store d.disk).redo want := by
  obtain ⟨coherent, disk⟩ := writeHead_spec inv.coherent hc
  have stage := inv.stage
  rw [ph] at stage
  have store : g.store d.disk = (g.store s.dev.disk).setHead s.lh := by
    rw [disk, store_head, readHead_headBlock inv.lh.room]
  have redo : Agree g (g.store d.disk).redo want := by
    intro b home
    rw [store, Store.redo_setHead (f := want) fun i hi => ?_]
    · split
      · rfl
      · rename_i out
        simp only [LogArea.store, home, if_true]
        exact inv.settled b (by rw [ph]; exact out)
    · simp only [LogArea.store, (inv.entry hi).1, if_true]
      exact stage.2 i hi hi
  have same := ref_eq s s.lh (.install 0) (by rw [ph]; exact drop_zero)
  have off := home_start (g := g)
  refine ⟨_, inv.log_update off disk (by rw [same]; exact coherent)
    (fun b out _ => inv.settled b (by rw [ph]; exact out)) inv.lh (by rw [store]; exact inv.lh)
    (fun _ => inv.busy (by rw [ph]; rintro ⟨⟩)) ⟨by rw [store]; rfl, fun i hi _ => ?_,
    fun b home => ?_⟩, agree_update off, redo⟩
  · rw [disk, agree_update off _ (inv.lh.homes _ (getElem_mem hi)),
      update_of_ne (block_ne_start (inv.entry hi).1)]
    exact stage.2 i hi hi
  · rw [agree_update off b home, redo b home]

/-- `install_trans` writes a block to its home. -/
theorem install_inv (inv : Inv g s want) (ph : s.phase = .install tail) (h : tail < s.lh.length)
    (hc : installBlock false s.dev (g.block tail) s.lh[tail] = some d) :
    Inv g { s with dev := d, phase := .install (tail + 1) } want ∧
      (g.store d.disk).redo = (g.store s.dev.disk).redo := by
  obtain ⟨hi, home, ne⟩ := inv.entry h
  have stage := inv.stage
  rw [ph] at stage
  have drop : s.lh.drop tail = s.lh[tail] :: s.lh.drop (tail + 1) := drop_eq_getElem_cons h
  have once : s.lh[tail] ∉ s.lh.drop (tail + 1) := by
    have nodup := inv.lh.nodup.sublist (drop_sublist tail s.lh)
    rw [drop] at nodup
    exact (nodup_cons.1 nodup).1
  have mem : ∀ b, b ∈ s.lh.drop tail ↔ b = s.lh[tail] ∨ b ∈ s.lh.drop (tail + 1) := by
    intro b
    rw [drop, mem_cons]
  have isPinned : s.ref s.lh[tail] ≠ 0 := by
    simp only [Sys.ref, ph, pinned, mem, true_or, if_true]
    omega
  obtain ⟨coherent, disk⟩ := installBlock_spec inv.coherent ne.symm (fun _ => isPinned) hc
  have logged : want (g.block tail) = want s.lh[tail] := by
    rw [← stage.2.1 tail h h]
    refine (inv.settled _ fun pin => ?_).symm
    rw [ph] at pin
    have := inv.lh.homes _ (mem_of_mem_drop pin)
    rw [home_block hi] at this
    cases this
  rw [logged, update_eq_self, if_neg Bool.false_ne_true] at coherent
  rw [logged] at disk
  have store : g.store d.disk = (g.store s.dev.disk).setData s.lh[tail] (want s.lh[tail]) := by
    rw [disk, store_data home]
  have redo : (g.store d.disk).redo = (g.store s.dev.disk).redo := by
    rw [store, Store.redo_setData (by rw [stage.1]; exact getElem_mem h)]
  refine ⟨⟨?_, fun b out => ?_, inv.lh, ?_, fun _ => inv.busy (by rw [ph]; rintro ⟨⟩), ?_, ?_, ?_⟩,
    redo⟩
  · convert coherent using 1
    funext b
    by_cases hb : b = s.lh[tail]
    · subst hb
      rw [less, update_self]
      simp only [Sys.ref, ph, pinned, mem, once, true_or, if_true, if_false]
      omega
    · rw [less, update_of_ne hb]
      by_cases later : b ∈ s.lh.drop (tail + 1) <;> simp [Sys.ref, ph, pinned, mem, hb, later]
  · rw [disk]
    by_cases hb : b = s.lh[tail]
    · subst hb
      simp
    · rw [update_of_ne hb]
      refine inv.settled b ?_
      rw [ph]
      exact fun pin => ((mem b).1 pin).elim hb out
  · rw [store]
    exact inv.head
  · rw [store]
    exact stage.1
  · intro i hil lt
    rw [disk, update_of_ne (home_ne_block home (inv.entry hil).1).symm]
    exact stage.2.1 i hil lt
  · rw [redo]
    exact stage.2.2

theorem installed_inv (inv : Inv g s want) (ph : s.phase = .install tail)
    (h : ¬ tail < s.lh.length) : Inv g { s with lh := [], phase := .clear } want := by
  have stage := inv.stage
  have done : pinned s.lh s.phase = [] := by
    rw [ph]
    exact drop_eq_nil_of_le (by omega)
  rw [ph] at stage
  exact inv.move done.symm (.nil g) (fun _ => inv.busy (by rw [ph]; rintro ⟨⟩)) ⟨rfl, stage.2.2⟩

/-- The header is cleared once the home blocks have what it stands for. -/
theorem clear_inv (phase : Phase) (inv : Inv g s want) (nil : s.lh = [])
    (next : phase = .finish ∨ phase = .run) (idle : s.phase ≠ .run)
    (done : pinned s.lh s.phase = []) (redo : Agree g s.dev.disk (g.store s.dev.disk).redo)
    (hc : writeHead g s.dev s.lh = some d) :
    ∃ want', Inv g { s with dev := d, phase := phase } want' ∧ Agree g want' want ∧
      Agree g d.disk s.dev.disk ∧ Agree g (g.store d.disk).redo (g.store s.dev.disk).redo := by
  obtain ⟨coherent, disk⟩ := writeHead_spec inv.coherent hc
  have store : g.store d.disk = (g.store s.dev.disk).setHead [] := by
    rw [disk, store_head, readHead_headBlock inv.lh.room, nil]
  have off := home_start (g := g)
  have empty : pinned s.lh phase = [] := by rcases next with rfl | rfl <;> simp [pinned, nil]
  have same := ref_eq s s.lh phase (by rw [empty, done])
  refine ⟨_, inv.log_update off disk (by rw [same]; exact coherent)
    (fun b _ _ => inv.settled b (by simp [done])) inv.lh (by rw [store]; exact .nil g)
    (fun _ => inv.busy idle) ?_, agree_update off, ?_, fun b home => ?_⟩
  · rcases next with rfl | rfl
    · exact ⟨nil, by rw [store]; rfl⟩
    · show (g.store d.disk).head = []
      rw [store]
      rfl
  · rw [disk]
    exact agree_update off
  · rw [store, Store.redo_of_clean rfl, ← redo b home]
    simp [Store.setHead, LogArea.store, home]

theorem returned_inv (inv : Inv g s want) (ph : s.phase = .finish) :
    Inv g { s with phase := .run } want := by
  have stage := inv.stage
  rw [ph] at stage
  exact inv.move (by rw [ph, stage.1]; rfl) inv.lh (fun no => absurd rfl no) stage.2

theorem powerOff_ref {disk} : (powerOff disk).ref = fun _ => 0 := by
  funext b
  simp [powerOff, Sys.ref, pinned]

theorem off_inv {disk} (head : Valid g (g.store disk).head) : Inv g (powerOff disk) disk :=
  ⟨by rw [powerOff_ref]; exact .binit disk, fun _ _ => rfl, .nil g, head, fun _ => rfl, rfl⟩

/-- `recover_from_log` has read the header. -/
theorem boot_inv (inv : Inv g s want) (ph : s.phase = .off) (h : s.dev.bread g.start = some d) :
    Inv g { s with
      dev := d.brelse g.start, lh := readHead (d.data g.start), phase := .recover 0 } want := by
  obtain ⟨coherent, disk⟩ := inv.coherent.bread h
  have agree : ∀ b, s.dev.disk b = want b := fun b => inv.settled b (by rw [ph]; rintro ⟨⟩)
  have head : readHead (d.data g.start) = (g.store s.dev.disk).head := by
    rw [coherent.data_eq, ← agree]
    rfl
  have released := coherent.brelse (b := g.start) (by simp [more]) fun _ => by
    rw [disk]
    exact agree _
  rw [less_more] at released
  have same := ref_eq s (readHead (d.data g.start)) (.recover 0)
    (by rw [ph]; rfl)
  have disk' : (d.brelse g.start).disk = s.dev.disk := disk
  refine ⟨by rw [← same] at released; exact released, fun b _ => ?_, by rw [head]; exact inv.head,
    by rw [disk']; exact inv.head, fun _ => inv.busy (by rw [ph]; rintro ⟨⟩), ?_,
    fun b home out => ?_⟩
  · rw [disk']
    exact agree b
  · rw [head, disk']
  · rw [drop_zero, head] at out
    rw [disk', Store.redo_of_notMem out]
    simp [LogArea.store, home]

/-- `recover_from_log` writes a block to its home. -/
theorem recover_inv (inv : Inv g s want) (ph : s.phase = .recover tail) (h : tail < s.lh.length)
    (hc : installBlock true s.dev (g.block tail) s.lh[tail] = some d) :
    (∃ want', Inv g { s with dev := d, phase := .recover (tail + 1) } want') ∧
      (g.store d.disk).redo = (g.store s.dev.disk).redo := by
  obtain ⟨hi, home, ne⟩ := inv.entry h
  have stage := inv.stage
  rw [ph] at stage
  obtain ⟨lh, installed⟩ := stage
  obtain ⟨coherent, disk⟩ := installBlock_spec inv.coherent ne.symm (by rintro ⟨⟩) hc
  have agree : ∀ b, s.dev.disk b = want b := fun b => inv.settled b (by rw [ph]; rintro ⟨⟩)
  have store : g.store d.disk = (g.store s.dev.disk).setData s.lh[tail] (want (g.block tail)) := by
    rw [disk, store_data home]
  have member : s.lh[tail] ∈ (g.store s.dev.disk).head := lh ▸ getElem_mem h
  have redo : (g.store d.disk).redo = (g.store s.dev.disk).redo := by
    rw [store, Store.redo_setData member]
  have same := ref_eq s s.lh (.recover (tail + 1)) (by rw [ph]; rfl)
  refine ⟨⟨_, by rw [← same] at coherent; exact coherent, fun b _ => ?_, inv.lh, ?_,
    fun _ => inv.busy (by rw [ph]; rintro ⟨⟩), ?_, fun b homeb out => ?_⟩, redo⟩
  · rw [disk]
    by_cases hb : b = s.lh[tail]
    · subst hb
      simp
    · rw [update_of_ne hb, update_of_ne hb]
      exact agree b
  · rw [store]
    exact inv.head
  · rw [store]
    exact lh
  · rw [redo, disk]
    by_cases hb : b = s.lh[tail]
    · subst hb
      rw [update_self, ← agree, getElem_of_eq lh h,
        Store.redo_getElem inv.head.nodup (lh ▸ h)]
      simp [LogArea.store, hi]
    · rw [update_of_ne hb]
      refine installed b homeb fun later => ?_
      rw [drop_eq_getElem_cons h] at later
      exact (mem_cons.1 later).elim hb out

theorem recovered_all (inv : Inv g s want) (ph : s.phase = .recover tail)
    (h : ¬ tail < s.lh.length) : Inv g { s with lh := [], phase := .erase } want := by
  have stage := inv.stage
  rw [ph] at stage
  refine inv.move (by rw [ph]; rfl) (.nil g) (fun _ => inv.busy (by rw [ph]; rintro ⟨⟩))
    ⟨rfl, fun b home => stage.2 b home ?_⟩
  rw [drop_eq_nil_of_le (by omega)]
  rintro ⟨⟩

end steps

/-! ## Runs -/

abbrev LogStep : Sys → Ev → Sys → Prop := ByStep (logStep g)

/-- How far the blocks that the file system sees are from being what the disk
stands for: they are being written, on their way into the log, committed, or
lost with the memory. -/
inductive Age where
  | live | copying | committed | down

def Phase.age : Phase → Age
  | .run => .live
  | .copy _ | .head => .copying
  | .install _ | .clear | .finish => .committed
  | .off | .recover _ | .erase => .down

/-- What the disk stands for. -/
def Sys.redo (g : LogArea) (s : Sys) : UInt32 → Block := (g.store s.dev.disk).redo

/-- Events that are neither a write nor the end of something. -/
def Ev.plain : Ev → Bool
  | .begin _ | .hold _ | .release _ | .endOp _ | .io | .boot => true
  | _ => false

/-- What a step does to the contents that the disk stands for and to those that
the file system sees. -/
inductive Effect (g : LogArea) (s : Sys) (want : UInt32 → Block) (s' : Sys)
    (want' : UInt32 → Block) : Ev → Prop
  | stay {e : Ev} (plain : e.plain = true) (age : s'.phase.age = s.phase.age)
      (redo : Agree g (s'.redo g) (s.redo g)) (seen : s.phase.age ≠ .down → Agree g want' want) :
      Effect g s want s' want' e
  | write (i : Nat) (b : UInt32) (v : Block) (age : s.phase.age = .live)
      (age' : s'.phase.age = .live) (redo : s'.redo g = s.redo g)
      (seen : want' = update want b v) : Effect g s want s' want' (.write i b v)
  | closeSome (i : Nat) (age : s.phase.age = .live) (age' : s'.phase.age = .copying)
      (redo : s'.redo g = s.redo g) (seen : want' = want) : Effect g s want s' want' (.close i)
  | closeNone (i : Nat) (age : s.phase.age = .live) (age' : s'.phase.age = .committed)
      (redo : s'.redo g = s.redo g) (seen : want' = want) (nothing : Agree g want (s.redo g)) :
      Effect g s want s' want' (.close i)
  | commit (age : s.phase.age = .copying) (age' : s'.phase.age = .committed)
      (redo : Agree g (s'.redo g) want) (seen : Agree g want' want) : Effect g s want s' want' .io
  | returned (age : s.phase.age = .committed) (age' : s'.phase.age = .live)
      (redo : s'.redo g = s.redo g) (seen : want' = want) : Effect g s want s' want' .returned
  | crash (age' : s'.phase.age = .down) (redo : s'.redo g = s.redo g) :
      Effect g s want s' want' .crash
  | recovered (age : s.phase.age = .down) (age' : s'.phase = .run)
      (disk : Agree g s'.dev.disk (s.redo g)) (redo : Agree g (s'.redo g) (s.redo g))
      (seen : Agree g want' s'.dev.disk) : Effect g s want s' want' .recovered

section effects
variable {g : LogArea} {s s' : Sys} {want : UInt32 → Block} {e : Ev}

theorem logWrite_ok {lh lh' n b} (h : logWrite lh n b = .ok lh') :
    lh.length < logBlocks ∧ n ≠ 0 ∧ lh' = if b ∈ lh then lh else lh ++ [b] := by
  unfold logWrite at h
  split at h
  · cases h
  · split at h
    · cases h
    · refine ⟨by omega, by omega, ?_⟩
      split at h <;> cases h <;> simp [*]

theorem Agree.rfl {f} : Agree g f f := fun _ _ => Eq.refl _

theorem Agree.symm {f1 f2} (h : Agree g f1 f2) : Agree g f2 f1 :=
  fun b home => (h b home).symm

theorem Agree.trans {f1 f2 f3} (h1 : Agree g f1 f2) (h2 : Agree g f2 f3) :
    Agree g f1 f3 := fun b home => (h1 b home).trans (h2 b home)

theorem io_effect (inv : Inv g s want) (h : ioStep g s = some s') :
    ∃ want', Inv g s' want' ∧ Effect g s want s' want' .io := by
  unfold ioStep at h
  split at h
  · rename_i tail ph
    split at h
    · obtain ⟨d, hd, rfl⟩ := map_eq_some_iff.1 h
      obtain ⟨want', inv', seen, redo⟩ := copy_inv inv ph ‹_› hd
      exact ⟨want', inv', .stay rfl (by rw [ph]; rfl) (fun b _ => congrFun redo b) fun _ => seen⟩
    · rename_i all
      cases h
      have stage := inv.stage
      rw [ph] at stage
      exact ⟨want, inv.move (by rw [ph]; rfl) inv.lh (fun _ => inv.busy (by rw [ph]; rintro ⟨⟩))
        ⟨stage.1, fun i hi _ => stage.2 i hi (lt_of_lt_of_le hi (Nat.le_of_not_lt all))⟩,
        .stay rfl (by rw [ph]; rfl) .rfl fun _ => .rfl⟩
  · rename_i ph
    obtain ⟨d, hd, rfl⟩ := map_eq_some_iff.1 h
    obtain ⟨want', inv', seen, redo⟩ := head_inv inv ph hd
    exact ⟨want', inv', .commit (by rw [ph]; rfl) rfl redo seen⟩
  · rename_i tail ph
    split at h
    · obtain ⟨d, hd, rfl⟩ := map_eq_some_iff.1 h
      obtain ⟨inv', redo⟩ := install_inv inv ph ‹_› hd
      exact ⟨want, inv', .stay rfl (by rw [ph]; rfl) (fun b _ => congrFun redo b) fun _ => .rfl⟩
    · cases h
      exact ⟨want, installed_inv inv ph ‹_›, .stay rfl (by rw [ph]; rfl) .rfl fun _ => .rfl⟩
  · rename_i ph
    obtain ⟨d, hd, rfl⟩ := map_eq_some_iff.1 h
    have stage := inv.stage
    rw [ph] at stage
    have done : pinned s.lh s.phase = [] := by rw [ph]; rfl
    obtain ⟨want', inv', seen, -, redo⟩ := clear_inv .finish inv stage.1 (.inl rfl)
      (by rw [ph]; rintro ⟨⟩) done
      (fun b home => (inv.settled b (by simp [done])).trans (stage.2 b home)) hd
    exact ⟨want', inv', .stay rfl (by rw [ph]; rfl) redo fun _ => seen⟩
  · rename_i tail ph
    split at h
    · obtain ⟨d, hd, rfl⟩ := map_eq_some_iff.1 h
      obtain ⟨⟨want', inv'⟩, redo⟩ := recover_inv inv ph ‹_› hd
      exact ⟨want', inv', .stay rfl (by rw [ph]; rfl) (fun b _ => congrFun redo b)
        fun up => absurd (by rw [ph]; rfl) up⟩
    · cases h
      exact ⟨want, recovered_all inv ph ‹_›, .stay rfl (by rw [ph]; rfl) .rfl fun _ => .rfl⟩
  · cases h

theorem step_effect (inv : Inv g s want) (h : LogStep g s e s') :
    ∃ want', Inv g s' want' ∧ Effect g s want s' want' e := by
  unfold LogStep ByStep logStep at h
  cases e with
  | begin i =>
    obtain ⟨go, ⟨⟩⟩ := ite_none_right_eq_some.1 h
    exact ⟨want, inv.of_disk rfl (fun no => absurd go.1 no) inv.coherent,
      .stay rfl rfl .rfl fun _ => .rfl⟩
  | hold b =>
    obtain ⟨_, h⟩ := ite_none_right_eq_some.1 h
    obtain ⟨d, hd, rfl⟩ := map_eq_some_iff.1 h
    refine ⟨want, hold_inv inv hd, .stay rfl rfl (fun b _ => ?_) fun _ => .rfl⟩
    simp only [Sys.redo, (inv.coherent.bread hd).2]
  | release b =>
    obtain ⟨_, ⟨⟩⟩ := ite_none_right_eq_some.1 h
    exact ⟨want, release_inv inv ‹_›, .stay rfl rfl .rfl fun _ => .rfl⟩
  | write i b v =>
    dsimp only at h
    split at h
    · rename_i own lh op ok
      obtain ⟨room, some_op, rfl⟩ := logWrite_ok ok
      obtain ⟨go, ⟨⟩⟩ := ite_none_right_eq_some.1 h
      have run : s.phase = .run := by_contra fun no => some_op (inv.busy no)
      refine ⟨_, write_inv inv run go.1 go.2 room, .write i b v (by rw [run]; rfl)
        (by rw [run]; rfl) ?_ rfl⟩
      split <;> rfl
    · cases h
  | endOp i =>
    obtain ⟨go, ⟨⟩⟩ := ite_none_right_eq_some.1 h
    exact ⟨want, inv.of_disk rfl (fun no => absurd go.2.1 no) inv.coherent,
      .stay rfl rfl .rfl fun _ => .rfl⟩
  | close i =>
    obtain ⟨go, h⟩ := ite_none_right_eq_some.1 h
    have run := go.2.1
    cases h
    refine ⟨want, close_inv inv run, ?_⟩
    by_cases nil : s.lh = []
    · refine .closeNone i (by rw [run]; rfl) (by simp [nil, Phase.age]) rfl rfl fun b home => ?_
      have stage := inv.stage
      rw [run] at stage
      rw [Sys.redo, Store.redo_of_clean stage, ← inv.settled b (by rw [run, nil]; rintro ⟨⟩)]
      simp [LogArea.store, home]
    · exact .closeSome i (by rw [run]; rfl) (by simp [nil, Phase.age]) rfl rfl
  | io => exact io_effect inv h
  | returned =>
    obtain ⟨ph, ⟨⟩⟩ := ite_none_right_eq_some.1 h
    exact ⟨want, returned_inv inv ph, .returned (by rw [ph]; rfl) rfl rfl rfl⟩
  | crash =>
    cases h
    exact ⟨_, off_inv inv.head, .crash rfl rfl⟩
  | boot =>
    obtain ⟨ph, h⟩ := ite_none_right_eq_some.1 h
    obtain ⟨d, hd, rfl⟩ := map_eq_some_iff.1 h
    refine ⟨want, boot_inv inv ph hd, .stay rfl (by rw [ph]; rfl) (fun b _ => ?_) fun _ => .rfl⟩
    have disk : (d.brelse g.start).disk = s.dev.disk := (inv.coherent.bread hd).2
    simp only [Sys.redo, disk]
  | recovered =>
    obtain ⟨ph, h⟩ := ite_none_right_eq_some.1 h
    obtain ⟨d, hd, rfl⟩ := map_eq_some_iff.1 h
    have stage := inv.stage
    have done : pinned s.lh s.phase = [] := by rw [ph]; rfl
    rw [ph] at stage
    obtain ⟨want', inv', seen, disk, redo⟩ := clear_inv .run inv stage.1 (.inr rfl)
      (by rw [ph]; rintro ⟨⟩) done stage.2 hd
    refine ⟨want', inv', .recovered (by rw [ph]; rfl) rfl
      (fun b home => (disk b home).trans (stage.2 b home)) redo fun b home => ?_⟩
    rw [seen b home, ← inv.settled b (by simp [done])]
    exact (disk b home).symm

theorem run_inv {disk t} (head : Valid g (g.store disk).head)
    (h : Run (LogStep g) (powerOff disk) t s) : ∃ want, Inv g s want := by
  refine h.keeps (I := fun s => ∃ want, Inv g s want) ⟨disk, off_inv head⟩ ?_
  rintro s e s' ⟨want, inv⟩ st
  obtain ⟨want', inv', -⟩ := step_effect inv st
  exact ⟨want', inv'⟩

end effects

end OsProject.Xv6.Log
