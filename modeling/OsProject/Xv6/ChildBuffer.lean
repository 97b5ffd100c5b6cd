import OsProject.Xv6.CopyOut
import OsProject.Xv6.PidCalls

/-! # The buffer of kgetchildren

`kgetchildren` with its local array of pids: which elements it writes, how many bytes it
hands to `copyout`, and how many of them `copyout` reads. -/
namespace OsProject.Xv6.ChildBuffer
open Lib.Transition Memory ProcTable Machine List
open PidCalls CopyOut

/-! ## The function -/

/-- The array `pids`, with `none` where nothing has been written, and the count. -/
structure Scan where
  pids : Nat → Option Int32
  n : Nat

def isChild (k : Kernel) (i j : Slot) : Bool :=
  (k j).parent = some i ∧ (k j).state ≠ .unused ∧ (k j).state ≠ .zombie

/-- One round of the loop. -/
def scanRound (k : Kernel) (i : Slot) (maxn : Int32) (s : Scan) (j : Slot) : Scan :=
  if isChild k i j then
    ⟨if (s.n : Int) < maxn.toInt then Function.update s.pids s.n (some (k j).pid)
      else s.pids, s.n + 1⟩
  else s

def scan (k : Kernel) (i : Slot) (maxn : Int32) : Scan :=
  (List.finRange nproc).foldl (scanRound k i maxn) ⟨fun _ => none, 0⟩

def tocopy (n : Nat) (maxn : Int32) : Int32 :=
  if (n : Int) < maxn.toInt then Int32.ofNat n else maxn

/-- `tocopy * sizeof(int)`, where the `int` becomes a `size_t`. -/
def copyLen (n : Nat) (maxn : Int32) : UInt64 := (tocopy n maxn).toInt64.toUInt64 * 4

/-- How many bytes `copyout` reads from its source: up to the first that it cannot store. -/
def copyoutReads (ok : Nat → Bool) (m : AddrSpace) (dstva len : Nat) : Nat :=
  ((List.range len).takeWhile fun b => takes ok m (dstva + b)).length

/-- `kgetchildren` of process `i`; `copyout` fails when it does not read all of its source. -/
def kgetchildren (k : Kernel) (i : Slot) (addr : UInt64) (maxn : Int32) (ok : Nat → Bool) : Int32 :=
  let s := scan k i maxn
  if addr ≠ 0 ∧ copyoutReads ok (k i).mem addr.toNat (copyLen s.n maxn).toNat <
    (copyLen s.n maxn).toNat then -1
  else Int32.ofNat s.n

/-- A byte of the array, if it is in the array and has been written. -/
def Scan.byteAt (s : Scan) (b : Nat) : Option UInt8 :=
  if b / 4 < nproc then (s.pids (b / 4)).bind fun v => (intBytes v)[b % 4]? else none

/-! ## What it is for -/

def children (k : Kernel) (i : Slot) : List Slot := (List.finRange nproc).filter (isChild k i)

/-- The pids that fit. -/
def fitting (k : Kernel) (i : Slot) (maxn : Int32) : List Int32 :=
  ((children k i).take maxn.toInt.toNat).map fun j => (k j).pid

structure Bounded (k : Kernel) (i : Slot) (addr : UInt64) (maxn : Int32) (ok : Nat → Bool) :
    Prop where
  result : kgetchildren k i addr maxn ok = -1 ∨
    kgetchildren k i addr maxn ok = Int32.ofNat (children k i).length
  passes : addr ≠ 0 → (copyLen (scan k i maxn).n maxn).toNat =
    ((fitting k i maxn).flatMap intBytes).length ∧ ∀ b, b < (copyLen (scan k i maxn).n maxn).toNat →
      (scan k i maxn).byteAt b = ((fitting k i maxn).flatMap intBytes)[b]?
  reads : addr ≠ 0 → ∀ b, b <
    copyoutReads ok (k i).mem addr.toNat (copyLen (scan k i maxn).n maxn).toNat →
    ((scan k i maxn).byteAt b).isSome = true

/-! ## The scan -/

section scan
variable {k : Kernel} {i : Slot} {maxn : Int32}

/-- What the loop has after it has found these children. -/
def scanOf (k : Kernel) (maxn : Int32) (found : List Slot) : Scan where
  pids e := if (e : Int) < maxn.toInt then (found[e]?).map fun j => (k j).pid else none
  n := found.length

theorem scanRound_of {found} (j : Slot) : scanRound k i maxn (scanOf k maxn found) j =
      scanOf k maxn (if isChild k i j then found ++ [j] else found) := by
  unfold scanRound
  split
  · unfold scanOf
    rw [length_append, length_singleton]
    congr 1
    funext e
    by_cases last : e = found.length
    · subst last
      split
      · simp
      · rename_i full
        exact if_neg full
    · have same : (found ++ [j])[e]? = found[e]? := by
        by_cases lt : e < found.length
        · exact getElem?_append_left lt
        · rw [getElem?_eq_none (by rw [length_append, length_singleton]; omega),
            getElem?_eq_none (by omega)]
      rw [same]
      split
      · rw [Function.update_of_ne last]
      · rfl
  · rfl

theorem foldl_scan (l found : List Slot) :
    l.foldl (scanRound k i maxn) (scanOf k maxn found) =
      scanOf k maxn (found ++ l.filter (isChild k i)) := by
  induction l generalizing found with
  | nil => rw [filter_nil, append_nil]; rfl
  | cons j l ih =>
    rw [foldl_cons, scanRound_of, ih, filter_cons]
    split
    · rw [append_assoc]
      rfl
    · rfl

theorem scan_eq : scan k i maxn = scanOf k maxn (children k i) := by
  have start : (⟨fun _ => none, 0⟩ : Scan) = scanOf k maxn [] := by
    simp [scanOf]
  unfold scan
  rw [start, foldl_scan]
  rfl

theorem children_short : (children k i).length ≤ nproc :=
  (length_filter_le ..).trans_eq length_finRange

end scan

/-! ## The length of the copy -/

/-- An `int` as a `size_t`. -/
theorem toNat_widen (x : Int32) :
    x.toInt64.toUInt64.toNat = (x.toInt % 18446744073709551616).toNat := by
  have same : x.toInt64.toBitVec.toInt = x.toInt := Int32.toInt_toInt64 x
  rw [show x.toInt64.toUInt64.toNat = x.toInt64.toBitVec.toNat from rfl, ← same,
    BitVec.toInt_eq_toNat_cond]
  split <;> omega

theorem toNat_widen_mul (x : Int32) :
    (x.toInt64.toUInt64 * 4).toNat = (4 * x.toInt % 18446744073709551616).toNat := by
  rw [UInt64.toNat_mul, toNat_widen, show (4 : UInt64).toNat = 4 from rfl]
  omega

section length
variable {k : Kernel} {i : Slot} {maxn : Int32} {ok : Nat → Bool}

theorem tocopy_toInt {n} (small : n ≤ nproc) :
    (tocopy n maxn).toInt = min (n : Int) maxn.toInt := by
  unfold tocopy
  split
  · rw [Int32.toInt_ofNat_of_lt (by unfold nproc at small; omega)]
    omega
  · omega

theorem copyLen_toNat (pos : 0 ≤ maxn.toInt) :
    (copyLen (scan k i maxn).n maxn).toNat = 4 * (fitting k i maxn).length := by
  have count : (scan k i maxn).n = (children k i).length := by rw [scan_eq]; rfl
  have small := children_short (k := k) (i := i)
  unfold copyLen
  rw [count, toNat_widen_mul, tocopy_toInt small, fitting, length_map, length_take]
  unfold nproc at small
  omega

/-- A negative `maxn` makes a length of nearly `2^64`. -/
theorem copyLen_negative (neg : maxn.toInt < 0) : (copyLen (scan k i maxn).n maxn).toNat ≠ 0 := by
  have count : (scan k i maxn).n = (children k i).length := by rw [scan_eq]; rfl
  have small := children_short (k := k) (i := i)
  have low := maxn.le_toInt
  unfold copyLen
  rw [count, toNat_widen_mul, tocopy_toInt small]
  omega

theorem length_flatMap_intBytes (l : List Int32) : (l.flatMap intBytes).length = 4 * l.length := by
  simp [length_flatMap, intBytes, map_const', mul_comm]

theorem getElem?_flatMap_intBytes (l : List Int32) (b : Nat) :
    (l.flatMap intBytes)[b]? = (l[b / 4]?).bind fun v => (intBytes v)[b % 4]? := by
  induction l generalizing b with
  | nil => rfl
  | cons v l ih =>
    have four : (intBytes v).length = 4 := rfl
    rw [flatMap_cons]
    by_cases first : b < 4
    · rw [getElem?_append_left (by rw [four]; exact first), Nat.div_eq_of_lt first,
        Nat.mod_eq_of_lt first]
      rfl
    · rw [getElem?_append_right (by rw [four]; omega), four, ih]
      have div : b / 4 = (b - 4) / 4 + 1 := by omega
      have mod : b % 4 = (b - 4) % 4 := by omega
      rw [div, mod, getElem?_cons_succ]

/-- In its bounds, the array has the pids that fit. -/
theorem byteAt_eq {b} (lt : b < 4 * (fitting k i maxn).length) :
    (scan k i maxn).byteAt b = ((fitting k i maxn).flatMap intBytes)[b]? := by
  have small := children_short (k := k) (i := i)
  have here : b / 4 < (fitting k i maxn).length := by omega
  have bound := here
  rw [fitting, length_map, length_take] at bound
  have fits : ((b / 4 : Nat) : Int) < maxn.toInt := by omega
  rw [getElem?_flatMap_intBytes, scan_eq, Scan.byteAt, if_pos (by omega)]
  congr 1
  show (if ((b / 4 : Nat) : Int) < maxn.toInt then _ else _) = _
  rw [if_pos fits, fitting, getElem?_map, getElem?_take_of_lt (by omega)]

theorem copyoutReads_eq {m m' a l n} (took : Took ok m a l m' n) :
    copyoutReads ok m a l.length = n := by
  have le := took.le
  have split : List.range l.length = List.range n ++ (List.range (l.length - n)).map (n + ·) := by
    rw [← range_add, Nat.add_sub_of_le le]
  have all : ∀ b ∈ List.range n, takes ok m (a + b) = true :=
    fun b mem => took.taken b (mem_range.1 mem)
  have stop : ((List.range (l.length - n)).map (n + ·)).takeWhile (fun b => takes ok m (a + b)) =
      [] := by
    cases left : l.length - n with
    | zero => rfl
    | succ rest =>
      rw [range_succ_eq_map, map_cons, takeWhile_cons_of_neg]
      rw [add_zero, took.stops (by omega)]
      exact Bool.false_ne_true
  rw [copyoutReads, split, takeWhile_append_of_pos all, stop, append_nil, length_range]

/-- It is the number of bytes that `copyout` stores, and `copyout` fails if that is not all of
them. -/
theorem copyout_reads (ok : Nat → Bool) (m : AddrSpace) (a : Nat) (l : List UInt8) :
    Took ok m a l (copyout ok m a l).1 (copyoutReads ok m a l.length) ∧
      ((copyout ok m a l).2 = true ↔ copyoutReads ok m a l.length = l.length) := by
  obtain ⟨n, took, all⟩ := copyout_took ok m a l
  rw [copyoutReads_eq took]
  exact ⟨took, all⟩

theorem copyoutReads_le (ok : Nat → Bool) (m : AddrSpace) (dstva len : Nat) :
    copyoutReads ok m dstva len ≤ len :=
  (takeWhile_sublist _).length_le.trans_eq length_range

/-- `copyout` reads from its source if it can write the first byte. -/
theorem copyoutReads_pos {m dstva len} (some_len : len ≠ 0) (first : takes ok m dstva = true) :
    0 < copyoutReads ok m dstva len := by
  obtain ⟨rest, rfl⟩ := Nat.exists_eq_succ_of_ne_zero some_len
  rw [copyoutReads, range_succ_eq_map, takeWhile_cons_of_pos (by rw [add_zero]; exact first)]
  exact Nat.succ_pos _

end length

/-! ## The law -/

/-- `kgetchildren` keeps to its array and copies the pids that fit if and only if it copies
nothing or its `maxn` is not negative. -/
theorem kgetchildren_bounded (k : Kernel) (i : Slot) (addr : UInt64) (maxn : Int32)
    (ok : Nat → Bool) : Bounded k i addr maxn ok ↔ addr = 0 ∨ 0 ≤ maxn.toInt := by
  have result : kgetchildren k i addr maxn ok = -1 ∨
      kgetchildren k i addr maxn ok = Int32.ofNat (children k i).length := by
    unfold kgetchildren
    dsimp only
    split
    · exact .inl rfl
    · rw [scan_eq]
      exact .inr rfl
  constructor
  · intro law
    by_contra bad
    rw [not_or] at bad
    have neg : maxn.toInt < 0 := by omega
    have none_fit : fitting k i maxn = [] := by
      rw [fitting, Int.toNat_of_nonpos (by omega), take_zero, map_nil]
    have len := (law.passes bad.1).1
    rw [none_fit] at len
    exact copyLen_negative neg len
  · rintro (zero | pos)
    · exact ⟨result, fun no => absurd zero no, fun no => absurd zero no⟩
    · have len := copyLen_toNat (k := k) (i := i) pos
      have bytes := length_flatMap_intBytes (fitting k i maxn)
      refine ⟨result, fun _ => ⟨len.trans bytes.symm, ?_⟩, ?_⟩
      · intro b lt
        rw [len] at lt
        exact byteAt_eq lt
      · intro _ b lt
        have le := copyoutReads_le ok (k i).mem addr.toNat (copyLen (scan k i maxn).n maxn).toNat
        have small : b < 4 * (fitting k i maxn).length := len ▸ lt_of_lt_of_le lt le
        rw [byteAt_eq small, getElem?_eq_getElem (by omega)]
        rfl

/-- With `maxn = -1` nothing is written to the array, and `copyout` reads from it. -/
theorem kgetchildren_negative : ∃ t k, History dataBoot t k ∧
    (copyLen (scan k initproc (-1)).n (-1)).toNat = 18446744073709551612 ∧
    0 < copyoutReads (fun _ => true) (k initproc).mem 4096
      (copyLen (scan k initproc (-1)).n (-1)).toNat ∧
    ∀ e, (scan k initproc (-1)).pids e = none := by
  refine ⟨[], boot dataBoot, .nil, by decide +kernel,
    copyoutReads_pos (copyLen_negative (by decide)) (by decide), ?_⟩
  intro e
  have minus : (-1 : Int32).toInt = -1 := by decide
  have out : ¬ (e : Int) < (-1 : Int32).toInt := by omega
  simp only [scan_eq, scanOf, if_neg out]

end OsProject.Xv6.ChildBuffer
