import Mathlib.Data.List.Induction
import OsProject.Lib.Outcome
import OsProject.Lib.Ring
import OsProject.Lib.Transition

/-! # The console's line discipline

`consoleintr` edits a line in a ring of 128 bytes and commits it; `consoleread` takes bytes
from there. Any number of processes may be in `consoleread`: each holds `cons.lock` but
while it sleeps, and `consoleintr` takes the same lock. -/
namespace OsProject.Xv6.Console
open Lib Lib.Outcome Lib.Transition List
open Function (update update_of_ne update_self)

def inputBufSize : Nat := 128

def newline : UInt8 := 10
def carriageReturn : UInt8 := 13
/-- `C('D')`. -/
def ctrlD : UInt8 := 4
/-- `C('P')`. -/
def ctrlP : UInt8 := 16
/-- `C('U')`. -/
def ctrlU : UInt8 := 21
/-- `C('H')`. -/
def ctrlH : UInt8 := 8
def delete : UInt8 := 127

/-- The fields of `cons`, without its lock. -/
structure Cons where
  buf : Nat → UInt8
  r : UInt32
  w : UInt32
  e : UInt32

/-! ## The interrupt handler -/

/-- The loop that kills a line. After `e - w` rounds the two indexes are equal. -/
def killLine : Nat → Cons → Cons
  | 0, s => s
  | fuel + 1, s =>
    if s.e ≠ s.w ∧ s.buf ((s.e - 1).toNat % inputBufSize) ≠ newline
      then killLine fuel { s with e := s.e - 1 }
    else s

/-- `consoleintr`, and whether it calls `wakeup(&cons.r)`. -/
def consoleintr (c : UInt8) (s : Cons) : Cons × Bool :=
  if c = ctrlP then (s, false)
  else if c = ctrlU then (killLine (s.e - s.w).toNat s, false)
  else if c = ctrlH ∨ c = delete then (if s.e ≠ s.w then { s with e := s.e - 1 } else s, false)
  else if c ≠ 0 ∧ (s.e - s.r).toNat < inputBufSize then
    let c := if c = carriageReturn then newline else c
    let s := { s with buf := update s.buf (s.e.toNat % inputBufSize) c, e := s.e + 1 }
    if c = newline ∨ c = ctrlD ∨ (s.e - s.r).toNat = inputBufSize then ({ s with w := s.e }, true)
    else (s, false)
  else (s, false)

/-! ## The readers -/

/-- A process in `consoleread`: its `n` and `target`, and what it has copied to `dst` so far. -/
structure Reader where
  n : Int32
  target : UInt32
  got : List UInt8

inductive Place where
  | out
  /-- holds `cons.lock`, at the loop's test -/
  | runs (x : Reader)
  | asleep (x : Reader)
  /-- woken, and waiting for `cons.lock` -/
  | woken (x : Reader)

def Place.wake : Place → Place
  | .asleep x => .woken x
  | pl => pl

structure State where
  cons : Cons
  lock : Option Nat
  place : Nat → Place
  killed : Nat → Bool

/-- What is seen of a step: a byte that is copied to the reader, or the end of a read with
its result and the bytes it has copied. -/
inductive Seen where
  | tau
  | copied (b : UInt8)
  /-- after a newline -/
  | line (v : Int32) (got : List UInt8)
  /-- after `n` bytes -/
  | full (v : Int32) (got : List UInt8)
  /-- at a control-D -/
  | eof (v : Int32)
  /-- at a control-D, which is left for the next read -/
  | held (v : Int32) (got : List UInt8)
  | dead (v : Int32)

variable (s : State)

def State.enter (p : Nat) (x : Reader) : State :=
  { s with lock := some p, place := update s.place p (.runs x) }

/-- `release` and return. -/
def State.leave (p : Nat) : State :=
  { s with lock := none, place := update s.place p .out }

/-- The value `target - n`. -/
def Reader.result (x : Reader) : Int32 := (x.target - x.n.toUInt32).toInt32

/-- The loop of `consoleread` from its test to the next test, a `sleep` or the return. -/
def readTurn (p : Nat) (x : Reader) : State × Seen :=
  if 0 < x.n.toInt then
    if s.cons.r = s.cons.w then
      if s.killed p then (s.leave p, .dead (-1))
      else ({ s with lock := none, place := update s.place p (.asleep x) }, .tau)
    else
      let c := s.cons.buf (s.cons.r.toNat % inputBufSize)
      let s := { s with cons := { s.cons with r := s.cons.r + 1 } }
      if c = ctrlD then
        if x.n.toUInt32 < x.target then
          ({ s with cons := { s.cons with r := s.cons.r - 1 } }.leave p, .held x.result x.got)
        else (s.leave p, .eof x.result)
      else
        let x := { x with n := x.n - 1, got := x.got ++ [c] }
        if c = newline then (s.leave p, .line x.result x.got)
        else (s.enter p x, .copied c)
  else (s.leave p, .full x.result x.got)

inductive Act where
  | intr (c : UInt8)
  | read (p : Nat) (n : Int32)
  | turn (p : Nat)
  | kill (p : Nat)

def step : Act → Option (State × Seen)
  | .intr c =>
    if s.lock = none then
      let r := consoleintr c s.cons
      some ({ s with cons := r.1, place := if r.2 then fun q => (s.place q).wake else s.place },
        .tau)
    else none
  | .read p n => match s.place p with
    | .out => if s.lock = none then some (s.enter p ⟨n, n.toUInt32, []⟩, .tau) else none
    | _ => none
  | .turn p => match s.place p with
    | .runs x => some (readTurn s p x)
    | .woken x => if s.lock = none then some (s.enter p x, .tau) else none
    | _ => none
  | .kill p => some ({ s with
      killed := update s.killed p true
      place := update s.place p (s.place p).wake }, .tau)

def start : State where
  cons := ⟨fun _ => 0, 0, 0, 0⟩
  lock := none
  place := fun _ => .out
  killed := fun _ => false

abbrev History : List (Act × Seen) → State → Prop := Run (ByEvent step) start

/-! ## What it is for -/

/-- The lines that are committed, and the line that is being edited. -/
structure Editor where
  kept : List UInt8
  line : List UInt8

/-- A character comes in, when readers have taken `taken` of the committed characters. -/
def Editor.type (d : Editor) (taken : Nat) (c : UInt8) : Editor :=
  if c = ctrlP then d
  else if c = ctrlU then { d with line := [] }
  else if c = ctrlH ∨ c = delete then { d with line := d.line.dropLast }
  else if c ≠ 0 ∧ d.kept.length - taken + d.line.length < inputBufSize then
    let c := if c = carriageReturn then newline else c
    let line := d.line ++ [c]
    if c = newline ∨ c = ctrlD ∨ d.kept.length - taken + line.length = inputBufSize
      then ⟨d.kept ++ line, []⟩
    else { d with line := line }
  else d

/-- The bytes that a step copies to its reader. -/
def Seen.bytes : Seen → List UInt8
  | .copied b => [b]
  | .line _ _ => [newline]
  | _ => []

/-- How many characters a step takes out of the buffer. -/
def Seen.takes : Seen → Nat
  | .copied _ | .line _ _ | .eof _ => 1
  | _ => 0

/-- All bytes that were copied to readers, in order. -/
def delivered : List (Act × Seen) → List UInt8
  | [] => []
  | l :: t => delivered t ++ l.2.bytes

def taken : List (Act × Seen) → Nat
  | [] => 0
  | l :: t => taken t + l.2.takes

/-- The input so far, edited. -/
def editor : List (Act × Seen) → Editor
  | [] => ⟨[], []⟩
  | (.intr c, _) :: t => (editor t).type (taken t) c
  | _ :: t => editor t

/-- The last reader that took a character has put a control-D back. -/
def eofHeld : List (Act × Seen) → Bool
  | [] => false
  | (_, .held _ _) :: _ => true
  | (_, .copied _) :: _ | (_, .line _ _) :: _ | (_, .eof _) :: _ => false
  | _ :: t => eofHeld t

/-- What holds in every state. -/
structure Discipline (t : List (Act × Seen)) (s : State) : Prop where
  committed : s.cons.w - s.cons.r ≤ s.cons.e - s.cons.r
  bounded : (s.cons.e - s.cons.r).toNat ≤ inputBufSize
  behind : taken t ≤ (editor t).kept.length
  stream : delivered t = ((editor t).kept.take (taken t)).filter (· ≠ ctrlD)
  /-- a read finds something as long as not all committed characters are taken -/
  ready : s.cons.r = s.cons.w ↔ taken t = (editor t).kept.length

/-- How a read may end: at its first newline, after `n` bytes or at a control-D, and with the
number of bytes it has copied. -/
def Seen.Lawful : Seen → Prop
  | .line v got => (∃ front, got = front ++ [newline] ∧ newline ∉ front) ∧ v.toInt = got.length
  | .full v got => newline ∉ got ∧ v.toInt = got.length
  | .held v got => got ≠ [] ∧ newline ∉ got ∧ v.toInt = got.length
  | .eof v => v = 0
  | .tau | .copied _ | .dead _ => True

/-- What holds of every step of a read. -/
structure ReadLaw (t : List (Act × Seen)) (s : State) (l : Act × Seen) : Prop where
  ends : l.2.Lawful
  /-- once a control-D has been put back, nothing is copied before a read has returned 0 for it -/
  waits : eofHeld t = true → l.2.bytes = []
  /-- and the next read to take a character is that read -/
  zero : eofHeld t = true → ∀ p x, l.1 = .turn p → s.place p = .runs x → x.got = [] →
    0 < x.n.toInt → l.2 = .eof 0

/-! ## The ring -/

/-- The ring has the characters `pend` for readers, and the line `line` behind them. -/
structure Shows (s : Cons) (pend line : List UInt8) : Prop where
  ring : Ring.Holds inputBufSize (2 ^ 32) s.buf s.r.toNat s.e.toNat (pend ++ line)
  write : s.w.toNat = (s.r.toNat + pend.length) % 2 ^ 32

namespace Shows
variable {s : Cons} {pend line : List UInt8} {b : UInt8}

theorem dvd : inputBufSize ∣ 2 ^ 32 := ⟨2 ^ 25, by decide⟩

variable (h : Shows s pend line)
include h

/-- The part for the readers is a ring of its own. -/
theorem pending : Ring.Holds inputBufSize (2 ^ 32) s.buf s.r.toNat s.w.toNat pend where
  next := h.write
  first := h.ring.first
  fits := by
    have fits := h.ring.fits
    rw [length_append] at fits
    omega
  cell := by
    intro k c hk
    refine h.ring.cell k c ?_
    rw [getElem?_append_left (List.getElem?_eq_some_iff.1 hk).1]
    exact hk

theorem edit_read : (s.e - s.r).toNat = pend.length + line.length := by
  rw [UInt32.toNat_sub, h.ring.ahead (by decide), length_append]

theorem write_read : (s.w - s.r).toNat = pend.length := by
  rw [UInt32.toNat_sub, h.pending.ahead (by decide)]

theorem edit_write : (s.e - s.w).toNat = line.length := by
  have fits := h.ring.fits
  have next := h.ring.next
  have write := h.write
  rw [length_append] at fits next
  rw [UInt32.toNat_sub]
  unfold inputBufSize at fits
  omega

theorem read_eq_write : s.r = s.w ↔ pend = [] := by
  rw [← UInt32.toNat_inj]
  exact h.pending.empty_iff (by decide)

theorem edit_eq_write : s.e = s.w ↔ line = [] := by
  constructor
  · intro eq
    have len := h.edit_write
    rw [eq, UInt32.sub_self] at len
    exact length_eq_zero_iff.1 len.symm
  · rintro rfl
    have next := h.ring.next
    rw [append_nil, ← h.write] at next
    exact UInt32.toNat_inj.1 next

omit h

theorem last (h : Shows s pend (line ++ [b])) : s.buf ((s.e - 1).toNat % inputBufSize) = b := by
  have ring := h.ring
  rw [← append_assoc] at ring
  exact ring.last dvd

theorem back (h : Shows s pend (line ++ [b])) : Shows { s with e := s.e - 1 } pend line := by
  have ring := h.ring
  rw [← append_assoc] at ring
  refine ⟨?_, h.write⟩
  exact ring.back

theorem put (h : Shows s pend line) (room : pend.length + line.length < inputBufSize) :
    Shows { s with buf := update s.buf (s.e.toNat % inputBufSize) b, e := s.e + 1 } pend
      (line ++ [b]) := by
  refine ⟨?_, h.write⟩
  rw [UInt32.toNat_add, ← append_assoc]
  exact h.ring.put dvd (by rw [length_append]; exact room)

theorem commit (h : Shows s pend line) : Shows { s with w := s.e } (pend ++ line) [] := by
  refine ⟨?_, h.ring.next⟩
  rw [append_nil]
  exact h.ring

theorem head (h : Shows s (b :: pend) line) : s.buf (s.r.toNat % inputBufSize) = b := h.pending.head

theorem take (h : Shows s (b :: pend) line) : Shows { s with r := s.r + 1 } pend line := by
  have ring := h.ring.take dvd
  have write := (h.pending.take dvd).next
  refine ⟨?_, ?_⟩
  · exact ring
  · exact write

theorem killLine (h : Shows s pend line) (plain : newline ∉ line) :
    Shows (Console.killLine line.length s) pend [] := by
  induction line using List.reverseRecOn generalizing s with
  | nil => exact h
  | append_singleton line b ih =>
    have more : s.e ≠ s.w := by
      intro eq
      exact append_ne_nil_of_right_ne_nil line (cons_ne_nil b []) (h.edit_eq_write.1 eq)
    have other : s.buf ((s.e - 1).toNat % inputBufSize) ≠ newline := by
      rw [h.last]
      rintro rfl
      exact plain (mem_append_right line (mem_singleton_self _))
    rw [length_append, length_singleton, Console.killLine, if_pos ⟨more, other⟩]
    exact ih h.back fun mem => plain (mem_append_left _ mem)

end Shows

/-- The handler edits as the editor does. -/
theorem consoleintr_shows {s : Cons} {d : Editor} {taken} (c : UInt8) (le : taken ≤ d.kept.length)
    (h : Shows s (d.kept.drop taken) d.line) (plain : newline ∉ d.line) :
    Shows (consoleintr c s).1 ((d.type taken c).kept.drop taken) (d.type taken c).line ∧
      newline ∉ (d.type taken c).line := by
  have count : (s.e - s.r).toNat = d.kept.length - taken + d.line.length := by
    rw [h.edit_read, length_drop]
  unfold consoleintr Editor.type
  split
  · exact ⟨h, plain⟩
  · split
    · rw [h.edit_write]
      exact ⟨h.killLine plain, not_mem_nil⟩
    · split
      · obtain nil | ⟨line, b, eq⟩ : d.line = [] ∨ ∃ line b, d.line = line ++ [b] := by
          rcases eq_nil_or_concat d.line with nil | ⟨line, b, eq⟩
          · exact .inl nil
          · exact .inr ⟨line, b, by rw [eq, concat_eq_append]⟩
        · rw [nil] at h plain
          rw [if_neg (not_not.2 (h.edit_eq_write.2 rfl)), nil]
          exact ⟨h, plain⟩
        · have more : s.e ≠ s.w := by
            intro same
            rw [h.edit_eq_write.1 same] at eq
            exact append_ne_nil_of_right_ne_nil line (cons_ne_nil b []) eq.symm
          rw [if_pos more, eq, dropLast_concat]
          rw [eq] at h plain
          exact ⟨h.back, fun mem => plain (mem_append_left _ mem)⟩
      · rw [count]
        split
        · rename_i room
          dsimp only
          generalize (if c = carriageReturn then newline else c) = c
          have after := h.put (b := c) (by rw [length_drop]; exact room.2)
          have full := after.edit_read
          rw [length_drop] at full
          rw [full]
          split
          · refine ⟨?_, not_mem_nil⟩
            rw [drop_append_of_le_length le]
            exact after.commit
          · rename_i no
            refine ⟨after, ?_⟩
            rw [mem_append, mem_singleton]
            rintro (mem | eq)
            · exact plain mem
            · exact no (.inl eq.symm)
        · exact ⟨h, plain⟩

/-! ## The count of a read -/

/-- `target` is what is left to read and what has been read. -/
structure Reader.Counted (x : Reader) : Prop where
  target : x.target = x.n.toUInt32 + UInt32.ofNat x.got.length
  fits : x.n.toInt + x.got.length < 2147483648
  left : x.got ≠ [] → 0 ≤ x.n.toInt

theorem toNat_toUInt32 {n : Int32} (pos : 0 ≤ n.toInt) : n.toUInt32.toNat = n.toInt.toNat := by
  have cond : n.toInt = if 2 * n.toBitVec.toNat < 2 ^ 32 then (n.toBitVec.toNat : Int) else _ :=
    BitVec.toInt_eq_toNat_cond n.toBitVec
  show n.toBitVec.toNat = _
  split at cond <;> omega

theorem toInt_sub_one {n : Int32} (pos : 0 < n.toInt) : (n - 1).toInt = n.toInt - 1 := by
  have lt := n.toInt_lt
  rw [Int32.toInt_sub, show (1 : Int32).toInt = 1 from rfl, Int.bmod_eq_of_le (by omega) (by omega)]

namespace Reader.Counted
variable {x : Reader}

theorem short (h : x.Counted) : x.got.length < 2147483648 := by
  have fits := h.fits
  by_cases nil : x.got = []
  · rw [nil]
    decide
  · have left := h.left nil
    omega

theorem result (h : x.Counted) : x.result.toInt = x.got.length := by
  have diff : x.target - x.n.toUInt32 = UInt32.ofNat x.got.length := by
    rw [h.target, UInt32.add_comm, UInt32.add_sub_cancel]
  rw [Reader.result, diff]
  exact Int32.toInt_ofNat_of_lt h.short

/-- The test `n < target` of a read that goes on. -/
theorem lt_target (h : x.Counted) (pos : 0 < x.n.toInt) : x.n.toUInt32 < x.target ↔ x.got ≠ [] := by
  have fits := h.fits
  have n := toNat_toUInt32 (Int.le_of_lt pos)
  rw [UInt32.lt_iff_toNat_lt, h.target, UInt32.toNat_add, UInt32.toNat_ofNat', n,
    ← length_pos_iff]
  omega

theorem next (h : x.Counted) (pos : 0 < x.n.toInt) (c : UInt8) :
    ({ x with n := x.n - 1, got := x.got ++ [c] } : Reader).Counted := by
  have fits := h.fits
  have minus := toInt_sub_one pos
  refine ⟨?_, ?_, ?_⟩
  · have old := toNat_toUInt32 (Int.le_of_lt pos)
    have new := toNat_toUInt32 (n := x.n - 1) (by omega)
    refine h.target.trans (UInt32.toNat_inj.1 ?_)
    rw [UInt32.toNat_add, UInt32.toNat_add, UInt32.toNat_ofNat', UInt32.toNat_ofNat',
      old, new, minus, length_append, length_singleton]
    omega
  · rw [minus, length_append, length_singleton]
    omega
  · intro _
    dsimp only
    omega

end Reader.Counted

/-! ## Every step -/

/-- The character that the next reader gets. -/
def Cons.next (s : Cons) : UInt8 := s.buf (s.r.toNat % inputBufSize)

/-- The next reader has got its character. -/
def State.advance : State := { s with cons := { s.cons with r := s.cons.r + 1 } }

def Reader.push (x : Reader) (c : UInt8) : Reader := { x with n := x.n - 1, got := x.got ++ [c] }

/-- What a turn of a reader does. -/
inductive Turn (s : State) (p : Nat) (x : Reader) : State × Seen → Prop
  | full (done : ¬ 0 < x.n.toInt) : Turn s p x (s.leave p, .full x.result x.got)
  | dead (more : 0 < x.n.toInt) (empty : s.cons.r = s.cons.w) : Turn s p x (s.leave p, .dead (-1))
  | sleep (more : 0 < x.n.toInt) (empty : s.cons.r = s.cons.w) :
      Turn s p x ({ s with lock := none, place := update s.place p (.asleep x) }, .tau)
  | held (more : 0 < x.n.toInt) (ready : s.cons.r ≠ s.cons.w) (char : s.cons.next = ctrlD)
      (later : x.n.toUInt32 < x.target) : Turn s p x (s.leave p, .held x.result x.got)
  | eof (more : 0 < x.n.toInt) (ready : s.cons.r ≠ s.cons.w) (char : s.cons.next = ctrlD)
      (first : ¬ x.n.toUInt32 < x.target) : Turn s p x (s.advance.leave p, .eof x.result)
  | line (more : 0 < x.n.toInt) (ready : s.cons.r ≠ s.cons.w) (char : s.cons.next = newline) :
      Turn s p x (s.advance.leave p, .line (x.push newline).result (x.push newline).got)
  | copied (more : 0 < x.n.toInt) (ready : s.cons.r ≠ s.cons.w) (data : s.cons.next ≠ ctrlD)
      (char : s.cons.next ≠ newline) :
    Turn s p x (s.advance.enter p (x.push s.cons.next), .copied s.cons.next)

theorem readTurn_turn (p : Nat) (x : Reader) : Turn s p x (readTurn s p x) := by
  unfold readTurn
  split
  · rename_i more
    split
    · rename_i empty
      split
      · exact .dead more empty
      · exact .sleep more empty
    · rename_i ready
      dsimp only
      split
      · rename_i char
        split
        · rename_i later
          rw [UInt32.add_sub_cancel]
          exact .held more ready char later
        · rename_i first
          exact .eof more ready char first
      · rename_i data
        split
        · rename_i char
          have line := Turn.line (p := p) (x := x) more ready char
          rw [← char] at line
          exact line
        · rename_i char
          exact .copied more ready data char
  · rename_i done
    exact .full done

def Place.reader : Place → Option Reader
  | .out => none
  | .runs x | .asleep x | .woken x => some x

@[simp] theorem reader_wake (pl : Place) : pl.wake.reader = pl.reader := by
  cases pl <;> rfl

/-- The invariant: the ring has what was typed and not taken. -/
structure Inv (t : List (Act × Seen)) (s : State) : Prop where
  ring : Shows s.cons ((editor t).kept.drop (taken t)) (editor t).line
  plain : newline ∉ (editor t).line
  behind : taken t ≤ (editor t).kept.length
  stream : delivered t = ((editor t).kept.take (taken t)).filter (· ≠ ctrlD)
  held : eofHeld t = true → (editor t).kept[taken t]? = some ctrlD
  readers : ∀ p x, (s.place p).reader = some x → x.Counted ∧ newline ∉ x.got

section steps
variable {t : List (Act × Seen)} {s s' : State} {p : Nat} {x : Reader} {l : Act × Seen}

theorem type_kept (d : Editor) (n : Nat) (c : UInt8) :
    ∃ more, (d.type n c).kept = d.kept ++ more := by
  have same : ∃ more, d.kept = d.kept ++ more := ⟨[], (append_nil _).symm⟩
  unfold Editor.type
  split
  · exact same
  · split
    · exact same
    · split
      · exact same
      · split
        · dsimp only
          generalize (if c = carriageReturn then newline else c) = c
          split
          · exact ⟨_, rfl⟩
          · exact same
        · exact same

/-- What a reader finds is the next committed character. -/
theorem Inv.next (h : Inv t s) (ready : s.cons.r ≠ s.cons.w) :
    (editor t).kept.drop (taken t) = s.cons.next :: (editor t).kept.drop (taken t + 1) := by
  have lt : taken t < (editor t).kept.length := by
    by_contra full
    exact ready (h.ring.read_eq_write.2 (drop_eq_nil_of_le (by omega)))
  have eq := drop_eq_getElem_cons lt
  have ring := h.ring
  rw [eq] at ring
  rw [eq, ← ring.head]
  rfl

theorem Inv.getElem? (h : Inv t s) (ready : s.cons.r ≠ s.cons.w) :
    (editor t).kept[taken t]? = some s.cons.next := by
  have head := congrArg List.head? (h.next ready)
  rwa [head?_drop, head?_cons] at head

/-- A step that neither types nor takes. -/
theorem Inv.same (h : Inv t s) (cons : s'.cons = s.cons) (typed : editor (l :: t) = editor t)
    (takes : l.2.takes = 0) (bytes : l.2.bytes = [])
    (eof : eofHeld (l :: t) = true → (editor t).kept[taken t]? = some ctrlD)
    (readers : ∀ p x, (s'.place p).reader = some x → x.Counted ∧ newline ∉ x.got) :
    Inv (l :: t) s' := by
  have count : taken (l :: t) = taken t := by rw [taken, takes, add_zero]
  refine ⟨?_, ?_, ?_, ?_, ?_, readers⟩
  · rw [typed, count, cons]
    exact h.ring
  · rw [typed]
    exact h.plain
  · rw [typed, count]
    exact h.behind
  · rw [typed, count, delivered, bytes, append_nil]
    exact h.stream
  · rw [typed, count]
    exact eof

/-- A reader takes its character. -/
theorem Inv.took (h : Inv t s) (ready : s.cons.r ≠ s.cons.w) (cons : s'.cons = s.advance.cons)
    (typed : editor (l :: t) = editor t) (takes : l.2.takes = 1)
    (bytes : l.2.bytes = [s.cons.next].filter (· ≠ ctrlD)) (eof : eofHeld (l :: t) = false)
    (readers : ∀ p x, (s'.place p).reader = some x → x.Counted ∧ newline ∉ x.got) :
    Inv (l :: t) s' := by
  have count : taken (l :: t) = taken t + 1 := by rw [taken, takes]
  have ring := h.ring
  rw [h.next ready] at ring
  have len := congrArg List.length (h.next ready)
  rw [length_cons, length_drop, length_drop] at len
  refine ⟨?_, ?_, ?_, ?_, ?_, readers⟩
  · rw [typed, count, cons]
    exact ring.take
  · rw [typed]
    exact h.plain
  · rw [typed, count]
    omega
  · rw [typed, count, delivered, bytes, h.stream, take_add_one, h.getElem? ready, filter_append]
    rfl
  · rw [eof]
    intro no
    cases no

theorem Inv.intr (h : Inv t s) (c : UInt8) {place : Nat → Place}
    (same : ∀ q, (place q).reader = (s.place q).reader) :
    Inv ((.intr c, .tau) :: t) { s with cons := (consoleintr c s.cons).1, place := place } := by
  obtain ⟨more, kept⟩ := type_kept (editor t) (taken t) c
  obtain ⟨ring, plain⟩ := consoleintr_shows c h.behind h.ring h.plain
  refine ⟨ring, plain, ?_, ?_, ?_, ?_⟩
  · show taken t ≤ ((editor t).type (taken t) c).kept.length
    rw [kept, length_append]
    exact Nat.le_add_right_of_le h.behind
  · show delivered t ++ [] = (((editor t).type (taken t) c).kept.take (taken t)).filter _
    rw [append_nil, kept, take_append_of_le_length h.behind]
    exact h.stream
  · intro eof
    have char := h.held eof
    show ((editor t).type (taken t) c).kept[taken t]? = some ctrlD
    rw [kept, getElem?_append_left (List.getElem?_eq_some_iff.1 char).1]
    exact char
  · intro q x placed
    exact h.readers q x ((same q).symm.trans placed)

/-- Who else is in `consoleread` stays there. -/
theorem readers_update {place : Nat → Place} {pl}
    (all : ∀ p x, (place p).reader = some x → x.Counted ∧ newline ∉ x.got)
    (new : ∀ x, pl.reader = some x → x.Counted ∧ newline ∉ x.got) (q : Nat) (y : Reader)
    (placed : (update place p pl q).reader = some y) : y.Counted ∧ newline ∉ y.got := by
  by_cases eq : q = p
  · subst eq
    rw [update_self] at placed
    exact new y placed
  · rw [update_of_ne eq] at placed
    exact all q y placed

theorem Inv.turn {r : State × Seen} (h : Inv t s) (placed : (s.place p).reader = some x)
    (st : Turn s p x r) : Inv ((.turn p, r.2) :: t) r.1 := by
  obtain ⟨counted, plain⟩ := h.readers p x placed
  have out : ∀ y, Place.out.reader = some y → y.Counted ∧ newline ∉ y.got := by
    intro y no
    cases no
  cases st with
  | full | dead => exact h.same rfl rfl rfl rfl h.held (readers_update h.readers out)
  | sleep more empty =>
    refine h.same rfl rfl rfl rfl h.held (readers_update h.readers fun y eq => ?_)
    cases eq
    exact ⟨counted, plain⟩
  | held more ready char later =>
    refine h.same rfl rfl rfl rfl (fun _ => ?_) (readers_update h.readers out)
    rw [h.getElem? ready, char]
  | eof _ ready char | line _ ready char =>
    refine h.took ready rfl rfl rfl ?_ rfl (readers_update h.readers out)
    rw [char]
    rfl
  | copied more ready data char =>
    refine h.took ready rfl rfl rfl ?_ rfl (readers_update h.readers fun y eq => ?_)
    · rw [filter_cons_of_pos (by simpa using data)]
      rfl
    · cases eq
      refine ⟨counted.next more _, ?_⟩
      unfold Reader.push
      rw [mem_append, mem_singleton]
      rintro (mem | eq)
      · exact plain mem
      · exact char eq.symm

theorem Inv.discipline (h : Inv t s) : Discipline t s where
  committed := by
    rw [UInt32.le_iff_toNat_le, h.ring.write_read, h.ring.edit_read]
    exact Nat.le_add_right ..
  bounded := by
    have fits := h.ring.ring.fits
    rw [length_append] at fits
    rw [h.ring.edit_read]
    exact fits
  behind := h.behind
  stream := h.stream
  ready := by
    have behind := h.behind
    rw [h.ring.read_eq_write, drop_eq_nil_iff]
    omega

/-- A reader that finds nothing, or data, finds no control-D put back. -/
theorem Inv.found (h : Inv t s) (eof : eofHeld t = true) :
    s.cons.r ≠ s.cons.w ∧ s.cons.next = ctrlD := by
  have char := h.held eof
  have ready : s.cons.r ≠ s.cons.w := by
    intro eq
    have all := h.discipline.ready.1 eq
    rw [all, getElem?_eq_none (le_refl _)] at char
    cases char
  rw [h.getElem? ready] at char
  exact ⟨ready, Option.some.inj char⟩

theorem Inv.law {r} (h : Inv t s) (placed : s.place p = .runs x) (st : Turn s p x r) :
    ReadLaw t s (.turn p, r.2) := by
  obtain ⟨counted, plain⟩ := h.readers p x (by rw [placed]; rfl)
  have only : ∀ q y, Act.turn p = .turn q → s.place q = .runs y → y = x := by
    intro q y same here
    cases same
    rw [placed] at here
    cases here
    rfl
  cases st with
  | full done =>
    refine ⟨⟨plain, counted.result⟩, fun _ => rfl, fun _ q y same here _ more => ?_⟩
    obtain rfl := only q y same here
    exact absurd more done
  | dead more empty | sleep more empty =>
    exact ⟨trivial, fun _ => rfl, fun eof => absurd empty (h.found eof).1⟩
  | held more ready char later =>
    have any := (counted.lt_target more).1 later
    refine ⟨⟨any, plain, counted.result⟩, fun _ => rfl, fun _ q y same here nil _ => ?_⟩
    obtain rfl := only q y same here
    exact absurd nil any
  | eof more ready char first =>
    have nil : x.got = [] := by
      by_contra any
      exact first ((counted.lt_target more).2 any)
    have zero : x.result = 0 := by
      have result := counted.result
      rw [nil] at result
      exact Int32.toInt_inj.1 result
    exact ⟨zero, fun _ => rfl, fun _ _ _ _ _ _ _ => congrArg Seen.eof zero⟩
  | line more ready char =>
    have apart : eofHeld t ≠ true := fun eof => absurd (char.symm.trans (h.found eof).2) (by decide)
    exact ⟨⟨⟨x.got, rfl, plain⟩, (counted.next more newline).result⟩, fun eof => absurd eof apart,
      fun eof => absurd eof apart⟩
  | copied more ready data char =>
    have apart : eofHeld t ≠ true := fun eof => data (h.found eof).2
    exact ⟨trivial, fun eof => absurd eof apart, fun eof => absurd eof apart⟩

/-- A step of which nothing is seen, and no turn of a reader with the lock. -/
theorem ReadLaw.quiet {a} (other : ∀ p x, a = .turn p → s.place p ≠ .runs x) :
    ReadLaw t s (a, .tau) :=
  ⟨trivial, fun _ => rfl, fun _ p x turn here => absurd here (other p x turn)⟩

/-- A step keeps the invariant, and a read keeps to the rules. -/
theorem Inv.step (h : Inv t s) (a : Act) :
    Yields (step s a) fun x => Inv ((a, x.2) :: t) x.1 ∧ ReadLaw t s (a, x.2) := by
  unfold Console.step
  cases a with
  | intr c =>
    refine .when fun _ => .some ⟨h.intr c fun q => ?_, .quiet fun p x no => by cases no⟩
    split
    · exact reader_wake _
    · rfl
  | read p n =>
    dsimp only
    split
    · refine .when fun _ => .some ⟨?_, .quiet fun p x no => by cases no⟩
      refine h.same rfl rfl rfl rfl h.held (readers_update h.readers fun y eq => ?_)
      cases eq
      refine ⟨⟨?_, ?_, fun no => absurd rfl no⟩, not_mem_nil⟩
      · exact (UInt32.add_zero _).symm
      · have lt := n.toInt_lt
        show n.toInt + 0 < 2147483648
        omega
    · exact .none
  | turn p =>
    dsimp only
    split
    · rename_i x placed
      have turn := readTurn_turn s p x
      exact .some ⟨h.turn (by rw [placed]; rfl) turn, h.law placed turn⟩
    · rename_i x placed
      refine .when fun _ => .some ⟨?_, .quiet fun q y same here => ?_⟩
      · refine h.same rfl rfl rfl rfl h.held (readers_update h.readers fun y eq => ?_)
        cases eq
        exact h.readers p x (by rw [placed]; rfl)
      · cases same
        rw [placed] at here
        cases here
    · exact .none
  | kill p =>
    refine .some ⟨?_, .quiet fun p x no => by cases no⟩
    refine h.same rfl rfl rfl rfl h.held (readers_update h.readers fun y eq => ?_)
    rw [reader_wake] at eq
    exact h.readers p y eq

theorem history_inv (run : History t s) : Inv t s := by
  refine run.invariant ?_ fun t s l s' _ h st => (h.step l.1 _ st).1
  refine ⟨⟨Ring.Holds.nil (by decide), rfl⟩, not_mem_nil, le_refl 0, rfl, ?_, ?_⟩
  · intro no
    cases no
  · intro p x no
    cases no

end steps

/-! ## Every run -/

/-- In every state of every run the indexes are in order and the readers have been given the
edited input; and every step from there of a read keeps to the rules of lines and ends. -/
theorem console_line_discipline {t : List (Act × Seen)} {s : State} (run : History t s) :
    Discipline t s ∧ ∀ l s', ByEvent step s l s' → ReadLaw t s l :=
  ⟨(history_inv run).discipline, fun l _ st => ((history_inv run).step l.1 _ st).2⟩

/-- Someone types `a`, a backspace, `bc`, control-D; a read of 9 takes `bc` and leaves the
control-D, for which the next read returns 0. -/
theorem console_line_discipline_typed : ∃ t s, History t s ∧ delivered t = [98, 99] ∧ taken t = 3 ∧
    (Discipline t s ∧ ∀ l s', ByEvent step s l s' → ReadLaw t s l) := by
  obtain ⟨t, s, run, got⟩ := events_reach step start
    [.intr 97, .intr 8, .intr 98, .intr 99, .intr 4, .read 0 9, .turn 0, .turn 0, .turn 0,
    .read 0 9, .turn 0] (P := fun t _ => delivered t = [98, 99] ∧ taken t = 3) (by decide +kernel)
  exact ⟨t, s, run, got.1, got.2, console_line_discipline run⟩

end OsProject.Xv6.Console
