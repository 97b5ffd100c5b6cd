import OsProject.Lib.Ring
import OsProject.Lib.Transition

/-! # Pipes

`pipewrite`, `piperead` and `pipeclose` on one pipe, by any number of processes.
A step of a process is one round of a loop under `pi->lock`, or the part of `sleep`
and `wakeup` that is under one `p->lock`: between two rounds `kkill` can come in, and
`wakeup` waits for the lock of a process that is on its way to sleep. -/
namespace OsProject.Xv6.Pipes
open Lib Lib.Transition List
open Function (update update_of_ne update_self)

def pipesize : Nat := 512

structure Pipe where
  data : Nat → UInt8
  nread : UInt32
  nwrite : UInt32
  readopen : Bool
  writeopen : Bool

/-- A call, with the bytes in the user's buffer for a write. -/
inductive Call where
  | write (buf : Nat → UInt8) (n : Int32)
  | read (n : Int32)
  | close (writable : Bool)

inductive Chan where
  | nread | nwrite
  deriving DecidableEq

/-- The channel that a call sleeps on. -/
def chan : Call → Chan
  | .write .. => .nwrite
  | .read _ | .close _ => .nread

/-- What comes after `wakeup`: `sleep` in `pipewrite`, or the release and the return. -/
inductive Next where
  | sleep (buf : Nat → UInt8) (n : Int32) (i : Nat)
  | ret (c : Call) (r : Int)

/-- Where a process is. At `acquire` a write has stored `i` bytes before it slept; at
`write` it had stored `since` bytes when it took the lock. -/
inductive Point where
  | idle
  | acquire (c : Call) (i : Nat)
  | write (buf : Nat → UInt8) (n : Int32) (i since : Nat)
  | read (n : Int32)
  | copy (n : Int32) (i : Nat)
  | waking (ch : Chan) (q : Nat) (next : Next)
  | dozing (c : Call) (i : Nat)
  | asleep (c : Call) (i : Nat)

structure Sys (np : Nat) where
  pipe : Pipe
  freed : Bool
  lock : Option (Fin np)
  killed : Fin np → Bool
  point : Fin np → Point

inductive Event (np : Nat) where
  | tau
  | call (p : Fin np) (c : Call)
  | store (p : Fin np) (b : UInt8)
  | consume (p : Fin np) (b : UInt8)
  | ret (p : Fin np) (c : Call) (r : Int)

variable {np : Nat}

def Sys.goto (s : Sys np) (p : Fin np) (pt : Point) : Sys np :=
  { s with point := update s.point p pt }

def Sys.release (s : Sys np) : Sys np := { s with lock := none }

/-- The process has given `pi->lock` back and still has its own lock. -/
def dozes : Point → Bool
  | .dozing .. => true
  | _ => false

/-- `p->state = RUNNABLE`, if the process sleeps on one of the channels. -/
def wake (on : Chan → Bool) : Point → Point
  | .asleep c i => if on (chan c) then .acquire c i else .asleep c i
  | pt => pt

/-- One round of the loop of `pipewrite`; `ok` says if `copyin` succeeds. -/
def pipewrite (s : Sys np) (p : Fin np) (ok : Bool) (buf : Nat → UInt8) (n : Int32)
    (i since : Nat) : Sys np × Event np :=
  let pi := s.pipe
  if i < n.toInt then
    if pi.readopen = false ∨ s.killed p = true then
      ((s.release).goto p .idle, .ret p (.write buf n) (-1))
    else if pi.nwrite = pi.nread + UInt32.ofNat pipesize then
      (s.goto p (.waking .nread 0 (.sleep buf n i)), .tau)
    else if ok then
      let data := update pi.data (pi.nwrite.toNat % pipesize) (buf i)
      ({ s with pipe := { pi with data := data, nwrite := pi.nwrite + 1 } }.goto p
        (.write buf n (i + 1) since), .store p (buf i))
    else (s.goto p (.waking .nread 0 (.ret (.write buf n) i)), .tau)
  else (s.goto p (.waking .nread 0 (.ret (.write buf n) i)), .tau)

/-- One round of the first loop of `piperead`. -/
def pipereadWait (s : Sys np) (p : Fin np) (n : Int32) : Sys np × Event np :=
  let pi := s.pipe
  if pi.nread = pi.nwrite ∧ pi.writeopen = true then
    if s.killed p then ((s.release).goto p .idle, .ret p (.read n) (-1))
    else ((s.release).goto p (.dozing (.read n) 0), .tau)
  else (s.goto p (.copy n 0), .tau)

/-- One round of the second loop; `ok` says if `copyout` succeeds. -/
def pipereadCopy (s : Sys np) (p : Fin np) (ok : Bool) (n : Int32) (i : Nat) : Sys np × Event np :=
  let pi := s.pipe
  if i < n.toInt then
    if pi.nread = pi.nwrite then (s.goto p (.waking .nwrite 0 (.ret (.read n) i)), .tau)
    else if ok then
      ({ s with pipe := { pi with nread := pi.nread + 1 } }.goto p (.copy n (i + 1)),
        .consume p (pi.data (pi.nread.toNat % pipesize)))
    else (s.goto p (.waking .nwrite 0 (.ret (.read n) (if i = 0 then -1 else i))), .tau)
  else (s.goto p (.waking .nwrite 0 (.ret (.read n) i)), .tau)

/-- `pipeclose` up to its `wakeup`. -/
def pipeclose (s : Sys np) (p : Fin np) (writable : Bool) : Sys np :=
  if writable then
    { s with pipe := { s.pipe with writeopen := false } }.goto p
      (.waking .nread 0 (.ret (.close true) 0))
  else
    { s with pipe := { s.pipe with readopen := false } }.goto p
      (.waking .nwrite 0 (.ret (.close false) 0))

/-- The call's own code, from where it has `pi->lock`. -/
def enter (s : Sys np) (p : Fin np) (i : Nat) : Call → Sys np
  | .write buf n => s.goto p (.write buf n i i)
  | .read n => s.goto p (.read n)
  | .close writable => pipeclose s p writable

/-- The end of `wakeup`; `pipeclose` frees the pipe when both ends are closed. -/
def finish (s : Sys np) (p : Fin np) : Next → Sys np × Event np
  | .sleep buf n i => ((s.release).goto p (.dozing (.write buf n) i), .tau)
  | .ret c r =>
    let freed := match c with
      | .close _ => !s.pipe.readopen && !s.pipe.writeopen
      | _ => s.freed
    ({ s.release with freed := freed }.goto p .idle, .ret p c r)

/-- What can happen next: a process calls, a process goes on, `kkill`, and the slot of a
process that is not in the pipe gets a new one. -/
inductive Act (np : Nat) where
  | call (p : Fin np) (c : Call)
  | go (p : Fin np) (ok : Bool)
  | kill (q : Fin np)
  | renew (q : Fin np)

def go (s : Sys np) (p : Fin np) (ok : Bool) : Option (Sys np × Event np) :=
  match s.point p with
  | .idle | .asleep .. => none
  | .acquire c i =>
    if s.lock = none ∧ s.freed = false then some (enter { s with lock := some p } p i c, .tau)
    else none
  | .write buf n i since => some (pipewrite s p ok buf n i since)
  | .read n => some (pipereadWait s p n)
  | .copy n i => some (pipereadCopy s p ok n i)
  | .waking ch q next =>
    if h : q < np then
      if dozes (s.point ⟨q, h⟩) then none
      else some
        ((s.goto ⟨q, h⟩ (wake (· = ch) (s.point ⟨q, h⟩))).goto p (.waking ch (q + 1) next), .tau)
    else some (finish s p next)
  | .dozing c i => some (s.goto p (.asleep c i), .tau)

def step (s : Sys np) : Act np → Option (Sys np × Event np)
  | .call p c =>
    match s.point p with
    | .idle => if s.freed then none else some (s.goto p (.acquire c 0), .call p c)
    | _ => none
  | .go p ok => go s p ok
  | .kill q =>
    if dozes (s.point q) then none
    else some ({ s with killed := update s.killed q true }.goto q
      (wake (fun _ => true) (s.point q)), .tau)
  | .renew q =>
    match s.point q with
    | .idle => some ({ s with killed := update s.killed q false }, .tau)
    | _ => none

/-- After `pipealloc`. -/
def pipealloc (data : Nat → UInt8) (killed : Fin np → Bool) : Sys np where
  pipe := ⟨data, 0, 0, true, true⟩
  freed := false
  lock := none
  killed := killed
  point _ := .idle

/-! ## What a step does -/

section steps
variable {s s' : Sys np} {e : Event np} {p m : Fin np}

@[simp] theorem goto_self (s : Sys np) (p : Fin np) (pt : Point) : (s.goto p pt).point p = pt :=
  update_self ..

theorem goto_of_ne {s : Sys np} {pt} (h : m ≠ p) : (s.goto p pt).point m = s.point m :=
  update_of_ne h ..

/-- The ways for a process to go on. -/
inductive Goes (s : Sys np) (p : Fin np) : Event np → Sys np → Prop
  | enterWrite {buf : Nat → UInt8} {n : Int32} {i : Nat}
      (pt : s.point p = .acquire (.write buf n) i)
      (free : s.lock = none) : Goes s p .tau ({ s with lock := some p }.goto p (.write buf n i i))
  | enterRead {n : Int32} {i : Nat} (pt : s.point p = .acquire (.read n) i) (free : s.lock = none) :
      Goes s p .tau ({ s with lock := some p }.goto p (.read n))
  | enterClose {writable : Bool} {i : Nat} (pt : s.point p = .acquire (.close writable) i)
      (free : s.lock = none) : Goes s p .tau (pipeclose { s with lock := some p } p writable)
  | writeFail {buf : Nat → UInt8} {n : Int32} {i since : Nat}
      (pt : s.point p = .write buf n i since)
      (left : i < n.toInt) (stop : s.pipe.readopen = false ∨ s.killed p = true) :
      Goes s p (.ret p (.write buf n) (-1)) (s.release.goto p .idle)
  | writeFull {buf : Nat → UInt8} {n : Int32} {i since : Nat}
      (pt : s.point p = .write buf n i since)
      (readers : s.pipe.readopen = true)
      (full : s.pipe.nwrite = s.pipe.nread + UInt32.ofNat pipesize) : Goes s p .tau
      (s.goto p (.waking .nread 0 (.sleep buf n i)))
  | writeByte {buf : Nat → UInt8} {n : Int32} {i since : Nat}
      (pt : s.point p = .write buf n i since) (readers : s.pipe.readopen = true)
      (alive : s.killed p = false) (room : s.pipe.nwrite ≠ s.pipe.nread + UInt32.ofNat pipesize) :
      Goes s p (.store p (buf i)) ({ s with pipe := { s.pipe with
        data := update s.pipe.data (s.pipe.nwrite.toNat % pipesize) (buf i)
        nwrite := s.pipe.nwrite + 1 } }.goto p (.write buf n (i + 1) since))
  | writeEnd {buf : Nat → UInt8} {n : Int32} {i since : Nat}
      (pt : s.point p = .write buf n i since) : Goes s p .tau
      (s.goto p (.waking .nread 0 (.ret (.write buf n) i)))
  | readKilled {n : Int32} (pt : s.point p = .read n) :
      Goes s p (.ret p (.read n) (-1)) (s.release.goto p .idle)
  | readSleep {n : Int32} (pt : s.point p = .read n) (empty : s.pipe.nread = s.pipe.nwrite)
      (writers : s.pipe.writeopen = true) : Goes s p .tau (s.release.goto p (.dozing (.read n) 0))
  | readReady {n : Int32} (pt : s.point p = .read n)
      (ready : s.pipe.nread = s.pipe.nwrite → s.pipe.writeopen = false) :
      Goes s p .tau (s.goto p (.copy n 0))
  | copyByte {n : Int32} {i : Nat} (pt : s.point p = .copy n i)
      (some : s.pipe.nread ≠ s.pipe.nwrite) : Goes s p
      (.consume p (s.pipe.data (s.pipe.nread.toNat % pipesize)))
        ({ s with pipe := { s.pipe with nread := s.pipe.nread + 1 } }.goto p (.copy n (i + 1)))
  | copyEnd {n : Int32} {i : Nat} {r : Int} (pt : s.point p = .copy n i)
      (zero : 0 < n.toInt → r = 0 → i = 0 ∧ s.pipe.nread = s.pipe.nwrite) :
      Goes s p .tau (s.goto p (.waking .nwrite 0 (.ret (.read n) r)))
  | wakeOne {ch : Chan} {q : Fin np} {next : Next} (pt : s.point p = .waking ch q next)
      (free : dozes (s.point q) = false) :
      Goes s p .tau ((s.goto q (wake (· = ch) (s.point q))).goto p (.waking ch (q + 1) next))
  | finishSleep {ch : Chan} {q : Nat} {buf : Nat → UInt8} {n : Int32} {i : Nat}
      (pt : s.point p = .waking ch q (.sleep buf n i)) (all : np ≤ q) :
      Goes s p .tau (s.release.goto p (.dozing (.write buf n) i))
  | finishRet {ch : Chan} {q : Nat} {c : Call} {r : Int} {freed : Bool}
      (pt : s.point p = .waking ch q (.ret c r)) (all : np ≤ q) :
      Goes s p (.ret p c r) ({ s.release with freed := freed }.goto p .idle)
  | doze {c : Call} {i : Nat} (pt : s.point p = .dozing c i) : Goes s p .tau
      (s.goto p (.asleep c i))

theorem pipewrite_goes {ok buf n i since} (pt : s.point p = .write buf n i since) :
    Goes s p (pipewrite s p ok buf n i since).2 (pipewrite s p ok buf n i since).1 := by
  unfold pipewrite
  dsimp only
  split
  · rename_i left
    split
    · rename_i stop
      exact .writeFail pt left stop
    rename_i go
    rw [not_or, Bool.not_eq_false, Bool.not_eq_true] at go
    split
    · rename_i full
      exact .writeFull pt go.1 full
    · rename_i room
      split
      · exact .writeByte pt go.1 go.2 room
      · exact .writeEnd pt
  · exact .writeEnd pt

theorem pipereadWait_goes {n} (pt : s.point p = .read n) :
    Goes s p (pipereadWait s p n).2 (pipereadWait s p n).1 := by
  unfold pipereadWait
  dsimp only
  split
  · rename_i wait
    split
    · exact .readKilled pt
    · exact .readSleep pt wait.1 wait.2
  · rename_i ready
    refine .readReady pt fun empty => ?_
    rw [← Bool.not_eq_true]
    exact fun writers => ready ⟨empty, writers⟩

theorem pipereadCopy_goes {ok n i} (pt : s.point p = .copy n i) :
    Goes s p (pipereadCopy s p ok n i).2 (pipereadCopy s p ok n i).1 := by
  unfold pipereadCopy
  dsimp only
  split
  · split
    · rename_i empty
      refine .copyEnd pt fun _ zero => ⟨?_, empty⟩
      omega
    · rename_i more
      split
      · exact .copyByte pt more
      · refine .copyEnd pt fun _ zero => ?_
        split at zero
        · exact absurd zero (by decide)
        · omega
  · refine .copyEnd pt fun pos zero => ?_
    omega

theorem finish_goes {ch q next} (pt : s.point p = .waking ch q next)
    (all : np ≤ q) : Goes s p (finish s p next).2 (finish s p next).1 := by
  cases next with
  | sleep => exact .finishSleep pt all
  | ret => exact .finishRet pt all

theorem go_goes {ok r} (h : go s p ok = some r) : Goes s p r.2 r.1 := by
  unfold go at h
  split at h
  · cases h
  · cases h
  · rename_i c i pt
    split at h
    · rename_i free
      cases h
      cases c with
      | write => exact .enterWrite pt free.1
      | read => exact .enterRead pt free.1
      | close => exact .enterClose pt free.1
    · cases h
  · rename_i pt
    cases h
    exact pipewrite_goes pt
  · rename_i pt
    cases h
    exact pipereadWait_goes pt
  · rename_i pt
    cases h
    exact pipereadCopy_goes pt
  · rename_i ch q next pt
    split at h
    · rename_i hq
      split at h
      · cases h
      · rename_i free
        cases h
        exact .wakeOne (q := ⟨q, hq⟩) pt (Bool.eq_false_iff.2 free)
    · rename_i all
      cases h
      exact finish_goes pt (Nat.le_of_not_lt all)
  · rename_i pt
    cases h
    exact .doze pt

/-- The points at which a process has `pi->lock`. -/
def holdsLock : Point → Bool
  | .write .. | .read _ | .copy .. | .waking .. => true
  | .idle | .acquire .. | .dozing .. | .asleep .. => false

theorem wake_none (pt : Point) : wake (fun _ => false) pt = pt := by
  cases pt <;> rfl

/-- Another process can only be woken. -/
theorem Goes.others (h : Goes s p e s') (ne : m ≠ p) : ∃ on, s'.point m = wake on (s.point m) := by
  cases h with
  | @wakeOne ch q next pt free =>
    rw [goto_of_ne ne]
    by_cases hq : m = q
    · rw [hq, goto_self]
      exact ⟨_, rfl⟩
    · rw [goto_of_ne hq]
      exact ⟨fun _ => false, (wake_none _).symm⟩
  | @enterClose writable i pt free =>
    refine ⟨fun _ => false, ?_⟩
    rw [wake_none]
    cases writable <;> exact goto_of_ne ne
  | _ =>
    refine ⟨fun _ => false, ?_⟩
    rw [wake_none]
    exact goto_of_ne ne

/-- A process without `pi->lock` changes nothing while another one has it. -/
theorem Goes.locked (h : Goes s p e s') (own : holdsLock (s.point p) = true → s.lock = some p)
    (ne : m ≠ p) (lock : s.lock = some m) : s'.pipe = s.pipe ∧ s'.lock = s.lock := by
  have apart : s.lock ≠ some p := by
    rw [lock]
    exact fun eq => ne (Option.some.inj eq)
  cases h with
  | enterWrite pt free | enterRead pt free | enterClose pt free =>
    rw [free] at lock
    cases lock
  | doze pt => exact ⟨rfl, rfl⟩
  | writeFail pt | writeFull pt | writeByte pt | writeEnd pt | readKilled pt | readSleep pt
      | readReady pt
  | copyByte pt | copyEnd pt | wakeOne pt | finishSleep pt | finishRet pt =>
    rw [pt] at own
    exact absurd (own rfl) apart

end steps

/-! ## Histories

Histories are newest first, as in `Run`; the bytes are oldest first. -/

def stores : List (Act np × Event np) → List UInt8
  | [] => []
  | (_, .store _ b) :: t => stores t ++ [b]
  | _ :: t => stores t

def consumed : List (Act np × Event np) → List UInt8
  | [] => []
  | (_, .consume _ b) :: t => consumed t ++ [b]
  | _ :: t => consumed t

/-- The bytes that `p` has stored since its last call. -/
def storedBy (p : Fin np) : List (Act np × Event np) → List UInt8
  | [] => []
  | (_, .call q _) :: t => if q = p then [] else storedBy p t
  | (_, .store q b) :: t => if q = p then storedBy p t ++ [b] else storedBy p t
  | _ :: t => storedBy p t

section fifo
variable {s s' : Sys np} {a : Act np} {e : Event np} {p m : Fin np} {t : List (Act np × Event np)}

/-- A write has stored its first `i` bytes. -/
def Wrote (t : List (Act np × Event np)) (p : Fin np) (i : Nat) : Call → Prop
  | .write buf _ => storedBy p t = (List.range i).map buf
  | _ => True

/-- What a return value says. -/
def Returns (t : List (Act np × Event np)) (pi : Pipe) (p : Fin np) (r : Int) : Call → Prop
  | .write buf _ => 0 ≤ r → storedBy p t = (List.range r.toNat).map buf
  | .read n => 0 < n.toInt → r = 0 → pi.writeopen = false ∧ pi.nread = pi.nwrite
  | .close _ => True

/-- What is known of a process at its point. -/
def Local (t : List (Act np × Event np)) (s : Sys np) (p : Fin np) : Point → Prop
  | .idle => True
  | .acquire c i | .dozing c i | .asleep c i => Wrote t p i c
  | .write buf n i _ => s.lock = some p ∧ Wrote t p i (.write buf n)
  | .read _ => s.lock = some p
  | .copy _ i => s.lock = some p ∧
      (i = 0 → s.pipe.nread = s.pipe.nwrite → s.pipe.writeopen = false)
  | .waking _ _ (.sleep buf n i) => s.lock = some p ∧ Wrote t p i (.write buf n)
  | .waking _ _ (.ret c r) => s.lock = some p ∧ Returns t s.pipe p r c

structure Fifo (t : List (Act np × Event np)) (s : Sys np) : Prop where
  queue : ∃ l, stores t = consumed t ++ l ∧
    Ring.Holds pipesize (2 ^ 32) s.pipe.data s.pipe.nread.toNat s.pipe.nwrite.toNat l
  at_point : ∀ p, Local t s p (s.point p)

theorem Fifo.own (h : Fifo t s) (hold : holdsLock (s.point p) = true) : s.lock = some p := by
  have here := h.at_point p
  cases pt : s.point p with
  | idle | acquire | dozing | asleep =>
    rw [pt] at hold
    cases hold
  | read => rw [pt] at here; exact here
  | write | copy => rw [pt] at here; exact here.1
  | waking ch q next =>
    rw [pt] at here
    cases next <;> exact here.1

/-- Waking a process changes nothing that is known of it. -/
theorem Local.frame {on pt t'} (h : Local t s p pt) (stored : storedBy p t' = storedBy p t)
    (locked : holdsLock pt = true → s'.pipe = s.pipe ∧ s'.lock = s.lock) :
    Local t' s' p (wake on pt) := by
  have wrote : ∀ {i c}, Wrote t p i c → Wrote t' p i c := by
    intro i c hw
    cases c with
    | write => exact stored.trans hw
    | read | close => trivial
  cases pt with
  | idle => trivial
  | acquire | dozing => exact wrote h
  | asleep c i =>
    rw [wake]
    split <;> exact wrote h
  | write => exact ⟨(locked rfl).2.trans h.1, wrote h.2⟩
  | read => exact (locked rfl).2.trans h
  | copy =>
    refine ⟨(locked rfl).2.trans h.1, ?_⟩
    rw [(locked rfl).1]
    exact h.2
  | waking ch q next =>
    cases next with
    | sleep => exact ⟨(locked rfl).2.trans h.1, wrote h.2⟩
    | ret c r =>
      refine ⟨(locked rfl).2.trans h.1, ?_⟩
      rw [(locked rfl).1]
      cases c with
      | write => exact fun pos => stored.trans (h.2 pos)
      | read => exact h.2
      | close => trivial

/-- The events that a step of `p` can have leave the stores of the others alone. -/
theorem Goes.stored (h : Goes s p e s') (ne : m ≠ p) : storedBy m ((a, e) :: t) = storedBy m t := by
  cases h with
  | writeByte => exact if_neg ne.symm
  | _ => rfl

/-- The process that goes on. -/
theorem Goes.at_point (h : Goes s p e s') (here : Local t s p (s.point p)) :
    Local ((a, e) :: t) s' p (s'.point p) := by
  cases h with
  | enterWrite pt free =>
    rw [pt] at here
    rw [goto_self]
    exact ⟨rfl, here⟩
  | enterRead pt free =>
    rw [goto_self]
    exact rfl
  | @enterClose writable i pt free =>
    cases writable <;> exact (goto_self _ p _).symm ▸ ⟨rfl, trivial⟩
  | writeFail pt | readKilled pt | finishRet pt =>
    rw [goto_self]
    trivial
  | @writeByte buf n i since pt =>
    rw [pt] at here
    rw [goto_self]
    refine ⟨here.1, ?_⟩
    show storedBy p ((a, .store p (buf i)) :: t) = _
    rw [storedBy, if_pos rfl, range_succ, map_append, here.2]
    rfl
  | writeEnd pt =>
    rw [pt] at here
    rw [goto_self]
    exact ⟨here.1, fun _ => here.2⟩
  | readSleep pt => rw [goto_self]; trivial
  | readReady pt ready =>
    rw [pt] at here
    rw [goto_self]
    exact ⟨here, fun _ => ready⟩
  | copyByte pt =>
    rw [pt] at here
    rw [goto_self]
    exact ⟨here.1, fun zero => absurd zero (Nat.succ_ne_zero _)⟩
  | copyEnd pt zero =>
    rw [pt] at here
    rw [goto_self]
    refine ⟨here.1, fun pos r => ?_⟩
    obtain ⟨first, empty⟩ := zero pos r
    exact ⟨here.2 first empty, empty⟩
  | @wakeOne ch q next pt free =>
    rw [pt] at here
    rw [goto_self]
    cases next <;> exact here
  | finishSleep pt => rw [pt] at here; rw [goto_self]; exact here.2
  | writeFull pt | doze pt => rw [pt] at here; rw [goto_self]; exact here

/-- The counters as numbers. -/
theorem toNat_succ (x : UInt32) : (x + 1).toNat = (x.toNat + 1) % 2 ^ 32 := UInt32.toNat_add x 1

theorem pipesize_lt : pipesize < 2 ^ 32 := by decide

theorem pipesize_dvd : pipesize ∣ 2 ^ 32 := by decide

/-- The queue is the bytes stored and not yet consumed. -/
theorem Goes.queue (h : Goes s p e s') (q : ∃ l, stores t = consumed t ++ l ∧
      Ring.Holds pipesize (2 ^ 32) s.pipe.data s.pipe.nread.toNat s.pipe.nwrite.toNat l) :
    ∃ l, stores ((a, e) :: t) = consumed ((a, e) :: t) ++ l ∧
      Ring.Holds pipesize (2 ^ 32) s'.pipe.data s'.pipe.nread.toNat s'.pipe.nwrite.toNat l := by
  obtain ⟨l, cut, ring⟩ := q
  cases h with
  | @writeByte buf n i since pt readers alive room =>
    have short : l.length ≠ pipesize := by
      intro full
      have eq := (ring.full_iff pipesize_lt).2 full
      exact room (UInt32.toNat_inj.1 eq)
    refine ⟨l ++ [buf i], ?_, ?_⟩
    · show stores t ++ [buf i] = consumed t ++ (l ++ [buf i])
      rw [cut, append_assoc]
    · have put := ring.put (b := buf i) pipesize_dvd (lt_of_le_of_ne ring.fits short)
      rwa [← toNat_succ] at put
  | copyByte pt more =>
    cases l with
    | nil => exact absurd (UInt32.toNat_inj.1 ((ring.empty_iff pipesize_lt).2 rfl)) more
    | cons b l =>
      refine ⟨l, ?_, ?_⟩
      · show stores t = (consumed t ++ [_]) ++ l
        rw [ring.head, cut, append_assoc]
        rfl
      · have take := ring.take pipesize_dvd
        rwa [← toNat_succ] at take
  | @enterClose writable => cases writable <;> exact ⟨l, cut, ring⟩
  | _ => exact ⟨l, cut, ring⟩

theorem Goes.fifo (h : Goes s p e s') (inv : Fifo t s) : Fifo ((a, e) :: t) s' where
  queue := h.queue inv.queue
  at_point := by
    intro m
    by_cases ne : m = p
    · rw [ne]
      exact h.at_point (inv.at_point p)
    · obtain ⟨on, woken⟩ := h.others ne
      rw [woken]
      exact (inv.at_point m).frame (h.stored ne) fun hold => h.locked inv.own ne (inv.own hold)

/-- A step that changes no byte and no point but of the process `q`. -/
theorem Fifo.still {q} (inv : Fifo t s) (pipe : s'.pipe = s.pipe) (lock : s'.lock = s.lock)
    (events : stores ((a, e) :: t) = stores t ∧ consumed ((a, e) :: t) = consumed t)
    (stored : ∀ m, m ≠ q → storedBy m ((a, e) :: t) = storedBy m t)
    (others : ∀ m, m ≠ q → s'.point m = s.point m) (here : Local ((a, e) :: t) s' q (s'.point q)) :
    Fifo ((a, e) :: t) s' where
  queue := by
    rw [events.1, events.2, pipe]
    exact inv.queue
  at_point := by
    intro m
    by_cases ne : m = q
    · rw [ne]
      exact here
    · rw [others m ne, ← wake_none (s.point m)]
      exact (inv.at_point m).frame (stored m ne) fun _ => ⟨pipe, lock⟩

theorem step_fifo (h : ByEvent step s (a, e) s') (inv : Fifo t s) : Fifo ((a, e) :: t) s' := by
  unfold ByEvent step at h
  cases a with
  | go p ok => exact (go_goes h).fifo inv
  | call p c =>
    dsimp only at h
    split at h
    · split at h
      · cases h
      · cases h
        refine inv.still (q := p) rfl rfl ⟨rfl, rfl⟩ (fun m ne => if_neg ne.symm)
          (fun m ne => goto_of_ne ne) ?_
        rw [goto_self]
        cases c with
        | write => exact if_pos rfl
        | read | close => trivial
    · cases h
  | kill q =>
    dsimp only at h
    split at h
    · cases h
    · cases h
      refine inv.still (q := q) rfl rfl ⟨rfl, rfl⟩ (fun _ _ => rfl) (fun m ne => goto_of_ne ne) ?_
      rw [goto_self]
      exact (inv.at_point q).frame rfl fun _ => ⟨rfl, rfl⟩
  | renew q =>
    dsimp only at h
    split at h
    · rename_i pt
      cases h
      refine inv.still (q := q) rfl rfl ⟨rfl, rfl⟩ (fun _ _ => rfl) (fun _ _ => rfl) ?_
      rw [show Sys.point _ q = _ from pt]
      trivial
    · cases h

/-- What a call's return says holds when it returns. -/
theorem Goes.returns {q c r} (h : Goes s p (.ret q c r) s')
    (here : Local t s p (s.point p)) : Returns ((a, .ret q c r) :: t) s'.pipe q r c := by
  cases h with
  | writeFail pt => exact fun pos => absurd pos (by decide)
  | readKilled pt => exact fun _ zero => absurd zero (by decide)
  | finishRet pt =>
    rw [pt] at here
    cases c with
    | write => exact here.2
    | read => exact here.2
    | close => trivial

theorem step_returns {c r} (h : ByEvent step s (a, .ret p c r) s') (inv : Fifo t s) :
    Returns ((a, .ret p c r) :: t) s'.pipe p r c := by
  unfold ByEvent step at h
  cases a with
  | go q ok => exact (go_goes h).returns (inv.at_point q)
  | call q c =>
    dsimp only at h
    split at h
    · split at h
      · cases h
      · cases (stepped h).2
    · cases h
  | kill q =>
    dsimp only at h
    split at h
    · cases h
    · cases (stepped h).2
  | renew q =>
    dsimp only at h
    split at h
    · cases (stepped h).2
    · cases h

variable {data : Nat → UInt8} {killed : Fin np → Bool}

theorem run_fifo (run : Run (ByEvent step) (pipealloc data killed) t s) : Fifo t s :=
  run.invariant ⟨⟨[], rfl, Ring.Holds.nil (by decide)⟩, fun _ => trivial⟩
    fun _ _ _ _ _ inv st => step_fifo st inv

/-- The difference of the counters is the length of the queue. -/
theorem Fifo.ahead (inv : Fifo t s) :
    ∃ l, stores t = consumed t ++ l ∧ (s.pipe.nwrite - s.pipe.nread).toNat = l.length ∧
      l.length ≤ pipesize := by
  obtain ⟨l, cut, ring⟩ := inv.queue
  refine ⟨l, cut, ?_, ring.fits⟩
  have small := pipesize_lt
  have fits := ring.fits
  have first := ring.first
  rw [UInt32.toNat_sub, ring.next]
  omega

end fifo

/-- A pipe carries the bytes in order, however often its counters wrap: what the reads
have consumed is the beginning of what the writes have stored. A write that returns
`r ≥ 0` has stored its first `r` bytes, and a read returns 0 at the end of the stream
only. -/
theorem pipe_stream (data : Nat → UInt8) (killed : Fin np → Bool) (t : List (Act np × Event np))
    (s : Sys np) (run : Run (ByEvent step) (pipealloc data killed) t s) :
    (s.pipe.nwrite - s.pipe.nread).toNat ≤ pipesize ∧ consumed t <+: stores t ∧
    ∀ t' a p r, (∀ buf n, t = (a, .ret p (.write buf n) r) :: t' → 0 ≤ r →
        storedBy p t' = (List.range r.toNat).map buf) ∧
      ∀ n, t = (a, .ret p (.read n) r) :: t' → 0 < n.toInt → r = 0 →
        s.pipe.writeopen = false ∧ consumed t = stores t := by
  have inv := run_fifo run
  obtain ⟨l, cut, ahead, fits⟩ := inv.ahead
  refine ⟨ahead ▸ fits, ⟨l, cut.symm⟩, fun t' a p r => ⟨?_, ?_⟩⟩
  · rintro buf n rfl
    cases run with
    | cons before st => exact step_returns st (run_fifo before)
  · rintro n rfl pos zero
    cases run with
    | cons before st =>
      obtain ⟨closed, empty⟩ := step_returns st (run_fifo before) pos zero
      refine ⟨closed, ?_⟩
      rw [empty, UInt32.sub_self] at ahead
      rw [cut, length_eq_zero_iff.1 ahead.symm, append_nil]

instance neZero_two : NeZero 2 := ⟨by decide⟩

/-- One process writes two bytes and another one reads them. -/
def writeThenRead : List (Act 2) :=
  .call 0 (.write (fun i => UInt8.ofNat (i + 7)) 2) :: List.replicate 7 (.go 0 true) ++
    .call 1 (.read 2) :: List.replicate 8 (.go 1 true)

theorem pipe_stream_bytes :
    ∃ t, ∃ s : Sys 2, Run (ByEvent step) (pipealloc (fun _ => 0) fun _ => false) t s ∧
      stores t = [7, 8] ∧ (s.pipe.nwrite - s.pipe.nread).toNat ≤ pipesize ∧
      consumed t = [7, 8] ∧ consumed t <+: stores t := by
  obtain ⟨t, s, run, stored, read⟩ :=
    events_reach step (pipealloc (fun _ => 0) fun _ => false) writeThenRead
      (P := fun t _ => stores t = [7, 8] ∧ consumed t = [7, 8]) (by decide)
  obtain ⟨room, order, _⟩ := pipe_stream _ _ t s run
  exact ⟨t, s, run, stored, room, read, order⟩

end OsProject.Xv6.Pipes
