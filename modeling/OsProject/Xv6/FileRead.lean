import OsProject.Xv6.Console
import OsProject.Xv6.CopyOut
import OsProject.Xv6.FileBytes
import OsProject.Xv6.Files
import OsProject.Xv6.Pipes

/-! # Reading into user memory

`sys_read` with the three readers behind it. `n` is an `int` on the way from the
call to `piperead` and `consoleread`, which take a negative one for 0; `readi`
takes an unsigned one. -/
namespace OsProject.Xv6.FileRead
open Inode BlockOwnership Contents FileBytes List
open Memory CopyOut Lib.Transition
open Pipes (Pipe pipesize)
open Console (ctrlD newline Reader)
open Files (nofile ndev)

/-! ## The readers -/

/-- The second loop of `piperead`, under `pi->lock`. -/
def pipereadLoop (ok : Nat → Bool) (addr : Nat) (n : Int32) :
    Nat → Nat → Pipe → AddrSpace → Int × Pipe × AddrSpace
  | 0, i, pi, m => (i, pi, m)
  | fuel + 1, i, pi, m =>
    if i < n.toInt then
      if pi.nread = pi.nwrite then (i, pi, m)
      else match copyout ok m (addr + i) [pi.data (pi.nread.toNat % pipesize)] with
        | (m, false) => (if i = 0 then -1 else i, pi, m)
        | (m, true) => pipereadLoop ok addr n fuel (i + 1) { pi with nread := pi.nread + 1 } m
    else (i, pi, m)

/-- `pi` is the pipe when the first loop is left, by a process that is killed or not. -/
def piperead (ok : Nat → Bool) (pi : Pipe) (killed : Bool) (addr : Nat) (n : Int32)
    (m : AddrSpace) : Int × Pipe × AddrSpace :=
  if killed then (-1, pi, m) else pipereadLoop ok addr n n.toInt.toNat 0 pi m

/-- The loop of `consoleread`. The character that it takes next is `input used`,
or the process is killed while it waits for one. The result is that of the call,
with the number of characters that are gone from the buffer. -/
def consolereadLoop (ok : Nat → Bool) (input : Nat → Option UInt8) (target : UInt32) :
    Nat → Nat → Nat → Int32 → AddrSpace → Int × Nat × AddrSpace
  | 0, used, _, n, m => ((target - n.toUInt32).toInt32.toInt, used, m)
  | fuel + 1, used, dst, n, m =>
    let result := (target - n.toUInt32).toInt32.toInt
    if 0 < n.toInt then
      match input used with
      | none => (-1, used, m)
      | some c =>
        if c = ctrlD then (result, if n.toUInt32 < target then used else used + 1, m)
        else match copyout ok m dst [c] with
          | (m, false) => (result, used + 1, m)
          | (m, true) =>
            let n := n - 1
            if c = newline then ((target - n.toUInt32).toInt32.toInt, used + 1, m)
            else consolereadLoop ok input target fuel (used + 1) (dst + 1) n m
    else (result, used, m)

def consoleread (ok : Nat → Bool) (input : Nat → Option UInt8) (addr : Nat) (n : Int32)
    (m : AddrSpace) : Int × Nat × AddrSpace :=
  consolereadLoop ok input n.toUInt32 n.toInt.toNat 0 addr n m

/-- `readi` with `user_dst = 1`. -/
def readi (g : Super) (ok : Nat → Bool) (d : Disk) (ip : Dinode) (dst : Nat) (off n : UInt32)
    (mem : AddrSpace) : Except Panic (Option Nat × AddrSpace × Disk × Dinode) :=
  readTo g d ip (fun tot bytes mem => copyout ok mem (dst + tot) bytes) off n mem

def console : Int16 := 1

/-- What an open file refers to. A pipe is as `piperead` finds it after it has
waited, and a device comes with the input that `consoleread` gets. -/
inductive Kind where
  | pipe (pi : Pipe) (killed : Bool)
  | device (major : Int16) (input : Nat → Option UInt8)
  | inode (d : Disk) (ip : Dinode) (off : UInt32)

structure File where
  readable : Bool
  kind : Kind

/-- The console is the one device that `devsw` has a `read` for. -/
def fileread (g : Super) (ok : Nat → Bool) (f : File) (addr : Nat) (n : Int32) (m : AddrSpace) :
    Except Panic (Int × File × AddrSpace) :=
  if f.readable = false then .ok (-1, f, m)
  else match f.kind with
    | .pipe pi killed =>
      let r := piperead ok pi killed addr n m
      .ok (r.1, { f with kind := .pipe r.2.1 killed }, r.2.2)
    | .device major input =>
      if major < 0 ∨ ndev ≤ major ∨ major ≠ console then .ok (-1, f, m)
      else
        let r := consoleread ok input addr n m
        .ok (r.1, { f with kind := .device major fun k => input (r.2.1 + k) }, r.2.2)
    | .inode d ip off => do
      let (tot, m, d, ip) ← readi g ok d ip addr off n.toUInt32 m
      -- `int r` of the `uint` that `readi` returns, where -1 is the failure
      let r := (tot.elim (-1) UInt32.ofNat : UInt32).toInt32
      return (r.toInt, { f with kind := .inode d ip (if 0 < r then off + r.toUInt32 else off) }, m)

theorem fd_lt {fd : Int} (h : 0 ≤ fd ∧ fd < nofile) : fd.toNat < nofile := by omega

/-- `ofile` are the open files of the process, of which `argfd` picks one. -/
def sysRead (g : Super) (ok : Nat → Bool) (ofile : Fin nofile → Option File) (fd : Int32)
    (p : UInt64) (n : Int32) (m : AddrSpace) : Except Panic (Int × Option File × AddrSpace) :=
  if h : 0 ≤ fd.toInt ∧ fd.toInt < nofile then
    match ofile ⟨fd.toInt.toNat, fd_lt h⟩ with
    | none => .ok (-1, none, m)
    | some f => do
      let (r, f, m) ← fileread g ok f p.toNat n m
      return (r, some f, m)
  else .ok (-1, none, m)

/-! ## Pipes and the console -/

/-- A read of `n` bytes to `addr` that turned `m` into `m'` and returned `r` kept to its buffer. -/
structure AtMost (addr : Nat) (n : Int32) (m m' : AddrSpace) (r : Int) : Prop where
  result : r ≤ max n.toInt 0
  outside : ∀ x, x < addr ∨ addr + n.toInt.toNat ≤ x → Extends m m' x

section bounds
variable {ok : Nat → Bool} {addr : Nat} {n : Int32} {m : AddrSpace}

theorem AtMost.fail : AtMost addr n m m (-1) :=
  ⟨Int.le_trans (by decide) (Int.le_max_right _ _), fun x _ => .refl m x⟩

/-- A copy of one byte changes no other. -/
theorem copyout_one {c m' b} (h : copyout ok m addr [c] = (m', b)) {x}
    (ne : x ≠ addr) : Extends m m' x := by
  obtain ⟨k, took, -⟩ := copyout_took ok m addr [c]
  rw [h] at took
  have le := took.le
  rw [length_singleton] at le
  exact took.rest x (by omega)

theorem pipereadLoop_atMost (fuel : Nat) :
    ∀ (i : Nat) (pi : Pipe) (m : AddrSpace), i ≤ n.toInt.toNat →
    (pipereadLoop ok addr n fuel i pi m).1 ≤ n.toInt.toNat ∧
      ∀ x, x < addr + i ∨ addr + n.toInt.toNat ≤ x →
        Extends m (pipereadLoop ok addr n fuel i pi m).2.2 x := by
  induction fuel with
  | zero => exact fun i pi m le => ⟨Int.ofNat_le.2 le, fun x _ => .refl m x⟩
  | succ fuel ih =>
    intro i pi m le
    have stop : (i : Int) ≤ n.toInt.toNat ∧ ∀ x, x < addr + i ∨ addr + n.toInt.toNat ≤ x →
      Extends m m x :=
      ⟨Int.ofNat_le.2 le, fun x _ => .refl m x⟩
    rw [pipereadLoop]
    split
    · split
      · exact stop
      split
      · rename_i m' copy
        refine ⟨?_, fun x out => copyout_one copy (by omega)⟩
        split <;> omega
      · rename_i m' copy
        obtain ⟨result, rest⟩ := ih (i + 1) { pi with nread := pi.nread + 1 } m' (by omega)
        exact ⟨result, fun x out => (copyout_one copy (by omega)).trans (rest x (by omega))⟩
    · exact stop

/-- The loop is that of `Pipes`, where `p` goes through it one round at a time. -/
theorem pipereadLoop_run {np} (p : Fin np) (fuel : Nat) :
    ∀ (i : Nat) (s : Pipes.Sys np) (m : AddrSpace), s.point p = .copy n i → n.toInt ≤ i + fuel →
    ∃ t s', Run (ByEvent Pipes.step) s t s' ∧
      s'.pipe = (pipereadLoop ok addr n fuel i s.pipe m).2.1 ∧
      s'.point p = .waking .nwrite 0
        (.ret (.read n) (pipereadLoop ok addr n fuel i s.pipe m).1) := by
  have round {i s} (pt : s.point p = .copy n i) (b : Bool) :
      ByEvent Pipes.step s (.go p b, (Pipes.pipereadCopy s p b n i).2)
      (Pipes.pipereadCopy s p b n i).1 := by
    show Pipes.go s p b = _
    rw [Pipes.go, pt]
  have stop {i s} (pt : s.point p = .copy n i) (b : Bool) (r : Int)
      (eq : Pipes.pipereadCopy s p b n i =
      (s.goto p (.waking .nwrite 0 (.ret (.read n) r)), .tau)) : ∃ t s',
      Run (ByEvent Pipes.step) s t s' ∧ s'.pipe = s.pipe ∧
        s'.point p = .waking .nwrite 0 (.ret (.read n) r) := by
    have st := round pt b
    rw [eq] at st
    exact ⟨_, _, .single st, rfl, Pipes.goto_self ..⟩
  induction fuel with
  | zero => exact fun i s m pt enough => stop pt true i (if_neg (by omega))
  | succ fuel ih =>
    intro i s m pt enough
    rw [pipereadLoop]
    split
    · rename_i more
      split
      · rename_i empty
        exact stop pt true i ((if_pos more).trans (if_pos empty))
      rename_i some_left
      split
      · rename_i m' copy
        exact stop pt false _ ((if_pos more).trans (if_neg some_left))
      · rename_i m' copy
        have st := round pt true
        rw [Pipes.pipereadCopy, if_pos more, if_neg some_left, if_pos rfl] at st
        obtain ⟨t, s', run, same⟩ := ih (i + 1) _ m' (Pipes.goto_self ..) (by omega)
        exact ⟨_, s', (Run.single st).trans run, same⟩
    · rename_i done
      exact stop pt true i (if_neg done)

theorem piperead_atMost (pi : Pipe) (killed : Bool) :
    AtMost addr n m (piperead ok pi killed addr n m).2.2 (piperead ok pi killed addr n m).1 := by
  unfold piperead
  split
  · exact .fail
  · obtain ⟨result, rest⟩ := pipereadLoop_atMost (n := n) n.toInt.toNat 0 pi m (Nat.zero_le _)
    exact ⟨by omega, fun x out => rest x (by omega)⟩

/-- A round of the loop is a turn in `Console`, where every copy succeeds. -/
theorem consolereadLoop_turn {input s p fuel used dst m'} {x : Reader}
    (next : input used = if s.cons.r = s.cons.w then none else some s.cons.next)
    (awake : s.cons.r = s.cons.w → s.killed p = true)
    (copy : copyout ok m dst [s.cons.next] = (m', true)) :
    consolereadLoop ok input x.target (fuel + 1) used dst x.n m =
      match (Console.readTurn s p x).2 with
      | .copied _ => consolereadLoop ok input x.target fuel (used + 1) (dst + 1) (x.n - 1) m'
      | .line v _ => (v.toInt, used + 1, m')
      | .eof v => (v.toInt, used + 1, m)
      | .full v _ | .held v _ | .dead v => (v.toInt, used, m)
      | .tau => (0, used, m) := by
  unfold Console.Cons.next at next copy
  rw [consolereadLoop, Console.readTurn, next]
  dsimp only
  generalize s.cons.buf (s.cons.r.toNat % Console.inputBufSize) = c at copy ⊢
  by_cases more : 0 < x.n.toInt
  · rw [if_pos more, if_pos more]
    by_cases empty : s.cons.r = s.cons.w
    · rw [if_pos empty, if_pos empty, if_pos (awake empty)]
      rfl
    rw [if_neg empty, if_neg empty]
    by_cases eof : c = ctrlD
    · simp only [if_pos eof]
      split <;> rfl
    simp only [if_neg eof, copy]
    by_cases line : c = newline
    · simp only [if_pos line]
      rfl
    · simp only [if_neg line]
  · rw [if_neg more, if_neg more]
    rfl

theorem consolereadLoop_atMost (ok : Nat → Bool) (input : Nat → Option UInt8) (fuel : Nat) :
    ∀ (used dst : Nat) (x : Reader) (m : AddrSpace), x.Counted →
    (consolereadLoop ok input x.target fuel used dst x.n m).1 ≤ x.got.length + x.n.toInt.toNat ∧
      ∀ y, y < dst ∨ dst + x.n.toInt.toNat ≤ y →
        Extends m (consolereadLoop ok input x.target fuel used dst x.n m).2.2 y := by
  induction fuel with
  | zero =>
    intro used dst x m counted
    refine ⟨?_, fun y _ => .refl m y⟩
    have := counted.result
    show x.result.toInt ≤ _
    omega
  | succ fuel ih =>
    intro used dst x m counted
    have got : x.result.toInt ≤ x.got.length + x.n.toInt.toNat := by
      have := counted.result
      omega
    rw [consolereadLoop]
    dsimp only
    split
    swap
    · exact ⟨got, fun y _ => .refl m y⟩
    rename_i more
    split
    · exact ⟨by dsimp only; omega, fun y _ => .refl m y⟩
    rename_i c _
    split
    · exact ⟨got, fun y _ => .refl m y⟩
    split
    · rename_i m' copy
      exact ⟨got, fun y out => copyout_one copy (by omega)⟩
    · rename_i m' copy
      have next := counted.next more c
      have minus := Console.toInt_sub_one more
      split
      · have done := next.result
        rw [length_append, length_singleton] at done
        refine ⟨?_, fun y out => copyout_one copy (by omega)⟩
        refine Int.le_trans (Int.le_of_eq done) ?_
        omega
      · obtain ⟨result, rest⟩ := ih (used + 1) (dst + 1) _ m' next
        dsimp only at result rest
        rw [length_append, length_singleton, minus] at result
        exact ⟨by omega, fun y out => (copyout_one copy (by omega)).trans (rest y (by omega))⟩

theorem consoleread_atMost (input : Nat → Option UInt8) :
    AtMost addr n m (consoleread ok input addr n m).2.2 (consoleread ok input addr n m).1 := by
  have counted : (⟨n, n.toUInt32, []⟩ : Reader).Counted :=
    ⟨(UInt32.add_zero _).symm, by have := n.toInt_lt; simpa using this, fun h => absurd rfl h⟩
  obtain ⟨result, rest⟩ := consolereadLoop_atMost ok input n.toInt.toNat 0 addr _ m counted
  refine ⟨Int.le_trans result ?_, rest⟩
  dsimp only [length_nil]
  omega

end bounds

/-! ## Files on the disk -/

section inode
variable {g : Super} {ok : Nat → Bool} {d : Disk} {ip : Dinode} {l : List UInt8}

theorem copyout_copying (ok : Nat → Bool) (dst : Nat) :
    Copying (fun tot bytes mem => copyout ok mem (dst + tot) bytes) fun tot l mem =>
      Took ok mem (dst + tot) l where
  nil tot mem := .nil
  stop := by
    intro tot l mem mem' rest _ copy
    obtain ⟨k, took, all⟩ := copyout_took ok mem (dst + tot) l
    rw [copy] at took all
    have short : k < l.length := lt_of_le_of_ne took.le fun eq => Bool.false_ne_true (all.2 eq)
    exact ⟨k, short, took.longer short⟩
  more := by
    intro tot l rest mem mem' mem'' k copy done
    obtain ⟨k', took, all⟩ := copyout_took ok mem (dst + tot) l
    rw [copy] at took all
    obtain rfl := all.1 rfl
    exact took.append (by rw [add_assoc]; exact done)

/-- `readi` copies the bytes out as far as the memory takes them. -/
theorem readi_took (g : Super) (ok : Nat → Bool) (upto : Upto d.block ip ip.size.toNat) (dst : Nat)
    (off n : UInt32) (mem : AddrSpace) :
    ∃ k mem', Took ok mem dst (part (contents d.block ip) off n) mem' k ∧
      readi g ok d ip dst off n mem =
        .ok (if k = (part (contents d.block ip) off n).length then some k else none, mem', d, ip) :=
  readTo_done (copyout_copying ok dst) (holds_contents upto) contents_length off n mem

end inode

/-! ## Every file -/

section every
variable {g : Super} {ok : Nat → Bool} {f : File} {addr : Nat} {n : Int32} {m m' : AddrSpace}
    {l : List UInt8} {k : Nat}

/-- The blocks below the size of a file are there. -/
def File.Whole (f : File) : Prop :=
  ∀ d ip off, f.kind = .inode d ip off → Upto d.block ip ip.size.toNat

/-- The memory shows `b` at `a`; an address that is not mapped yet shows 0. -/
def Showing (m : AddrSpace) (a : Nat) (b : UInt8) : Prop :=
  m.read a = some b ∨ (m.read a = none ∧ b = 0)

/-- The memory from `a` on does not take all of `l`, and what it takes is there already. -/
def Unseen (ok : Nat → Bool) (m : AddrSpace) (a : Nat) (l : List UInt8) : Prop :=
  ∃ k, k < l.length ∧ (∀ i, i < k → takes ok m (a + i) = true ∧ Showing m (a + i) (l.getD i 0)) ∧
    takes ok m (a + k) = false

/-- A negative length for a file on the disk, whose rest `readi` then reads, has no effect. -/
def Harmless (ok : Nat → Bool) (f : File) (addr : Nat) (n : Int32) (m : AddrSpace) : Prop :=
  ∀ d ip off, f.readable = true → f.kind = .inode d ip off →
    0 ≤ n.toInt ∨ -n.toInt ≤ off.toNat ∨ ip.size.toNat ≤ off.toNat ∨
      Unseen ok m addr ((contents d.block ip).drop off.toNat)

/-- Where a byte has been stored. -/
theorem extends_iff (took : Took ok m addr l m' k) {i} (lt : i < k) :
    Extends m m' (addr + i) ↔ Showing m (addr + i) (l.getD i 0) := by
  have stored := took.bytes i lt
  constructor
  · rintro ⟨-, eq | ⟨fresh, zero, -⟩⟩
    · exact .inl (eq.symm.trans stored)
    · exact .inr ⟨fresh, Option.some.inj (stored.symm.trans zero)⟩
  · refine fun shown => ⟨(took.rest _ (.inr (le_refl _))).size, ?_⟩
    rcases shown with eq | ⟨fresh, zero⟩
    · exact .inl (stored.trans eq.symm)
    · refine .inr ⟨fresh, stored.trans (congrArg some zero), ?_⟩
      have taken := took.taken i lt
      rw [takes, Option.map_eq_none_iff.1 fresh, Option.elim_none] at taken
      simp only [Bool.and_eq_true, decide_eq_true_iff] at taken
      exact taken.2.1

/-- A copy changes nothing and fails if and only if it cannot be seen. -/
theorem unseen_iff (took : Took ok m addr l m' k) :
    (k < l.length ∧ ∀ x, Extends m m' x) ↔ Unseen ok m addr l := by
  constructor
  · rintro ⟨short, all⟩
    exact ⟨k, short, fun i lt => ⟨took.taken i lt, (extends_iff took lt).1 (all _)⟩,
      took.stops short⟩
  · rintro ⟨j, short, shown, stops⟩
    obtain rfl : k = j := by
      rcases lt_trichotomy k j with lt | eq | gt
      · have := took.stops (lt_trans lt short)
        rw [(shown k lt).1] at this
        cases this
      · exact eq
      · have := took.taken j gt
        rw [stops] at this
        cases this
    refine ⟨short, fun x => ?_⟩
    by_cases inside : addr ≤ x ∧ x < addr + k
    · have at_x := (extends_iff took (by omega)).2 (shown (x - addr) (by omega)).2
      rwa [show addr + (x - addr) = x by omega] at at_x
    · exact took.rest x (by omega)

/-- What `fileread` of a file on the disk does with the result of `readi`. -/
theorem inode_read (g : Super) (ok : Nat → Bool) (addr : Nat) (n : Int32) (m : AddrSpace) {d ip off}
    (readable : f.readable = true)
    (kind : f.kind = .inode d ip off) (upto : Upto d.block ip ip.size.toNat) :
    ∃ k m' f', Took ok m addr (part (contents d.block ip) off n.toUInt32) m' k ∧
      fileread g ok f addr n m =
        .ok (if k = (part (contents d.block ip) off n.toUInt32).length then (k : Int) else -1,
          f', m') := by
  obtain ⟨k, m', took, eq⟩ := readi_took g ok upto addr off n.toUInt32 m
  have small : k < 2147483648 := by
    have max : maxfile * bsize < 2147483648 := by decide
    have := upto_le upto
    have le := took.le
    have : (part (contents d.block ip) off n.toUInt32).length ≤ ip.size.toNat := by
      unfold part
      split
      · rw [length_take, length_drop, contents_length]
        omega
      · exact Nat.zero_le _
    omega
  have yes : ¬ f.readable = false := by
    rw [readable]
    decide
  rw [fileread, if_neg yes, kind]
  dsimp only
  rw [eq]
  by_cases all : k = (part (contents d.block ip) off n.toUInt32).length
  · have result : (UInt32.ofNat k).toInt32.toInt = k := Int32.toInt_ofNat_of_lt small
    refine ⟨k, m', ?_, took, ?_⟩
    rotate_left
    · rw [if_pos all, if_pos all, ← result]
      rfl
  · refine ⟨k, m', ?_, took, ?_⟩
    rotate_left
    · rw [if_neg all, if_neg all]
      rfl

/-- The bytes that `readi` reads for a negative length. -/
theorem part_negative {off} (neg : n.toInt < 0) (short : l.length ≤ maxfile * bsize) :
    part l off n.toUInt32 = if off.toNat < -n.toInt then l.drop off.toNat else [] := by
  have wide : (n.toUInt32.toNat : Int) = 2 ^ 32 + n.toInt := by
    have cond : n.toInt = if 2 * n.toBitVec.toNat < 2 ^ 32 then (n.toBitVec.toNat : Int) else _ :=
      BitVec.toInt_eq_toNat_cond n.toBitVec
    show (n.toBitVec.toNat : Int) = _
    split at cond <;> omega
  have low := n.le_toInt
  have max : maxfile * bsize < 2147483648 := by decide
  unfold part
  by_cases nowrap : off.toNat < -n.toInt
  · rw [if_pos nowrap, if_pos (by omega), take_of_length_le]
    rw [length_drop]
    omega
  · rw [if_neg nowrap, if_neg (by omega)]

theorem part_le {off n} : (part l off n).length ≤ n.toNat := by
  unfold part
  split
  · rw [length_take]
    exact Nat.min_le_left ..
  · exact Nat.zero_le _

theorem harmless_iff {d ip off} (readable : f.readable = true)
    (kind : f.kind = .inode d ip off) : Harmless ok f addr n m ↔
      (0 ≤ n.toInt ∨ -n.toInt ≤ off.toNat ∨ ip.size.toNat ≤ off.toNat ∨
        Unseen ok m addr ((contents d.block ip).drop off.toNat)) := by
  refine ⟨fun h => h d ip off readable kind, fun h d' ip' off' _ kind' => ?_⟩
  rw [kind] at kind'
  cases kind'
  exact h

/-- `fileread` keeps to its buffer, but for a negative length that has an effect. -/
theorem fileread_atMost_iff (g : Super) (ok : Nat → Bool) (addr : Nat) (n : Int32) (m : AddrSpace)
    (whole : f.Whole) : ∃ r f' m', fileread g ok f addr n m = .ok (r, f', m') ∧
    (AtMost addr n m m' r ↔ Harmless ok f addr n m) := by
  cases readable : f.readable with
  | false =>
    refine ⟨-1, f, m, if_pos readable, fun _ d ip off yes => ?_, fun _ => .fail⟩
    rw [readable] at yes
    cases yes
  | true =>
    have yes : ¬ f.readable = false := by
      rw [readable]
      decide
    cases kind : f.kind with
    | pipe pi killed =>
      refine ⟨_, _, _, by rw [fileread, if_neg yes, kind], fun _ d ip off _ other => ?_,
        fun _ => piperead_atMost pi killed⟩
      rw [kind] at other
      cases other
    | device major input =>
      have none : Harmless ok f addr n m := by
        intro d ip off _ other
        rw [kind] at other
        cases other
      rw [fileread, if_neg yes, kind]
      dsimp only
      split
      · exact ⟨_, _, _, rfl, fun _ => none, fun _ => .fail⟩
      · exact ⟨_, _, _, rfl, fun _ => none, fun _ => consoleread_atMost input⟩
    | inode d ip off =>
      obtain ⟨k, m', f', took, eq⟩ := inode_read g ok addr n m readable kind
        (whole d ip off kind)
      refine ⟨_, f', m', eq, .trans ?_ (harmless_iff readable kind).symm⟩
      have short : (contents d.block ip).length ≤ maxfile * bsize := by
        rw [contents_length]
        exact upto_le (whole d ip off kind)
      have size : (contents d.block ip).length = ip.size.toNat := contents_length
      generalize contents d.block ip = l at *
      by_cases pos : 0 ≤ n.toInt
      · have bound : (part l off n.toUInt32).length ≤ n.toInt.toNat :=
          Console.toNat_toUInt32 pos ▸ part_le
        refine ⟨fun _ => .inl pos, fun _ => ⟨?_, fun x out => took.rest x ?_⟩⟩
        · split <;> omega
        · have := took.le
          omega
      · rw [part_negative (by omega) short] at took ⊢
        split at took
        · rename_i low
          rw [if_pos low]
          by_cases behind : ip.size.toNat ≤ off.toNat
          · rw [drop_eq_nil_of_le (by omega)] at took ⊢
            obtain rfl : k = 0 := Nat.le_zero.1 took.le
            exact ⟨fun _ => .inr (.inr (.inl behind)),
              fun _ => ⟨Int.le_max_right _ _, fun x _ => took.rest x (by omega)⟩⟩
          have some_bytes : 0 < (l.drop off.toNat).length := by
            rw [length_drop]
            omega
          rw [← unseen_iff took]
          have le := took.le
          constructor
          · intro atMost
            refine .inr (.inr (.inr ⟨?_, fun x => atMost.outside x (by omega)⟩))
            by_contra all
            have result := atMost.result
            omega
          · rintro (nonneg | wraps | stop | ⟨fails, all⟩)
            · exact absurd nonneg pos
            · omega
            · exact absurd stop behind
            · refine ⟨?_, fun x _ => all x⟩
              omega
        · rename_i wraps
          rw [if_neg wraps]
          obtain rfl : k = 0 := Nat.le_zero.1 took.le
          exact ⟨fun _ => .inr (.inl (by omega)),
            fun _ => ⟨Int.le_max_right _ _, fun x _ => took.rest x (by omega)⟩⟩

/-- A read through an open descriptor returns at most `n`, and changes no memory
outside its buffer, exactly if the length is not negative, the file is not one on
the disk, or the rest of the file that is then read cannot be noticed. -/
theorem sys_read_at_most_iff (g : Super) (ok : Nat → Bool) (ofile : Fin nofile → Option File)
    {fd : Int32}
    {i : Fin nofile} (number : fd.toInt = i) (opened : ofile i = some f) (whole : f.Whole)
    (p : UInt64) (n : Int32) (m : AddrSpace) : ∃ r f' m',
    sysRead g ok ofile fd p n m = .ok (r, some f', m') ∧
      (AtMost p.toNat n m m' r ↔ Harmless ok f p.toNat n m) := by
  obtain ⟨r, f', m', eq, iff⟩ := fileread_atMost_iff g ok p.toNat n m whole
  refine ⟨r, f', m', ?_, iff⟩
  have valid : 0 ≤ fd.toInt ∧ fd.toInt < nofile := by omega
  have same : (⟨fd.toInt.toNat, fd_lt valid⟩ : Fin nofile) = i := by
    apply Fin.ext
    show fd.toInt.toNat = _
    omega
  rw [sysRead, dif_pos valid, same, opened]
  dsimp only
  rw [eq]
  rfl

end every

/-- A file of two sevens, open for reading. -/
def sevensFile : File := ⟨true, .inode sevens.disk (sevens.ino ()) 0⟩

theorem sevensFile_whole : sevensFile.Whole := by
  intro d ip off kind
  cases kind
  exact sevens_puts.solid.upto

/-- One page of zeros. -/
def onePage : AddrSpace := ⟨fun v => if v = 0 then some zeroPage else none, pgSize⟩

/-- A read of one byte from it returns at most 1. -/
theorem one_byte_read : ∃ r f' m',
    sysRead sampleSuper (fun _ => true) (fun _ => some sevensFile) 3 16 1 onePage =
      .ok (r, some f', m') ∧ r ≤ 1 := by
  have three : (3 : Int32).toInt = (⟨3, by decide⟩ : Fin nofile) := rfl
  obtain ⟨r, f', m', eq, iff⟩ :=
    sys_read_at_most_iff sampleSuper (fun _ => true) (fun _ => some sevensFile) three rfl
      sevensFile_whole 16 1 onePage
  refine ⟨r, f', m', eq, (iff.2 fun _ _ _ _ _ => .inl (by decide)).result⟩

/-- A read of -1 bytes returns 2 and stores both bytes of the file. -/
theorem negative_read_transfers : sevensFile.Whole ∧
    (sysRead sampleSuper (fun _ => true) (fun _ => some sevensFile) 3 16 (-1) onePage).toOption.map
      (fun r => (r.1, r.2.2.read 16, r.2.2.read 17)) = some (2, some 7, some 7) ∧
    onePage.read 16 = some 0 ∧ onePage.read 17 = some 0 :=
  ⟨sevensFile_whole, by decide +kernel, rfl, rfl⟩

end OsProject.Xv6.FileRead
