import OsProject.Xv6.CopyOut
import OsProject.Xv6.PidCalls
import OsProject.Xv6.Sbrk

/-! # getprocinfo

`sys_getprocinfo` fills a `struct procinfo` on its stack and copies all of it out. The
structure is a range of bytes here, so that what `safestrcpy` leaves of the stack, and what
an `int` keeps of a size, can be seen. -/
namespace OsProject.Xv6.ProcInfo
open Lib.Transition Memory ProcTable Machine List Option
open Lifecycle PidCalls Sbrk
open Function (update update_of_ne update_self update_apply)

/-! ## safestrcpy -/

/-- The loop of `safestrcpy` with `n` bytes to go: where `s` stops, and what it has written. -/
def safestrcpyLoop (t : Nat → UInt8) : Nat → Nat → (Nat → UInt8) → Nat × (Nat → UInt8)
  | 0, i, s => (i, s)
  | n + 1, i, s =>
    let s := update s i (t i)
    if t i ≠ 0 then safestrcpyLoop t n (i + 1) s else (i + 1, s)

def safestrcpy (s t : Nat → UInt8) : Nat → Nat → UInt8
  | 0 => s
  | n + 1 =>
    let r := safestrcpyLoop t n 0 s
    update r.2 r.1 0

/-- Where the loop stops: behind the NUL, if it copies one. -/
def stop (t : Nat → UInt8) : Nat → Nat → Nat
  | 0, i => i
  | n + 1, i => if t i ≠ 0 then stop t n (i + 1) else i + 1

section copy
variable {s t : Nat → UInt8}

theorem le_stop (n i : Nat) : i ≤ stop t n i := by
  induction n generalizing i with
  | zero => exact le_refl i
  | succ n ih =>
    unfold stop
    split
    · exact le_trans (Nat.le_succ i) (ih (i + 1))
    · exact Nat.le_succ i

theorem stop_le (n i : Nat) : stop t n i ≤ i + n := by
  induction n generalizing i with
  | zero => exact le_refl i
  | succ n ih =>
    unfold stop
    split
    · have := ih (i + 1)
      omega
    · omega

theorem safestrcpyLoop_eq (n i : Nat) (s : Nat → UInt8) :
    safestrcpyLoop t n i s =
      (stop t n i, fun b => if i ≤ b ∧ b < stop t n i then t b else s b) := by
  induction n generalizing i s with
  | zero =>
    refine Prod.ext rfl (funext fun b => ?_)
    exact (if_neg (by unfold stop; omega)).symm
  | succ n ih =>
    unfold safestrcpyLoop stop
    split
    · rw [ih]
      have le := le_stop (t := t) n (i + 1)
      refine Prod.ext rfl (funext fun b => ?_)
      dsimp only
      by_cases here : b = i
      · subst here
        rw [if_neg (by omega), if_pos (by omega), update_self]
      · rw [update_of_ne here]
        exact if_congr (by omega) rfl rfl
    · refine Prod.ext rfl (funext fun b => ?_)
      dsimp only
      by_cases here : b = i
      · subst here
        rw [if_pos (by omega), update_self]
      · rw [if_neg (by omega), update_of_ne here]

/-- What `safestrcpy` writes: the copied bytes and one NUL behind them. -/
theorem safestrcpy_apply (n b : Nat) : safestrcpy s t (n + 1) b =
    if b = stop t n 0 then 0 else if b < stop t n 0 then t b else s b := by
  show update (safestrcpyLoop t n 0 s).2 (safestrcpyLoop t n 0 s).1 0 b = _
  rw [safestrcpyLoop_eq, update_apply]
  refine if_congr .rfl rfl (if_congr ?_ rfl rfl)
  omega

/-- The loop goes on as long as it finds no NUL. -/
theorem lt_stop_iff (n i j : Nat) (lt : j < n) : i + j < stop t n i ↔ ∀ m < j, t (i + m) ≠ 0 := by
  induction n generalizing i j with
  | zero => omega
  | succ n ih =>
    unfold stop
    split
    · rename_i more
      cases j with
      | zero =>
        have := le_stop (t := t) n (i + 1)
        exact ⟨fun _ m lt => by omega, fun _ => by omega⟩
      | succ j =>
        have rest := ih (i + 1) j (by omega)
        rw [show i + (j + 1) = i + 1 + j by omega, rest]
        constructor
        · intro all m lt
          cases m with
          | zero => exact more
          | succ m =>
            rw [show i + (m + 1) = i + 1 + m by omega]
            exact all m (by omega)
        · intro all m lt
          rw [show i + 1 + m = i + (m + 1) by omega]
          exact all (m + 1) (by omega)
    · rename_i last
      constructor
      · intro lt m hm
        omega
      · intro all
        by_contra no
        exact all 0 (by omega) (by simpa using last)

end copy

/-! ## The call -/

/-- `PROC_NAME_MAX`. -/
def procNameMax : Nat := 16

/-- `sizeof(struct procinfo)`: three ints and the name. -/
def infoSize : Nat := 12 + procNameMax

/-- The value of an `enum procstate`. -/
def stateCode : ProcState → Int32
  | .unused => 0
  | .used => 1
  | .sleeping => 2
  | .runnable => 3
  | .running => 4
  | .zombie => 5

/-- Store bytes at an offset. -/
def put (m : Nat → UInt8) (off : Nat) (bs : List UInt8) : Nat → UInt8 := fun b =>
  if off ≤ b ∧ b < off + bs.length then bs.getD (b - off) 0 else m b

/-- `p->name`, with its NUL. -/
def nameBytes (p : Proc) (b : Nat) : UInt8 := p.name.getD b 0

/-- The assignments of `kgetprocinfo` to `*info`; `info->sz` keeps the low 32 bits. -/
def fill (p : Proc) (info : Nat → UInt8) : Nat → UInt8 :=
  let ints := put (put (put info 0 (intBytes p.pid)) 4 (intBytes (stateCode p.state))) 8
    (intBytes (Int32.ofNat p.mem.sz))
  fun b => if b < 12 then ints b
    else safestrcpy (fun c => ints (12 + c)) (nameBytes p) procNameMax (b - 12)

/-- The bytes that `sys_getprocinfo` hands to `copyout`, by what was on its stack. -/
def handed (k : Kernel) (pid : Int32) (stack : Nat → UInt8) : Option (List UInt8) :=
  (kgetprocinfo k pid).map fun p => (List.range infoSize).map (fill p stack)

/-- `sys_getprocinfo` of process `i`: its memory and the result. -/
def sysGetprocinfo (ok : Nat → Bool) (k : Kernel) (i : Slot) (pid : Int32) (addr : UInt64)
    (stack : Nat → UInt8) : AddrSpace × UInt64 :=
  match handed k pid stack with
  | none => ((k i).mem, ofInt (-1))
  | some bytes =>
    let r := copyout ok (k i).mem addr.toNat bytes
    (r.1, if r.2 then 0 else ofInt (-1))

section fill
variable (p : Proc) (s : Nat → UInt8) {b : Nat}

theorem put_at {m off bs} (lt : b < bs.length) : put m off bs (off + b) = bs.getD b 0 := by
  rw [put, if_pos (by omega), Nat.add_sub_cancel_left]

theorem put_out {m off bs} (out : b < off ∨ off + bs.length ≤ b) :
    put m off bs b = m b := if_neg (by omega)

theorem intBytes_length (v : Int32) : (intBytes v).length = 4 := rfl

theorem fill_pid (lt : b < 4) : fill p s (0 + b) = (intBytes p.pid).getD b 0 := by
  unfold fill
  rw [if_pos (by omega), put_out (.inl (by omega)), put_out (.inl (by omega)),
    put_at (by rw [intBytes_length]; exact lt)]

theorem fill_state (lt : b < 4) : fill p s (4 + b) = (intBytes (stateCode p.state)).getD b 0 := by
  unfold fill
  rw [if_pos (by omega), put_out (.inl (by omega)), put_at (by rw [intBytes_length]; exact lt)]

theorem fill_sz (lt : b < 4) : fill p s (8 + b) = (intBytes (Int32.ofNat p.mem.sz)).getD b 0 := by
  unfold fill
  rw [if_pos (by omega), put_at (by rw [intBytes_length]; exact lt)]

theorem fill_name (b : Nat) : fill p s (12 + b) = if b = stop (nameBytes p) 15 0 then 0
    else if b < stop (nameBytes p) 15 0 then nameBytes p b else s (12 + b) := by
  unfold fill
  rw [if_neg (by omega), Nat.add_sub_cancel_left]
  refine (safestrcpy_apply 15 b).trans (if_congr .rfl rfl (if_congr .rfl rfl ?_))
  rw [put_out (.inr (by rw [intBytes_length]; omega)),
    put_out (.inr (by rw [intBytes_length]; omega)),
    put_out (.inr (by rw [intBytes_length]; omega))]

end fill

/-! ## What of the stack gets out -/

def strlen (s : List UInt8) : Nat := (s.takeWhile (· ≠ 0)).length

theorem le_strlen_iff (s : List UInt8) (n : Nat) : n ≤ strlen s ↔ ∀ m < n, s.getD m 0 ≠ 0 := by
  induction s generalizing n with
  | nil =>
    constructor
    · intro le m lt
      have zero : n ≤ 0 := le
      omega
    · intro all
      by_contra pos
      exact all 0 (Nat.pos_of_ne_zero fun e => pos (by rw [e]; exact Nat.zero_le _)) rfl
  | cons c s ih =>
    unfold strlen at ih ⊢
    rw [takeWhile_cons]
    by_cases nul : c = 0
    · rw [if_neg (by simpa using nul)]
      constructor
      · intro le m lt
        have zero : n ≤ 0 := le
        omega
      · intro all
        by_contra pos
        exact all 0 (Nat.pos_of_ne_zero fun e => pos (by rw [e]; exact Nat.zero_le _)) nul
    · rw [if_pos (by simpa using nul), length_cons]
      cases n with
      | zero => exact ⟨fun _ m lt => by omega, fun _ => Nat.zero_le _⟩
      | succ n =>
        rw [Nat.succ_le_succ_iff, ih]
        constructor
        · intro all m lt
          cases m with
          | zero => exact nul
          | succ m => exact all m (by omega)
        · intro all m lt
          exact all (m + 1) (by omega)

/-- `safestrcpy` reaches the end of `info->name` if the name is long. -/
theorem stop_eq_iff (p : Proc) : stop (nameBytes p) 15 0 = 15 ↔ 14 ≤ strlen p.name := by
  have le := stop_le (t := nameBytes p) 15 0
  have more := lt_stop_iff (t := nameBytes p) 15 0 14 (by omega)
  simp only [zero_add] at more
  rw [le_strlen_iff]
  refine .trans ?_ more
  omega

/-- All that `sys_getprocinfo` hands out is the process entry's, and none of it the stack's, if
and only if it finds no process or one whose name has at least 14 characters. -/
theorem getprocinfo_hides_stack (k : Kernel) (pid : Int32) :
    (∀ stack stack', handed k pid stack = handed k pid stack') ↔
      ∀ p, kgetprocinfo k pid = some p → 14 ≤ strlen p.name := by
  unfold handed
  constructor
  · intro same p found
    rw [← stop_eq_iff]
    have eq := same (fun _ => 0) (fun _ => 1)
    rw [found, map_some, map_some, Option.some.injEq, map_inj_left] at eq
    have last := eq (12 + 15) (mem_range.2 (by decide))
    rw [fill_name, fill_name] at last
    have le := stop_le (t := nameBytes p) 15 0
    by_contra short
    rw [if_neg (by omega), if_neg (by omega), if_neg (by omega), if_neg (by omega)] at last
    exact absurd last (by decide)
  · intro long stack stack'
    cases found : kgetprocinfo k pid with
    | none => rw [map_none, map_none]
    | some p =>
      have full := (stop_eq_iff p).2 (long p found)
      rw [map_some, map_some, Option.some.injEq, map_inj_left]
      intro b mem
      have lt : b < 12 + 16 := mem_range.1 mem
      obtain int | int | int | name : b < 4 ∨ (4 ≤ b ∧ b < 8) ∨ (8 ≤ b ∧ b < 12) ∨ 12 ≤ b :=
        by omega
      · rw [← zero_add b, fill_pid p _ int, fill_pid p _ int]
      · rw [← Nat.add_sub_cancel' int.1, fill_state p _ (by omega), fill_state p _ (by omega)]
      · rw [← Nat.add_sub_cancel' int.1, fill_sz p _ (by omega), fill_sz p _ (by omega)]
      · rw [← Nat.add_sub_cancel' name, fill_name, fill_name, full]
        by_cases last : b - 12 = 15
        · rw [if_pos last, if_pos last]
        · rw [if_neg last, if_neg last, if_pos (by omega), if_pos (by omega)]

/-- Two bytes of `info->name` behind the short name of init are the stack's. -/
theorem getprocinfo_shows_stack : History bareBoot [] (boot bareBoot) ∧
    handed (boot bareBoot) 1 (fun _ => 0) ≠ handed (boot bareBoot) 1 (fun _ => 1) :=
  ⟨.nil, by decide +kernel⟩

/-! ## Names fit their array -/

/-- Every `p->name` ends in a NUL. -/
def Named (k : Kernel) : Prop := ∀ j, (k j).name.length ≤ 15

section names
variable {k k' : Kernel} {i j : Slot} {e : Event} {c : Choice}

theorem Named.upd {f} (all : Named k) (new : (f (k j)).name.length ≤ 15) : Named (k.upd j f) := by
  intro m
  by_cases eq : m = j
  · subst eq
    rw [upd_self]
    exact new
  · rw [upd_ne eq]
    exact all m

theorem Named.goto {pt} (all : Named k) : Named (k.goto i pt) := all.upd (all i)

theorem Named.ret {v} (all : Named k) : Named (k.ret i v) := all.upd (all i)

theorem named_sect (s : Sect k i e k') (all : Named k) : Named k' := by
  cases s with
  | trap c r pc pt =>
    refine all.upd ?_
    unfold trapEntry
    cases c with
    | syscall | pageFault => dsimp only; split <;> exact all i
    | interrupt | unexpected => exact all i
  | exec img pt => exact (all.upd (length_take_le ..)).ret
  | run | sigreturn | deliver | userret => exact all.upd (all i)
  | ret => exact all.ret
  | signal | noCopy | children | finish => exact (all.upd (all i)).ret
  | offer => exact (all.upd (all i)).goto
  | sigsend pid s j => exact (all.upd (all j)).ret
  | _ => exact all.goto

theorem named_act (a : Act k i e k') (all : Named k) : Named k' := by
  have same : ∀ (np : Int32) (w : Option Slot), Named { k with nextpid := np, waitLock := w } :=
    fun _ _ => all
  cases a with
  | sect s => exact named_sect s all
  | found f j => exact ((same (k.nextpid + 1) k.waitLock).upd (all j)).goto
  | made f j => exact (all.upd (length_take_le ..)).goto
  | allocFail f j => exact (all.upd (Nat.zero_le _)).ret
  | clearReady _ j | clearLen _ j | link j | ready j | adopt _ j | sent _ _ j | exitStore _ j =>
    exact (all.upd (all j)).goto
  | kill pid j =>
    refine (all.upd ?_).ret
    unfold Machine.kill
    split <;> exact all j
  | wake chan j w =>
    refine (all.upd ?_).goto
    unfold Machine.wake
    split <;> exact all j
  | store => exact (all.upd (all i)).ret
  | exitClose | zombie | exitSched | received | sleepLock | sleepSwitch | nap =>
    exact all.upd (all i)
  | reapFail | recvFail => exact (all.upd (all i)).goto
  | reap j => exact ((all.upd (all i)).upd (Nat.zero_le _)).goto
  | exitLock | exitUnlock | enter | sleepRelease | sendLock | childLock | childUnlock =>
    exact (same k.nextpid _).goto
  | unlock => exact (same k.nextpid _).ret
  | load | exitLoad | exitSkip | hold => exact all.goto

theorem named_step (s : LifeStep k i c e k') (all : Named k) : Named k' := by
  cases s with
  | act go run a => exact named_act a all
  | sched go s => exact fun m => (congrArg List.length (s.frame Proc.name m)).trans_le (all m)

theorem history_named {b t} (h : History b t k) : Named k := by
  refine h.keeps ?_ ?_
  · intro j
    unfold boot
    dsimp only
    split
    · exact length_take_le ..
    · exact Nat.zero_le _
  · intro k l k' all st
    exact named_step (step_life st) all

end names

/-! ## What the user reads -/

/-- The `int` at an offset. -/
def intAt (m : Nat → UInt8) (off : Nat) : Int32 :=
  (UInt32.ofNat ((m off).toNat + 256 * (m (off + 1)).toNat + 65536 * (m (off + 2)).toNat +
    16777216 * (m (off + 3)).toNat)).toInt32

theorem intAt_eq {m off v}
    (bytes : ∀ b < 4, m (off + b) = (intBytes v).getD b 0) : intAt m off = v := by
  have word : UInt32.ofNat ((m off).toNat + 256 * (m (off + 1)).toNat +
      65536 * (m (off + 2)).toNat + 16777216 * (m (off + 3)).toNat) = v.toUInt32 := by
    have lt := v.toUInt32.toNat_lt
    have b0 := bytes 0 (by decide)
    rw [add_zero] at b0
    rw [b0, bytes 1 (by decide), bytes 2 (by decide), bytes 3 (by decide)]
    refine UInt32.toNat_inj.1 ?_
    simp only [intBytes, getD_cons_zero, getD_cons_succ, UInt32.toNat_ofNat', UInt32.toNat_toUInt8,
      UInt32.toNat_shiftRight, Nat.shiftRight_eq_div_pow]
    rw [show (8 : UInt32).toNat % 32 = 8 from rfl, show (16 : UInt32).toNat % 32 = 16 from rfl,
      show (24 : UInt32).toNat % 32 = 24 from rfl]
    omega
  rw [intAt, word]
  rfl

/-- Two C strings: equal up to and with the NUL of the first. -/
def SameString (s t : Nat → UInt8) : Prop := ∀ b, (∀ j < b, s j ≠ 0) → t b = s b

/-- A report in user memory agrees with a process entry. -/
structure Faithful (p : Proc) (info : Nat → UInt8) : Prop where
  pid : intAt info 0 = p.pid
  state : intAt info 4 = stateCode p.state
  size : (intAt info 8).toInt = p.mem.sz
  name : SameString (nameBytes p) fun b => info (12 + b)

/-- User memory from an address on. -/
def bytesAt (m : AddrSpace) (addr : UInt64) (b : Nat) : UInt8 := (m.read (addr.toNat + b)).getD 0

section report
variable {k : Kernel} {p : Proc} {info s : Nat → UInt8}

theorem stop_name (short : p.name.length ≤ 15) {b} (before : ∀ j < b, nameBytes p j ≠ 0) :
    b < stop (nameBytes p) 15 0 ∨ (b = stop (nameBytes p) 15 0 ∧ nameBytes p b = 0) := by
  have le := stop_le (t := nameBytes p) 15 0
  have nul : ∀ j, 15 ≤ j → nameBytes p j = 0 := by
    intro j le
    rw [nameBytes, getD_eq_getElem?_getD, getElem?_eq_none (by omega)]
    rfl
  obtain lt | rfl | gt := lt_trichotomy b 15
  · have := (lt_stop_iff (t := nameBytes p) 15 0 b lt).2 fun m hm => by
      rw [zero_add]
      exact before m hm
    omega
  · have more := (lt_stop_iff (t := nameBytes p) 15 0 14 (by decide)).2 fun m hm => by
      rw [zero_add]
      exact before m (by omega)
    exact .inr ⟨by omega, nul 15 (le_refl _)⟩
  · exact absurd (nul 15 (le_refl _)) (before 15 gt)

/-- A report that holds the bytes of `fill` agrees in all but the size, and in that if the
size is an `int`. -/
theorem faithful_iff (short : p.name.length ≤ 15) (bytes : ∀ b < infoSize, info b = fill p s b) :
    Faithful p info ↔ p.mem.sz < 2 ^ 31 := by
  have size : intAt info 8 = Int32.ofNat p.mem.sz :=
    intAt_eq fun b lt => (bytes (8 + b) (by unfold infoSize; omega)).trans (fill_sz p s lt)
  have low := (Int32.ofNat p.mem.sz).toInt_lt
  constructor
  · intro same
    have eq := same.size
    rw [size] at eq
    omega
  · intro small
    refine ⟨?_, ?_, ?_, ?_⟩
    · exact intAt_eq fun b lt => (bytes (0 + b) (by unfold infoSize; omega)).trans (fill_pid p s lt)
    · exact intAt_eq fun b lt =>
        (bytes (4 + b) (by unfold infoSize; omega)).trans (fill_state p s lt)
    · rw [size]
      exact Int32.toInt_ofNat_of_lt small
    · intro b before
      have le := stop_le (t := nameBytes p) 15 0
      have place := stop_name short before
      dsimp only
      rw [bytes (12 + b) (by unfold infoSize procNameMax; omega), fill_name]
      obtain lt | ⟨eq, nul⟩ := place
      · rw [if_neg (ne_of_lt lt), if_pos lt]
      · rw [if_pos eq, nul]

theorem sysGetprocinfo_bytes {ok i pid addr m} (ret : sysGetprocinfo ok k i pid addr s = (m, 0)) :
    ∃ p, kgetprocinfo k pid = some p ∧ ∀ b < infoSize, bytesAt m addr b = fill p s b := by
  unfold sysGetprocinfo handed at ret
  cases found : kgetprocinfo k pid with
  | none =>
    rw [found] at ret
    exact absurd (Prod.mk.inj ret).2 (by decide)
  | some p =>
    rw [found] at ret
    obtain ⟨mem, val⟩ := Prod.mk.inj ret
    split at val
    · rename_i done
      refine ⟨p, rfl, fun b lt => ?_⟩
      have spec := (CopyOut.copyout_spec (Prod.ext mem done)).1 b (by simpa using lt)
      rw [bytesAt, spec, getD_some, getD_eq_getElem?_getD, getElem?_map,
        getElem?_range lt]
      rfl
    · exact absurd val (by decide)

end report

/-! ## Runs of fork, exec and sbrk -/

/-- A system call that is not a section of its own is `sbrk` as the code has it, or leaves
the size alone. -/
def Grows (k : Kernel) (l : Label) : Prop :=
  match l.choice with
  | .finish v mem ofile cwd =>
    let p := k.proc l.actor
    if argint p.trapframe.user.a7 = 12 then
      (∃ ok, sysSbrk ok p.mem (argint p.trapframe.user.a0) (argint p.trapframe.user.a1) =
        some (mem, v)) ∧ ofile = p.ofile ∧ cwd = p.cwd
    else mem.sz = p.mem.sz
  | _ => True

/-- In every state that forks, execs and sbrks lead to, the report of a `getprocinfo` that
returns 0 agrees with the process entry if and only if the size is below `2^31`. -/
theorem getprocinfo_faithful {b : Boot} {t : List Label} {k : Kernel}
    (run : Run (When Step Grows) (boot b) t k)
    (ok : Nat → Bool) (i : Slot) (pid : Int32) (addr : UInt64) (stack : Nat → UInt8) (m : AddrSpace)
    (ret : sysGetprocinfo ok k i pid addr stack = (m, 0)) :
    ∃ p, kgetprocinfo k pid = some p ∧ (Faithful p (bytesAt m addr) ↔ p.mem.sz < 2 ^ 31) := by
  obtain ⟨p, found, bytes⟩ := sysGetprocinfo_bytes ret
  refine ⟨p, found, faithful_iff ?_ bytes⟩
  obtain ⟨j, -, rfl⟩ := map_eq_some_iff.1 found
  exact history_named run.of_when j

theorem getprocinfo_faithful_init :
    ∃ p, kgetprocinfo (boot dataBoot) 1 = some p ∧
      (Faithful p (bytesAt (sysGetprocinfo (fun _ => true) (boot dataBoot) initproc 1 4096 fun _ =>
        0).1 4096) ↔ p.mem.sz < 2 ^ 31) :=
  getprocinfo_faithful (.nil : Run (When Step Grows) (boot dataBoot) [] _) (fun _ => true) initproc
    1 4096 (fun _ => 0) _ (Prod.ext rfl (by decide +kernel))

/-- Process `i` after a lazy `sbrk(n)`. -/
def grown (k : Kernel) (i : Slot) (n : Nat) : Kernel :=
  (k.upd i fun p => { p with mem := { p.mem with sz := p.mem.sz + n } }).ret i
    (UInt64.ofNat (k i).mem.sz)

/-- A lazy `sbrk` that fits is a step. -/
theorem lazy_grows {k i n} (point : (k i).point = .other)
    (cpu : (k i).cpu ≠ none) (call : argint (k i).trapframe.user.a7 = 12)
    (a0 : argint (k i).trapframe.user.a0 = n) (a1 : argint (k i).trapframe.user.a1 = sbrkLazy)
    (pos : 0 ≤ n.toInt) (fits : (k i).mem.sz + n.toInt.toNat ≤ trapframeVa) :
    ∃ l, When Step Grows k l (grown k i n.toInt.toNat) := by
  refine ⟨⟨i, .finish (UInt64.ofNat (k i).mem.sz)
    { (k i).mem with sz := (k i).mem.sz + n.toInt.toNat } (k i).ofile (k i).cwd, .tau⟩, ?_, ?_⟩
  · unfold Step step
    dsimp only
    rw [if_neg cpu, point]
    unfold threadStep otherStep grown Kernel.ret
    dsimp only
    rw [upd_upd, upd_upd]
    congr 2
    refine Kernel.ext (funext fun m => ?_) rfl rfl rfl rfl
    by_cases eq : m = i
    · subst eq
      rw [upd_self, upd_self]
    · rw [upd_ne eq, upd_ne eq]
  · unfold Grows
    dsimp only
    rw [if_pos call, a0, a1]
    exact ⟨⟨fun _ => true, sysSbrk_lazy pos fits⟩, rfl, rfl⟩

/-- No system call outside the sections. -/
def sectional : Choice → Bool
  | .finish _ _ _ _ => false
  | _ => true

theorem grows_of_sectional {k l} (h : sectional l.choice = true) : Grows k l := by
  unfold Grows
  split
  · rename_i eq
    rw [eq] at h
    cases h
  · trivial

/-- Where a thread is in a call that is not a section of its own. -/
def atOther : Point → Bool
  | .other => true
  | _ => false

/-- After a lazy `sbrk` of `INT_MAX` bytes init is reported with a negative size. -/
theorem getprocinfo_truncates : ∃ t k m, Run (When Step Grows) (boot dataBoot) t k ∧
    sysGetprocinfo (fun _ => true) k initproc 1 4096 (fun _ => 0) = (m, 0) ∧
    kgetprocinfo k 1 = some (k initproc) ∧ (k initproc).mem.sz = 2147491839 ∧
    (intAt (bytesAt m 4096) 8).toInt = -2147475457 := by
  have reach := execWhen_reaches (fun _ l => sectional l.choice = true) (boot dataBoot)
    (starts initproc 0 ++ ecall initproc 12 2147483647 2 0 .go)
    (fun _ k => (atOther (k initproc).point = true ∧ (k initproc).cpu ≠ none) ∧
      (argint (k initproc).trapframe.user.a7 = 12 ∧ argint (k initproc).trapframe.user.a0 =
      2147483647 ∧
        argint (k initproc).trapframe.user.a1 = sbrkLazy ∧ (k initproc).mem.sz = 8192) ∧
      (sysGetprocinfo (fun _ => true) (grown k initproc 2147483647) initproc 1 4096
        (fun _ => 0)).2 = 0 ∧
      (k initproc).pid = 1 ∧ (k initproc).state ≠ .unused ∧
      (intAt (bytesAt (sysGetprocinfo (fun _ => true) (grown k initproc 2147483647) initproc 1 4096
        fun _ => 0).1 4096) 8).toInt = -2147475457) (by decide +kernel)
  obtain ⟨t, k, run, ⟨point, cpu⟩, ⟨a7, a0, a1, sz⟩, ret, pid, used, size⟩ := reach
  have other : (k initproc).point = .other := by
    revert point
    cases (k initproc).point <;> intro h <;> first | rfl | cases h
  have int : (2147483647 : Int32).toInt.toNat = 2147483647 := by decide
  obtain ⟨l, st⟩ := lazy_grows (n := 2147483647) other cpu a7 a0 a1 (by decide)
    (by rw [sz, int]; decide)
  refine ⟨_, _, _, .cons (run.mono fun s e s' h => ⟨h.1, grows_of_sectional h.2⟩) st,
    Prod.ext rfl ret, ?_, ?_, size⟩
  · unfold kgetprocinfo grown Kernel.ret
    rw [firstSlot_eq (j := initproc)]
    · rfl
    · simpa using ⟨pid, used⟩
    · intro i lt
      exact absurd lt (Nat.not_lt_zero _)
  · exact congrArg (· + 2147483647) sz

end OsProject.Xv6.ProcInfo
