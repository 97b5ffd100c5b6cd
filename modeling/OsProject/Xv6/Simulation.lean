import OsProject.Xv6.Family

/-! # What a section can tell of the table

A section of a thread reads few fields of the other entries and stores to few
of them. `Blind` lists them as conditions on a relation between entries: two
tables that are related entry by entry go on in the same way at every section
of `i`, and stay related. -/
namespace OsProject.Xv6.Simulation
open Lib.Transition Memory ProcTable Machine
open Lifecycle Table Family

/-- The kernels agree outside the table, and their entries are related by `E`. -/
structure Rel (E : Slot → Proc → Proc → Prop) (k k2 : Kernel) : Prop where
  entry : ∀ m, E m (k m) (k2 m)
  waitLock : k2.waitLock = k.waitLock
  nextpid : k2.nextpid = k.nextpid
  satp : k2.satp = k.satp
  usertrap : k2.usertrap = k.usertrap

/-- The stores of a section to an entry `p` that may be another process's. -/
inductive Store (p : Proc) : (Proc → Proc) → Prop
  | parent (q : Option Slot) (used : p.state ≠ .unused) : Store p fun p => { p with parent := q }
  | count (v : Int) : Store p fun p => { p with forkCount := v }
  | mail (msg : List UInt8) (used : p.state ≠ .unused) : Store p (putMail msg)
  | wake (chan : Option Slot) (lock : p.locked = false) : Store p (wake chan)
  | kill (lock : p.locked = false) : Store p kill
  | raise (s : Fin nsig) (lock : p.locked = false) : Store p (raise s)
  | found (pid : Int32) (free : p.state = .unused) (lock : p.locked = false) :
      Store p (allocFound · pid)
  | clearReady (used : p.state = .used) : Store p fun np => { np with ipcReady := false }
  | clearLen (used : p.state = .used) : Store p fun np => { np with ipcLen := 0 }
  | made (f : Fork) (parent : Proc) (used : p.state = .used) :
      Store p fun np => release (forkCopy f parent (allocproc np))
  | allocFail (used : p.state = .used) (off : p.cpu = none) :
      Store p fun np => release (freeproc (allocReset np))
  | ready (used : p.state = .used) (lock : p.locked = false) :
      Store p fun np => { np with state := .runnable }
  | free (dead : p.state = .zombie) (lock : p.locked = false) (off : p.cpu = none) :
      Store p freeproc

theorem Store.cpu {p f} (h : Store p f) (q : Proc) : (f q).cpu = q.cpu := by
  cases h with
  | wake => unfold Machine.wake; split <;> rfl
  | _ => rfl

/-- An update of a running process that does not free it and neither reads nor
writes its saved trapframe. -/
structure Own (p : Proc) (f : Proc → Proc) : Prop where
  live : (f p).state = .unused → p.state = .unused
  flag : (f p).handlingSignal = p.handlingSignal
  through : ∀ s, f { p with savedTrapframe := s } = { f p with savedTrapframe := s }

/-- A section of `i` does not tell related entries apart. -/
structure Blind (E : Slot → Proc → Proc → Prop) (i : Slot) : Prop where
  seen : ∀ {m p q}, E m p q → q.state = p.state ∧ q.pid = p.pid ∧ q.parent = p.parent ∧
    q.xstate = p.xstate
  unlocked : ∀ {m p q}, E m p q → p.locked = false → q.locked = false
  cpu : ∀ {m p q}, E m p q → p.locked = false ∨ p.state = .used → q.cpu = p.cpu
  forks : ∀ {m p q}, E m p q → phase p.state = .live → q.forkCount = p.forkCount
  mail : ∀ {m p q}, E m p q → p.state ≠ .unused → q.ipcReady = p.ipcReady
  own : ∀ {p q}, E i p q → p.cpu ≠ none → q = { p with savedTrapframe := q.savedTrapframe }
  store : ∀ {m p q f}, E m p q → Store p f → E m (f p) (f q)
  keep : ∀ {p q f}, E i p q → p.cpu ≠ none → Own p f → (f p).cpu = p.cpu → E i (f p) (f q)
  deliver : ∀ {p q s w}, E i p q → p.cpu ≠ none → E i (deliver s w p) (deliver s w q)

/-- A section that ends in `swtch`, or may. -/
def leaves : Point → Choice → Bool
  | .exitSched, _ | .sleepSwitch _, _ | .other, .nap _ => true
  | _, _ => false

/-- Related tables, and a section of `i` to come that does not tell them apart. -/
structure Sim (E : Slot → Proc → Proc → Prop) (i : Slot) (k k2 : Kernel) : Prop
    extends Rel E k k2 where
  blind : Blind E i
  run : (k i).cpu ≠ none

section sections
variable {E : Slot → Proc → Proc → Prop} {i m : Slot} {k k2 : Kernel} {f : Proc → Proc}

theorem Rel.upd (h : Rel E k k2) (hf : E m (f (k m)) (f (k2 m))) :
    Rel E (k.upd m f) (k2.upd m f) := by
  refine ⟨fun n => ?_, h.waitLock, h.nextpid, h.satp, h.usertrap⟩
  by_cases hn : n = m
  · subst hn; rw [upd_self, upd_self]; exact hf
  · rw [upd_ne hn, upd_ne hn]; exact h.entry n

variable (h : Sim E i k k2)
include h

namespace Sim

theorem state (m : Slot) : (k2 m).state = (k m).state := (h.blind.seen (h.entry m)).1

theorem pid (m : Slot) : (k2 m).pid = (k m).pid := (h.blind.seen (h.entry m)).2.1

theorem parent (m : Slot) : (k2 m).parent = (k m).parent := (h.blind.seen (h.entry m)).2.2.1

theorem self : ∃ s, k2.proc i = { k.proc i with savedTrapframe := s } :=
  ⟨_, h.blind.own (h.entry i) h.run⟩

theorem store (w : Store (k m) f) : Sim E i (k.upd m f) (k2.upd m f) :=
  ⟨h.upd (h.blind.store (h.entry m) w), h.blind, (upd_frame Proc.cpu (w.cpu _)).trans_ne h.run⟩

theorem own (live : (f (k i)).state = .unused → (k i).state = .unused := by exact id)
    (flag : (f (k i)).handlingSignal = (k i).handlingSignal := by rfl)
    (through : ∀ s, f { k.proc i with savedTrapframe := s } =
      { f (k i) with savedTrapframe := s } := by intro; rfl)
    (cpu : (f (k i)).cpu = (k i).cpu := by rfl) : Sim E i (k.upd i f) (k2.upd i f) :=
  ⟨h.upd (h.blind.keep (h.entry i) h.run ⟨live, flag, through⟩ cpu), h.blind,
    (upd_frame Proc.cpu cpu).trans_ne h.run⟩

theorem lock (w : Option Slot) : Sim E i { k with waitLock := w } { k2 with waitLock := w } :=
  { h with waitLock := rfl }

theorem goto (pt : Point) : Rel E (k.goto i pt) (k2.goto i pt) := h.own.toRel

theorem ret (v : UInt64) : Rel E (k.ret i v) (k2.ret i v) := h.own.toRel

/-- The caller's memory after a copy. -/
theorem copied (mem : AddrSpace) : Sim E i (k.upd i fun p => { p with mem := mem })
    (k2.upd i fun p => { p with mem := mem }) := h.own

end Sim

variable {c : Choice} {pid status : Int32} {addr : UInt64} {n : Nat}

theorem userStep_follows {r pc} : Follows (Rel E) (userStep k i r pc c) (userStep k2 i r pc c) := by
  cases c with
  | run r' pc' stores => exact .go _ h.own.toRel
  | trap c =>
    have same := trapEntry_same c r pc (k i)
    refine .go _ (h.own ?_ ?_ (fun s => ?_) same.cpu).toRel
    · exact fun un => same.state.symm.trans un
    · cases c <;> simp only [trapEntry] <;> split <;> rfl
    · cases c <;> simp only [trapEntry] <;> split <;> rfl
  | _ => exact .stuck

theorem kipcSendCopy_follows {src n ok} : Follows (Rel E) (some (kipcSendCopy k i pid src n ok))
      (some (kipcSendCopy k2 i pid src n ok)) := by
  obtain ⟨s, hi⟩ := h.self
  have mem : (k2 i).mem = (k i).mem := by rw [hi]
  unfold kipcSendCopy
  rw [mem]
  split
  · exact .go _ (h.ret _)
  · split
    · exact .go _ ((h.copied _).ret _)
    · exact .go _ ((h.copied _).goto _)

theorem syscallStep_follows
    (sig : syscallOf (argint (k i).trapframe.user.a7) = .sigreturn →
      E i (sysSigreturn (k i)) (sysSigreturn (k2 i))) :
    Follows (Rel E) (syscallStep k i c) (syscallStep k2 i c) := by
  obtain ⟨s, hi⟩ := h.self
  have tf : (k2 i).trapframe = (k i).trapframe := by rw [hi]
  have goto := h.goto
  have ret := h.ret
  unfold syscallStep
  dsimp only
  rw [tf, h.pid, h.parent]
  split
  case h_1 | h_2 | h_3 | h_4 | h_5 | h_6 | h_7 | h_8 | h_17 | h_18 => exact .go _ (goto _)
  case h_9 | h_19 => exact .go _ (ret _)
  case h_10 | h_12 =>
    split
    · exact .go _ (goto _)
    · exact .go _ (ret _)
  case h_11 =>
    split
    · exact .go _ ((h.own (f := sysSignal _ _)).ret _)
    · exact .go _ (ret _)
  case h_13 call => exact .go _ (h.upd (sig call))
  case h_14 =>
    cases c with
    | exec img =>
      cases img with
      | none => exact .go _ (ret _)
      | some img =>
        exact .go _ ((h.own (f := kexecCommit img)).ret _)
    | _ => exact .stuck
  case h_15 =>
    cases c with
    | page ok => exact kipcSendCopy_follows h
    | _ => exact .stuck
  case h_16 =>
    split
    · exact .go _ (ret _)
    · exact .go _ (goto _)

theorem prepareStep_follows : Follows (Rel E) (prepareStep k i) (prepareStep k2 i) := by
  obtain ⟨s, hi⟩ := h.self
  have cpu : (k2 i).cpu = (k i).cpu := by rw [hi]
  have same : prepareReturn k2 i = prepareReturn k i := by
    unfold prepareReturn
    rw [h.satp, h.usertrap]
  unfold prepareStep
  rw [cpu, same]
  split
  · exact .go _ (h.own (f := prepareReturn k i _)).toRel
  · exact .stuck

theorem sigScanStep_follows : Follows (Rel E) (sigScanStep k i n) (sigScanStep k2 i n) := by
  obtain ⟨s, hi⟩ := h.self
  have goto := h.goto
  unfold sigScanStep
  rw [hi]
  split
  · split
    · exact .go _ (goto _)
    · exact .go _ (goto _)
  · exact .go _ (goto _)

/-- A section that waits for the lock of `m`. -/
theorem lock_follows {x y : Option (Kernel × Event)}
    (go : (k m).locked = false → Follows (Rel E) x y) :
    Follows (Rel E) (if (k m).locked then none else x)
      (if (k2 m).locked then none else y) := by
  cases lock : (k m).locked with
  | true => exact .stuck
  | false =>
    rw [h.blind.unlocked (h.entry m) lock]
    exact go lock

/-- A section that waits for `wait_lock`. -/
theorem wait_follows {x y : Option (Kernel × Event)} (go : Follows (Rel E) x y) :
    Follows (Rel E) (if k.waitLock = none then x else none)
      (if k2.waitLock = none then y else none) := by
  rw [h.waitLock]
  split
  · exact go
  · exact .stuck

/-! The sections of `kfork`. -/

theorem forkScanStep_follows {f} :
    Follows (Rel E) (forkScanStep k i f n) (forkScanStep k2 i f n) := by
  unfold forkScanStep
  cases slotAt n with
  | none => exact .go _ (h.ret _)
  | some m =>
    refine lock_follows h fun lock => ?_
    rw [h.state, h.nextpid]
    split
    · have next : Sim E i { k with nextpid := k.nextpid + 1 }
        { k2 with nextpid := k.nextpid + 1 } :=
        { h with nextpid := rfl }
      exact .go _ ((next.store (.found _ ‹_› lock)).goto _)
    · exact .go _ (h.goto _)

theorem allocRestStep_follows {f} (used : (k m).state = .used) (off : (k m).cpu = none) :
    Follows (Rel E) (allocRestStep k i f m pid c) (allocRestStep k2 i f m pid c) := by
  obtain ⟨s, hi⟩ := h.self
  have copy : ∀ np, forkCopy f (k2 i) np = forkCopy f (k i) np := by
    intro np; rw [hi]; rfl
  have fail := (h.store (.allocFail used off)).ret
  cases c with
  | alloc a =>
    cases a with
    | ok =>
      simp only [allocRestStep, copy]
      exact .go _ ((h.store (.made f _ used)).goto _)
    | noTrapframe | noPagetable | noMemory => exact .go _ (fail _)
  | _ => exact .stuck

/-! The sections of `kexit`. -/

theorem exitLoadStep_follows
    (live : ∀ q, (k i).parent = some q → phase (k q).state = .live) :
    Follows (Rel E) (exitLoadStep k i status) (exitLoadStep k2 i status) := by
  unfold exitLoadStep
  rw [h.parent]
  cases par : (k i).parent with
  | none => exact .go _ (h.goto _)
  | some q =>
    dsimp only
    rw [h.blind.forks (h.entry q) (live q par)]
    exact .go _ (h.goto _)

theorem exitReparentStep_follows
    (used : ∀ m, (k m).parent = some i → (k m).state ≠ .unused) :
    Follows (Rel E) (exitReparentStep k i status n) (exitReparentStep k2 i status n) := by
  unfold exitReparentStep
  cases slotAt n with
  | none => rw [h.parent]; exact .go _ (h.goto _)
  | some m =>
    dsimp only
    rw [h.parent]
    split
    · exact .go _ ((h.store (.parent _ (used m ‹_›))).goto _)
    · exact .go _ (h.goto _)

theorem wakeupStep_follows {chan w} :
    Follows (Rel E) (wakeupStep k i chan n w) (wakeupStep k2 i chan n w) := by
  unfold wakeupStep
  cases slotAt n with
  | none => exact .go _ (h.goto _)
  | some m =>
    dsimp only
    split
    · exact .go _ (h.goto _)
    · exact lock_follows h fun lock => .go _ ((h.store (.wake chan lock)).goto _)

/-! The sections of `kwait`, `kwaitpid` and `kipc_recv`. -/

theorem collect_follows (hs : ∀ m, Shape m (k2 m)) (dead : (k m).state = .zombie)
    (lock : (k m).locked = false) :
    Follows (Rel E) (collect k i m addr c) (collect k2 i m addr c) := by
  obtain ⟨s, hi⟩ := h.self
  have mem : (k2 i).mem = (k i).mem := by rw [hi]
  cases c with
  | page ok =>
    unfold collect
    dsimp only
    rw [mem, (h.blind.seen (h.entry m)).2.2.2, h.pid]
    split
    · exact .go _ ((h.copied _).goto _)
    · refine .go _ (((h.copied _).store (.free ?_ ?_ ?_)).goto _)
      · rw [upd_frame Proc.state rfl, dead]
      · rw [upd_frame Proc.locked rfl, lock]
      · rw [upd_frame Proc.cpu rfl, ← h.blind.cpu (h.entry m) (.inl lock)]
        have dead := (h.state m).trans dead
        exact ((hs m).zombie_inv dead (h.blind.unlocked (h.entry m) lock)).1
  | _ => exact .stuck

theorem waitScanStep_follows (hs : ∀ m, Shape m (k2 m)) {kids} :
    Follows (Rel E) (waitScanStep k i addr n kids c) (waitScanStep k2 i addr n kids c) := by
  have goto := h.goto
  unfold waitScanStep
  cases slotAt n with
  | none =>
    dsimp only
    split
    · exact .go _ (goto _)
    · exact .go _ (goto _)
  | some m =>
    dsimp only
    rw [h.parent]
    split
    · refine lock_follows h fun lock => ?_
      rw [h.state]
      split
      · exact collect_follows h hs ‹_› lock
      · exact .go _ (goto _)
    · exact .go _ (goto _)

theorem waitpidScanStep_follows (hs : ∀ m, Shape m (k2 m)) :
    Follows (Rel E) (waitpidScanStep k i pid addr n c) (waitpidScanStep k2 i pid addr n c) := by
  have goto := h.goto
  unfold waitpidScanStep
  cases slotAt n with
  | none => exact .go _ (goto _)
  | some m =>
    dsimp only
    rw [h.parent, h.pid]
    split
    · refine lock_follows h fun lock => ?_
      rw [h.state]
      split
      · exact collect_follows h hs ‹_› lock
      · exact .go _ (goto _)
    · exact .go _ (goto _)

theorem recvTestStep_follows {dst} :
    Follows (Rel E) (recvTestStep k i dst n c) (recvTestStep k2 i dst n c) := by
  obtain ⟨s, hi⟩ := h.self
  cases c with
  | page ok =>
    unfold recvTestStep
    rw [hi]
    dsimp only
    split
    · split
      · exact .go _ ((h.copied _).goto _)
      · exact .go _ h.own.toRel
    · exact .go _ (h.goto _)
  | _ => exact .stuck

/-! The sections that look for a process by its pid. -/

theorem sendScanStep_follows {msg} :
    Follows (Rel E) (sendScanStep k i pid msg n) (sendScanStep k2 i pid msg n) := by
  unfold sendScanStep
  cases slotAt n with
  | none => exact .go _ (h.goto _)
  | some t =>
    dsimp only
    rw [h.pid, h.state]
    split
    · rename_i target
      rw [h.blind.mail (h.entry t) target.2]
      split
      · exact .go _ (h.goto _)
      · exact .go _ ((h.store (.mail msg target.2)).goto _)
    · exact .go _ (h.goto _)

/-- `kkill` and `ksigsend` do something to the first slot with the pid. -/
theorem pidScan_follows {pt : Point} {e : Event} (w : (k m).locked = false → Store (k m) f) :
    Follows (Rel E)
      (if (k m).locked then none
        else if (k m).pid = pid then some ((k.upd m f).ret i 0, e) else some (k.goto i pt, .tau))
      (if (k2 m).locked then none
        else if (k2 m).pid = pid then some ((k2.upd m f).ret i 0, e)
          else some (k2.goto i pt, .tau)) := by
  refine lock_follows h fun lock => ?_
  rw [h.pid]
  split
  · exact .go _ ((h.store (w lock)).ret _)
  · exact .go _ (h.goto _)

theorem childScanStep_follows {maxn m pids} : Follows (Rel E) (childScanStep k i addr maxn m pids n)
      (childScanStep k2 i addr maxn m pids n) := by
  unfold childScanStep
  cases slotAt m with
  | none => exact .go _ ((h.lock _).goto _)
  | some q =>
    dsimp only
    rw [h.parent, h.state, h.pid]
    split <;> exact .go _ (h.goto _)

theorem childCopyStep_follows {maxn pids} : Follows (Rel E) (childCopyStep k i addr maxn pids n c)
      (childCopyStep k2 i addr maxn pids n c) := by
  obtain ⟨s, hi⟩ := h.self
  have mem : (k2 i).mem = (k i).mem := by rw [hi]
  cases c with
  | page ok =>
    simp only [childCopyStep, mem]
    split
    · exact .go _ (h.ret _)
    split
    · exact .stuck
    split <;> exact .go _ ((h.copied _).ret _)
  | spill ok bytes =>
    simp only [childCopyStep]
    split
    · refine .go _ (Sim.ret ?_ _)
      exact h.own (f := fun p => { p with mem := (copyout ok p.mem addr.toNat bytes).1 })
    · exact .stuck
  | _ => exact .stuck

/-- The relation is kept by what a thread does to its own entry when it leaves its hart. -/
def Off (E : Slot → Proc → Proc → Prop) (i : Slot) : Prop :=
  ∀ {p q f}, E i p q → p.cpu ≠ none → Own p f → E i (f p) (f q)

theorem threadStep_follows (wf : Wf k2)
    (sig : (k i).point = .syscall →
      syscallOf (argint (k i).trapframe.user.a7) = .sigreturn →
        E i (sysSigreturn (k i)) (sysSigreturn (k2 i)))
    (off : leaves (k i).point c = true → Off E i) :
    Follows (Rel E) (threadStep k i c (k i).point) (threadStep k2 i c (k2 i).point) := by
  obtain ⟨s, hi⟩ := h.self
  have pt : (k2 i).point = (k i).point := by rw [hi]
  have killed : (k2 i).killed = (k i).killed := by rw [hi]
  have goto := h.goto
  have swtch : ∀ {f}, leaves (k i).point c = true → Own (k i) f →
      Rel E (k.upd i f) (k2.upd i f) := fun hl own => h.upd (off hl (h.entry i) h.run own)
  rw [pt]
  have used : ∀ {m : Slot}, making (k i).point = some m → (k m).state = .used :=
    fun {m} hm => (h.state m).symm.trans (wf.links.making i m (pt.symm ▸ hm)).1
  cases hpt : (k i).point with
  | user => exact userStep_follows h
  | syscall => exact syscallStep_follows h (sig hpt)
  | tail =>
    simp only [threadStep, tailStep, killed]
    split <;> exact .go _ (goto _)
  | sigTest =>
    simp only [threadStep, sigTestStep, hi]
    split <;> exact .go _ (goto _)
  | sigScan => exact sigScanStep_follows h
  | sigLoad s => simp only [threadStep, hi]; exact .go _ (goto _)
  | sigStore s w =>
    have same : (k2 i).trapframe = (k i).trapframe := by rw [hi]
    simp only [threadStep, same]
    exact .go _ (h.upd (h.blind.deliver (h.entry i) h.run))
  | prepare | forkret => exact prepareStep_follows h
  | forkCheck =>
    simp only [threadStep, forkCheckStep, hi]
    split
    · exact .go _ (h.ret _)
    · exact .go _ (goto _)
  | forkScan => exact forkScanStep_follows h
  | allocReady f m pid =>
    exact .go _ ((h.store (.clearReady (used (by rw [hpt]; rfl)))).goto _)
  | allocLen f m pid => exact .go _ ((h.store (.clearLen (used (by rw [hpt]; rfl)))).goto _)
  | allocRest f m pid =>
    have used := used (m := m) (by rw [hpt]; rfl)
    have off := ((wf.shape m).used_inv ((h.state m).trans used)).1
    exact allocRestStep_follows h used ((h.blind.cpu (h.entry m) (.inr used)).symm.trans off)
  | forkLink m pid =>
    have there : (k m).state ≠ .unused := by rw [used (by rw [hpt]; rfl)]; decide
    exact wait_follows h (.go _ ((h.store (.parent _ there)).goto _))
  | forkReady m pid =>
    refine lock_follows h fun lock => .go _ ((h.store ?_).goto _)
    exact .ready ((h.state m).symm.trans (wf.links.readying i m pid (pt.trans hpt)).1) lock
  | forkLoad => simp only [threadStep, forkLoadStep, hi]; exact .go _ (goto _)
  | forkStore => exact .go _ ((h.store (.count _)).ret _)
  | exitLoad =>
    refine exitLoadStep_follows h fun q par => ?_
    rw [← h.state]
    exact wf.links.parents i q ((h.parent i).trans par)
  | exitStore => exact .go _ ((h.store (.count _)).goto _)
  | exitClose =>
    simp only [threadStep, exitCloseStep]
    split
    · exact .stuck
    · exact .go _ h.own.toRel
  | exitLock | enter | sendLock | childLock =>
    exact wait_follows h (.go _ ((h.lock _).goto _))
  | exitReparent =>
    refine exitReparentStep_follows h fun m par => ?_
    rw [← h.state]
    exact wf.occupied ((h.parent m).trans par)
  | wakeup => exact wakeupStep_follows h
  | exitZombie => exact .go _ (h.own (fun h => by cases h)).toRel
  | exitUnlock | sleepRelease => exact .go _ ((h.lock _).goto _)
  | exitSched => exact .go _ (swtch (by rw [hpt]; rfl) ⟨id, rfl, fun _ => rfl⟩)
  | dead | asleep _ | napping => exact .stuck
  | waitScan => exact waitScanStep_follows h wf.shape
  | waitpidScan => exact waitpidScanStep_follows h wf.shape
  | recvTest => exact recvTestStep_follows h
  | callKilled =>
    simp only [threadStep, callKilledStep, killed]
    split <;> exact .go _ (goto _)
  | sleepLock => exact .go _ h.own.toRel
  | sleepSwitch => exact .go _ (swtch (by rw [hpt]; rfl) ⟨by rintro ⟨⟩, rfl, fun _ => rfl⟩)
  | unlock => exact .go _ ((h.lock _).ret _)
  | sendScan => exact sendScanStep_follows h
  | killScan pid n =>
    simp only [threadStep, killScanStep]
    cases slotAt n with
    | none => exact .go _ (h.ret _)
    | some m => exact pidScan_follows h .kill
  | sigsendScan pid s n =>
    simp only [threadStep, sigsendScanStep]
    cases slotAt n with
    | none => exact .go _ (h.ret _)
    | some m => exact pidScan_follows h (.raise s)
  | ppid =>
    simp only [threadStep, ppidStep, h.pid]
    exact .go _ (h.ret _)
  | childScan => exact childScanStep_follows h
  | childCopy => exact childCopyStep_follows h
  | other =>
    cases c with
    | finish v mem ofile cwd =>
      exact .go _
        ((h.own (f := fun p => { p with mem := mem, ofile := ofile, cwd := cwd })).ret _)
    | nap n => exact .go _ (swtch (by rw [hpt]; rfl) ⟨by rintro ⟨⟩, rfl, fun _ => rfl⟩)
    | _ => exact .stuck

end sections

end OsProject.Xv6.Simulation
