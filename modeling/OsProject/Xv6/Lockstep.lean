import OsProject.Xv6.Simulation

/-! # Two kernels in lockstep

Two kernels that differ in one slot only, and there in nothing that any section
reads, do the same at every choice. While the slot is unused or its new
occupant is being made, only the fields that `allocproc` and `kfork` do not
write have to agree; from then on, every field but the saved trapframe, and
that one as well while a handler runs. -/
namespace OsProject.Xv6.Lockstep
open Lib.Transition ProcTable Machine
open Lifecycle Table Family Simulation

/-- The kernels agree on everything outside slot `j`. -/
structure EqualBut (j : Slot) (k k2 : Kernel) : Prop where
  others : ∀ m, m ≠ j → k2.proc m = k.proc m
  waitLock : k2.waitLock = k.waitLock
  nextpid : k2.nextpid = k.nextpid
  satp : k2.satp = k.satp
  usertrap : k2.usertrap = k.usertrap

/-- Two entries that agree on the fields that are read before `allocproc` and
`kfork` have written them, or that these do not write. With `same`, the saved
trapframe is one of them. -/
structure Blank (same : Prop) (p q : Proc) : Prop where
  state : q.state = p.state
  locked : q.locked = p.locked
  chan : q.chan = p.chan
  killed : q.killed = p.killed
  xstate : q.xstate = p.xstate
  pid : q.pid = p.pid
  parent : q.parent = p.parent
  ofile : q.ofile = p.ofile
  ipcReady : q.ipcReady = p.ipcReady
  ipcLen : q.ipcLen = p.ipcLen
  cpu : q.cpu = p.cpu
  off : p.cpu = none
  saved : same → q.savedTrapframe = p.savedTrapframe

/-- Two entries that nobody can tell apart: unused ones, children whose maker is
still at them, or the same process up to a saved trapframe that no handler will
return to. -/
inductive Alike (same : Prop) (p q : Proc) : Prop
  | vacant (free : p.state = .unused) (b : Blank same p q)
  | embryo (st : p.state = .used) (lock : p.locked = true) (b : Blank same p q)
      (pending : q.pendingSignals = p.pendingSignals) (point : q.point = p.point)
      (flag : p.handlingSignal = false) (flag' : q.handlingSignal = false)
  | occupied (st : p.state ≠ .unused) (eq : q = { p with savedTrapframe := q.savedTrapframe })
      (saved : same ∨ p.handlingSignal = true → q.savedTrapframe = p.savedTrapframe)

namespace Alike
variable {same : Prop} {p q : Proc}

theorem refl (st : p.state ≠ .unused) : Alike same p p := .occupied st rfl fun _ => rfl

variable {f : Proc → Proc} (h : Alike same p q)
include h

/-- The fields that are read of any entry, used or not. -/
theorem seen : q.state = p.state ∧ q.locked = p.locked ∧ q.chan = p.chan ∧
    q.killed = p.killed ∧ q.xstate = p.xstate ∧ q.pid = p.pid ∧ q.parent = p.parent ∧
    q.ipcReady = p.ipcReady ∧ q.cpu = p.cpu := by
  cases h with
  | vacant _ b | embryo _ _ b =>
    exact ⟨b.state, b.locked, b.chan, b.killed, b.xstate, b.pid, b.parent, b.ipcReady, b.cpu⟩
  | occupied st eq => rw [eq]; exact ⟨rfl, rfl, rfl, rfl, rfl, rfl, rfl, rfl, rfl⟩

/-- A process that is past its making is the same in both entries. -/
theorem made (st : Made p ∨ p.cpu ≠ none) :
    p.state ≠ .unused ∧ q = { p with savedTrapframe := q.savedTrapframe } ∧
      (same ∨ p.handlingSignal = true → q.savedTrapframe = p.savedTrapframe) := by
  cases h with
  | vacant free b => exact (st.elim (fun st => st.1 free) fun run => run b.off).elim
  | embryo used lock b =>
    rcases st with st | run
    · rw [st.2 used] at lock; cases lock
    · exact absurd b.off run
  | occupied st eq saved => exact ⟨st, eq, saved⟩

omit h

/-- An update of such a process that neither reads nor writes its saved trapframe. -/
theorem keep (st : p.state ≠ .unused) (eq : q = { p with savedTrapframe := q.savedTrapframe })
    (saved : same ∨ p.handlingSignal = true → q.savedTrapframe = p.savedTrapframe)
    (own : Own p f) : Alike same (f p) (f q) := by
  have mine : (f p).savedTrapframe = p.savedTrapframe := by
    conv_lhs => rw [show p = { p with savedTrapframe := p.savedTrapframe } from rfl, own.through]
  have hq : f q = { f p with savedTrapframe := q.savedTrapframe } := by
    conv_lhs => rw [eq, own.through]
  refine .occupied (fun un => st (own.live un)) ?_ fun hs => ?_
  · rw [hq]
  · rw [hq, mine]
    rw [own.flag] at hs
    exact saved hs

theorem store (h : Alike same p q) (w : Store p f) : Alike same (f p) (f q) := by
  cases h with
  | vacant free b =>
    cases w with
    | parent _ used | mail _ used => exact absurd free used
    | count | raise => exact .vacant free { b with }
    | wake chan lock =>
      -- nobody sleeps in an unused slot
      have idle : ∀ {p : Proc}, p.state = .unused → wake chan p = p := fun un =>
        if_neg fun hp => by rw [un] at hp; cases hp.1
      rw [idle free, idle (b.state.trans free)]
      exact .vacant free b
    | kill =>
      have idle : ∀ {p : Proc}, p.state = .unused → kill p = { p with killed := true } := by
        intro p un
        unfold kill
        rw [if_neg (by rw [un]; nofun)]
      rw [idle free, idle (b.state.trans free)]
      exact .vacant free { b with killed := rfl }
    | found pid =>
      exact .embryo rfl rfl { b with state := rfl, locked := rfl, pid := rfl } rfl rfl rfl rfl
    | clearReady used | clearLen used | made _ _ used | allocFail used | ready used | free used =>
      rw [free] at used; cases used
  | embryo st lock b pending point flag flag' =>
    cases w with
    | parent => exact .embryo st lock { b with parent := rfl } pending point flag flag'
    | count => exact .embryo st lock { b with } pending point flag flag'
    | mail =>
      exact .embryo st lock { b with ipcReady := rfl, ipcLen := rfl } pending point flag flag'
    | clearReady => exact .embryo st lock { b with ipcReady := rfl } pending point flag flag'
    | clearLen => exact .embryo st lock { b with ipcLen := rfl } pending point flag flag'
    | made f parent =>
      have used : p.state ≠ .unused := by rw [st]; nofun
      refine .occupied used ?_ fun hs => b.saved (hs.resolve_right fun on => ?_)
      · obtain ⟨state, -, chan, killed, xstate, pid, par, ofile, ready, len, cpu, -⟩ := b
        simp only [release, forkCopy, allocproc, allocReset, state, chan, killed, xstate, pid, par,
          ofile, ready, len, cpu, pending, point, flag, flag']
      · rw [show (release (forkCopy f parent (allocproc p))).handlingSignal = p.handlingSignal from
          rfl, flag] at on
        cases on
    | allocFail =>
      exact .vacant rfl
        ⟨rfl, rfl, rfl, rfl, rfl, rfl, rfl, b.ofile, rfl, rfl, b.cpu, b.off, b.saved⟩
    | found _ free => rw [st] at free; cases free
    | free dead => rw [st] at dead; cases dead
    | wake _ open_ | kill open_ | raise _ open_ | ready _ open_ => rw [lock] at open_; cases open_
  | occupied st eq saved =>
    have kept : Own p f → Alike same (f p) (f q) := keep st eq saved
    cases w with
    | found _ free => exact absurd free st
    | wake chan =>
      refine kept ⟨?_, ?_, fun s => ?_⟩ <;> unfold wake <;> split <;> first | exact id | rfl | nofun
    | kill =>
      refine kept ⟨?_, rfl, fun _ => rfl⟩
      unfold kill
      split
      · nofun
      · exact id
    | ready => exact kept ⟨by rintro ⟨⟩, rfl, fun _ => rfl⟩
    | allocFail _ off | free _ _ off =>
      refine .vacant rfl ⟨rfl, ?_, rfl, rfl, rfl, rfl, rfl, ?_, rfl, rfl, ?_, off,
        fun hs => saved (.inl hs)⟩ <;> rw [eq] <;> rfl
    | parent | count | mail | raise | clearReady | clearLen | made =>
      exact kept ⟨id, rfl, fun _ => rfl⟩

end Alike

/-- The entry `m` of two kernels that differ in slot `j` only. -/
def Entry (same : Prop) (j m : Slot) (p q : Proc) : Prop := if m = j then Alike same p q else q = p

namespace Entry
variable {same : Prop} {i j m : Slot} {p q : Proc} {f : Proc → Proc}

theorem map (h : Entry same j m p q) (hf : Alike same p q → Alike same (f p) (f q)) :
    Entry same j m (f p) (f q) := by
  unfold Entry at h ⊢
  split
  · rename_i hm; rw [if_pos hm] at h; exact hf h
  · rename_i hm; rw [if_neg hm] at h; rw [h]

theorem seen (h : Entry same j m p q) : q.state = p.state ∧ q.locked = p.locked ∧
    q.chan = p.chan ∧ q.killed = p.killed ∧ q.xstate = p.xstate ∧ q.pid = p.pid ∧
    q.parent = p.parent ∧ q.ipcReady = p.ipcReady ∧ q.cpu = p.cpu := by
  unfold Entry at h
  split at h
  · exact h.seen
  · rw [h]; exact ⟨rfl, rfl, rfl, rfl, rfl, rfl, rfl, rfl, rfl⟩

theorem made (h : Entry same j m p q) (st : Made p ∨ p.cpu ≠ none) :
    q = { p with savedTrapframe := q.savedTrapframe } := by
  unfold Entry at h
  split at h
  · exact (h.made st).2.1
  · rw [h]

theorem keep (h : Entry same j m p q) (st : Made p ∨ p.cpu ≠ none) (own : Own p f) :
    Entry same j m (f p) (f q) :=
  h.map fun a =>
    let ⟨used, eq, saved⟩ := a.made st
    .keep used eq saved own

theorem blind : Blind (Entry same j) i where
  seen h := ⟨h.seen.1, h.seen.2.2.2.2.2.1, h.seen.2.2.2.2.2.2.1, h.seen.2.2.2.2.1⟩
  unlocked h lock := h.seen.2.1.trans lock
  cpu h _ := h.seen.2.2.2.2.2.2.2.2
  forks {m p q} h live := by
    have st : Made p := by constructor <;> intro st <;> rw [st] at live <;> cases live
    rw [h.made (.inl st)]
  mail h _ := h.seen.2.2.2.2.2.2.2.1
  own h run := h.made (.inr run)
  store h w := h.map fun a => a.store w
  keep h run own _ := h.keep (.inr run) own
  deliver h run := h.map fun a => by
    obtain ⟨st, eq, -⟩ := a.made (.inr run)
    rw [eq]
    exact .refl st

end Entry

/-- The two kernels differ in slot `j` only, and nobody can tell. -/
abbrev Rel (same : Prop) (j : Slot) : Kernel → Kernel → Prop := Simulation.Rel (Entry same j)

theorem EqualBut.rel {same : Prop} {j k k2} (h : EqualBut j k k2)
    (a : Alike same (k j) (k2 j)) : Rel same j k k2 := by
  refine ⟨fun m => ?_, h.waitLock, h.nextpid, h.satp, h.usertrap⟩
  unfold Entry
  split
  · rename_i hm; rw [hm]; exact a
  · exact h.others m ‹_›

section steps
variable {same : Prop} {i j : Slot} {k k2 : Kernel} (h : Rel same j k k2)
include h

theorem Rel.rest : EqualBut j k k2 :=
  ⟨fun m hm => (if_neg hm).mp (h.entry m), h.waitLock, h.nextpid, h.satp, h.usertrap⟩

theorem Rel.slot : Alike same (k j) (k2 j) := (if_pos rfl).mp (h.entry j)

theorem Rel.keep {f} (st : Made (k i) ∨ (k i).cpu ≠ none) (own : Own (k i) f) :
    Rel same j (k.upd i f) (k2.upd i f) := h.upd ((h.entry i).keep st own)

/-! The scheduler. -/

theorem dispatchStep_follows {hart} :
    Follows (Rel same j) (dispatchStep k i hart) (dispatchStep k2 i hart) := by
  have seen := fun m => (h.entry m).seen
  unfold dispatchStep
  simp only [(seen _).1, (seen _).2.1, (seen _).2.2.2.2.2.2.2.2]
  split
  · rename_i ready
    have st : Made (k i) := by constructor <;> rw [ready.1] <;> nofun
    refine .go _ (Rel.keep h (.inl st) ⟨nofun, ?_, fun s => ?_⟩) <;>
      unfold resume <;> split <;> first | rfl | simp_all
  · exact .stuck

theorem rouseStep_follows : Follows (Rel same j) (rouseStep k i) (rouseStep k2 i) := by
  obtain ⟨state, locked, chan, -⟩ := (h.entry i).seen
  unfold rouseStep
  rw [state, locked, chan]
  split
  · split
    · rename_i asleep
      have st : Made (k i) := by constructor <;> rw [asleep.1] <;> nofun
      exact .go _ (Rel.keep h (.inl st) ⟨by rintro ⟨⟩, rfl, fun _ => rfl⟩)
    · exact .stuck
  · exact .stuck

theorem step_follows (wf : Wf k2) (c : Choice)
    (sig : i = j → scheduling c = false → (k i).point = .syscall →
      syscallOf (argint (k i).trapframe.user.a7) = .sigreturn →
      same ∨ (k i).handlingSignal = true) :
    Follows (Rel same j) (step k i c) (step k2 i c) := by
  have cpu := (h.entry i).seen.2.2.2.2.2.2.2.2
  have thread : scheduling c = false → Follows (Rel same j)
      (if (k i).cpu = none then none else threadStep k i c (k i).point)
      (if (k2 i).cpu = none then none else threadStep k2 i c (k2 i).point) := by
    intro go
    rw [cpu]
    split
    · exact .stuck
    · rename_i run
      refine threadStep_follows ⟨h, Entry.blind, run⟩ wf (fun pt call => ?_)
        fun _ _ _ _ e run own => e.keep (.inr run) own
      have entry := h.entry i
      unfold Entry at entry ⊢
      split
      · -- it returns from a handler, or the saved trapframes are the same anyway
        rename_i hi
        rw [if_pos hi] at entry
        obtain ⟨st, eq, saved⟩ := entry.made (.inr run)
        rw [eq, saved (sig hi go pt call)]
        exact .refl st
      · rename_i hi
        rw [if_neg hi] at entry
        rw [entry]
  cases c with
  | dispatch hart => exact dispatchStep_follows h
  | rouse => exact rouseStep_follows h
  | yield =>
    simp only [step, cpu]
    split
    · exact .stuck
    · rename_i run
      have entry := (h.entry i).made (.inr run)
      have pt : (k2 i).point = (k i).point := by rw [entry]
      simp only [yieldStep, pt]
      split
      · exact .go _ (Rel.keep h (.inr run) ⟨by rintro ⟨⟩, rfl, fun _ => rfl⟩)
      · exact .stuck
  | _ => exact thread rfl

end steps

end OsProject.Xv6.Lockstep
