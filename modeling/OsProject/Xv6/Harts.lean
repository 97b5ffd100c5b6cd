import OsProject.Xv6.Simulation

/-! # Harts and the scheduler

`step` takes a process on and off a hart in one step. Here every hart has a
`c->proc` and a place of its own: it scans the table in `scheduler`, it has
switched to a process that still holds the `p->lock` it was given through
`swtch`, it runs the process's thread, or it is back in `scheduler` with the
lock to release. The threads run the sections of `threadStep`. Settling the
processes that are on their way on or off a hart gives a state of the coarser
machine, whose steps these are up to stuttering. -/
namespace OsProject.Xv6.Harts
open Lib.Transition Memory ProcTable Machine
open Lifecycle Table Family Simulation
open Option (ite_none_right_eq_some ite_none_left_eq_some)

inductive Hart where
  /-- in `scheduler`, about to acquire the lock of slot `n` -/
  | scan (n : Nat)
  /-- in `j`'s thread behind `swtch`, with the lock still held -/
  | entered (j : Slot)
  | runs (j : Slot)
  /-- in `scheduler` behind `swtch`, with `j`'s lock still held -/
  | back (j : Slot)
  deriving DecidableEq

/-- `c->proc`. -/
def Hart.proc : Hart → Option Slot
  | .scan _ => none
  | .entered j | .runs j | .back j => some j

structure Smp where
  kernel : Kernel
  hart : Nat → Hart

def Smp.set (s : Smp) (k : Kernel) (h : Nat) (x : Hart) : Smp :=
  ⟨k, fun m => if m = h then x else s.hart m⟩

/-- One round of `scheduler`'s loop, up to `swtch`. -/
def scanStep (s : Smp) (h n : Nat) : Option Smp :=
  match slotAt n with
  | none => some (s.set s.kernel h (.scan 0))
  | some j =>
    if (s.kernel j).locked then none
    else if (s.kernel j).state = .runnable then
      some (s.set (s.kernel.upd j fun p =>
        { p with locked := true, state := .running, cpu := some h }) h (.entered j))
    else some (s.set s.kernel h (.scan (n + 1)))

/-- What `sched` returns into releases the lock: `yield`, `sleep` or `forkret`. -/
def enteredStep (s : Smp) (h : Nat) (j : Slot) : Smp :=
  s.set (s.kernel.upd j fun p => { resume p with locked := false }) h (.runs j)

/-- `scheduler` behind `swtch`: `c->proc = 0` and the release of the lock. -/
def backStep (s : Smp) (h : Nat) (j : Slot) : Smp :=
  s.set (s.kernel.upd j fun p => { p with locked := false, cpu := none }) h (.scan (j.val + 1))

/-- A section of the thread of `j`. Where it ends in `swtch` the lock stays held. -/
def runsStep (s : Smp) (h : Nat) (j : Slot) (c : Choice) : Option Smp :=
  let p := s.kernel.proc j
  let off := fun f => some (s.set (s.kernel.upd j f) h (.back j))
  let thread := (threadStep s.kernel j c p.point).map fun r => s.set r.1 h (.runs j)
  match c with
  | .dispatch _ | .rouse => none
  | .yield =>
    if Point.preemptible p.point ∧ p.locked = false then
      off fun p => { p with locked := true, state := .runnable }
    else none
  | c => match p.point with
    | .sleepSwitch call => off fun p =>
        { p with chan := some (.proc j), state := .sleeping, point := .asleep call }
    | .exitSched => off fun p => { p with point := .dead }
    | .other => match c with
      | .nap n =>
        if p.locked then none
        else off fun p => { p with
          locked := true, chan := some (.other n), state := .sleeping, point := .napping }
      | _ => thread
    | _ => thread

/-- Hart `h` goes on, or someone wakes `j` from a channel outside the table. -/
inductive Move where
  | hart (h : Nat) (c : Choice)
  | rouse (j : Slot)

def smpStep (s : Smp) : Move → Option Smp
  | .rouse j => (rouseStep s.kernel j).map fun r => ⟨r.1, s.hart⟩
  | .hart h c => match s.hart h with
    | .scan n => scanStep s h n
    | .entered j => some (enteredStep s h j)
    | .runs j => runsStep s h j c
    | .back j => some (backStep s h j)

abbrev SmpStep : Smp → Move → Smp → Prop := ByStep smpStep

/-- All harts enter `scheduler`. -/
def smpBoot (b : Boot) : Smp := ⟨boot b, fun _ => .scan 0⟩

/-! ## Settling -/

/-- On the way on or off a hart. -/
def moving (hart : Nat → Hart) (p : Proc) : Bool :=
  match p.cpu with
  | none => false
  | some h => match hart h with
    | .entered _ | .back _ => true
    | _ => false

/-- The entry after the switch that is under way. -/
def settle (hart : Nat → Hart) (p : Proc) : Proc :=
  match p.cpu with
  | none => p
  | some h => match hart h with
    | .entered _ => { resume p with locked := false }
    | .back _ => { p with locked := false, cpu := none }
    | _ => p

def settled (hart : Nat → Hart) (k : Kernel) : Kernel :=
  { k with proc := fun j => settle hart (k j) }

section settle
variable {hart : Nat → Hart} {p : Proc} {k : Kernel} {j : Slot} {f : Proc → Proc}

theorem settle_still (h : moving hart p = false) : settle hart p = p := by
  unfold moving at h
  unfold settle
  split at h
  · rfl
  · split at h
    · cases h
    · cases h
    · rfl

theorem moving_cpu {q} (h : q.cpu = p.cpu) : moving hart q = moving hart p := by
  simp only [moving, h]

/-- The fields that settling leaves alone. -/
theorem settle_seen : (settle hart p).state = p.state ∧ (settle hart p).pid = p.pid ∧
    (settle hart p).parent = p.parent ∧ (settle hart p).forkCount = p.forkCount ∧
    (settle hart p).ipcReady = p.ipcReady ∧ (settle hart p).xstate = p.xstate := by
  unfold settle
  split
  · exact ⟨rfl, rfl, rfl, rfl, rfl, rfl⟩
  · split
    · unfold resume
      split <;> exact ⟨rfl, rfl, rfl, rfl, rfl, rfl⟩
    · exact ⟨rfl, rfl, rfl, rfl, rfl, rfl⟩
    · exact ⟨rfl, rfl, rfl, rfl, rfl, rfl⟩

theorem settled_state : ((settled hart k).proc j).state = (k j).state := settle_seen.1
/-- Settling commutes with an update of other fields than these. -/
theorem settle_apply (cpu : ∀ p, (f p).cpu = p.cpu)
    (off : ∀ p, f { p with locked := false, cpu := none } =
      { f p with locked := false, cpu := none })
    (on : ∀ p, f { resume p with locked := false } = { resume (f p) with locked := false }) :
    settle hart (f p) = f (settle hart p) := by
  unfold settle
  rw [cpu]
  split
  · rfl
  · split
    · exact (on p).symm
    · exact (off p).symm
    · rfl

theorem settle_parent (q : Option Slot) :
    settle hart { p with parent := q } = { settle hart p with parent := q } :=
  settle_apply (f := fun p => { p with parent := q }) (fun _ => rfl) (fun _ => rfl)
    fun p => by unfold resume; dsimp only; split <;> rfl

theorem settle_forkCount (v : Int) :
    settle hart { p with forkCount := v } = { settle hart p with forkCount := v } :=
  settle_apply (f := fun p => { p with forkCount := v }) (fun _ => rfl) (fun _ => rfl)
    fun p => by unfold resume; dsimp only; split <;> rfl

theorem settle_putMail (msg : List UInt8) :
    settle hart (putMail msg p) = putMail msg (settle hart p) :=
  settle_apply (fun _ => rfl) (fun _ => rfl)
    fun p => by unfold resume putMail; dsimp only; split <;> rfl

theorem settled_proc (still : moving hart (k j) = false) :
    (settled hart k).proc j = k.proc j := settle_still still

end settle

/-! ## The sections of a thread, settled -/

/-- An entry on its way on or off a hart is locked, and it is a process. -/
def Kept (hart : Nat → Hart) (p : Proc) : Prop :=
  moving hart p = true → p.locked = true ∧ p.state ≠ .unused ∧ p.state ≠ .used

/-- An entry whose hart is `cpu`, and the same entry settled. -/
structure Settled (hart : Nat → Hart) (cpu : Option Nat) (p q : Proc) : Prop where
  eq : q = settle hart p
  cpu : p.cpu = cpu
  kept : Kept hart p

namespace Settled
variable {hart : Nat → Hart} {cpu : Option Nat} {p q : Proc} {f : Proc → Proc}

theorem still (h : Kept hart p) (off : p.locked = false ∨ p.state = .used) :
    moving hart p = false := by
  refine Bool.eq_false_iff.2 fun hm => ?_
  obtain ⟨lock, -, used⟩ := h hm
  rcases off with off | off
  · rw [lock] at off; cases off
  · exact used off

/-- An update of an entry that is not on its way and stays on its hart. -/
theorem map (h : Settled hart cpu p q) (hm : moving hart p = false)
    (on : ∀ q, q = p → (f q).cpu = q.cpu) : Settled hart cpu (f p) (f q) := by
  have hm' : moving hart (f p) = false := (moving_cpu (on p rfl)).trans hm
  refine ⟨?_, (on p rfl).trans h.cpu, fun moves => ?_⟩
  · rw [h.eq, settle_still hm, settle_still hm']
  · rw [hm'] at moves; cases moves

/-- An update of the fields that are written whoever holds the lock. -/
theorem write (h : Settled hart cpu p q) (comm : settle hart (f p) = f (settle hart p))
    (on : (f p).cpu = p.cpu) (lock : (f p).locked = p.locked) (st : (f p).state = p.state) :
    Settled hart cpu (f p) (f q) := by
  refine ⟨by rw [h.eq, comm], on.trans h.cpu, fun moves => ?_⟩
  rw [lock, st]
  exact h.kept ((moving_cpu on).symm.trans moves)

theorem store (h : Settled hart cpu p q) (w : Store p f) : Settled hart cpu (f p) (f q) := by
  have on := w.cpu
  have map : moving hart p = false → Settled hart cpu (f p) (f q) :=
    fun hm => h.map hm fun q _ => on q
  have write : settle hart (f p) = f (settle hart p) → (f p).locked = p.locked →
      (f p).state = p.state → Settled hart cpu (f p) (f q) := fun comm => h.write comm (on p)
  cases w with
  | parent v => exact write (settle_parent v) rfl rfl
  | count v => exact write (settle_forkCount v) rfl rfl
  | mail msg => exact write (settle_putMail msg) rfl rfl
  | wake _ lock | kill lock | raise _ lock | found _ _ lock | free _ lock =>
    exact map (still h.kept (.inl lock))
  | clearReady used | clearLen used | made _ _ used | allocFail used | ready used =>
    exact map (still h.kept (.inr used))

end Settled

section thread
variable {hart : Nat → Hart} {k k' : Kernel} {i : Slot} {h : Nat} {c : Choice} {e : Event}

/-- The kernel and the kernel settled, with every process on its hart. -/
abbrev Settling (hart : Nat → Hart) (on : Slot → Option Nat) : Kernel → Kernel → Prop :=
  Rel fun m => Settled hart (on m)

theorem settling (kept : ∀ m, Kept hart (k m)) :
    Settling hart (fun m => (k m).cpu) k (settled hart k) :=
  ⟨fun m => ⟨rfl, rfl, kept m⟩, rfl, rfl, rfl, rfl⟩

theorem settling_eq {on k2} (r : Settling hart on k k2) : k2 = settled hart k :=
  Kernel.ext (funext fun m => (r.entry m).eq) r.waitLock r.nextpid r.satp r.usertrap

/-- The sections of a thread do not tell whether others are on their way. -/
theorem settled_blind (on : Slot → Option Nat) (cpu : on i = some h) (here : hart h = .runs i) :
    Blind (fun m => Settled hart (on m)) i := by
  have self : ∀ {p q}, Settled hart (on i) p q → moving hart p = false := by
    intro p q e
    simp [moving, e.cpu, cpu, here]
  exact {
    seen := fun e => by
      rw [e.eq]
      exact ⟨settle_seen.1, settle_seen.2.1, settle_seen.2.2.1, settle_seen.2.2.2.2.2⟩
    unlocked := fun e lock => by rw [e.eq, settle_still (Settled.still e.kept (.inl lock)), lock]
    cpu := fun e off => by rw [e.eq, settle_still (Settled.still e.kept off)]
    forks := fun e _ => by rw [e.eq]; exact settle_seen.2.2.2.1
    mail := fun e _ => by rw [e.eq]; exact settle_seen.2.2.2.2.1
    own := fun e _ => by rw [e.eq, settle_still (self e)]
    store := fun e w => e.store w
    keep := fun e _ _ same => e.map (self e) fun q hq => by rw [hq]; exact same
    deliver := fun e _ => e.map (f := deliver _ _) (self e) fun _ _ => rfl }

/-- A section of a thread that stays on its hart, seen in the settled state. -/
theorem thread_settled (kept : ∀ m, Kept hart (k m)) (cpu : (k i).cpu = some h)
    (here : hart h = .runs i) (wf : Wf (settled hart k)) (stays : leaves (k i).point c = false)
    (st : threadStep k i c (k i).point = some (k', e)) :
    threadStep (settled hart k) i c ((settled hart k).proc i).point = some (settled hart k', e) ∧
      Settling hart (fun m => (k m).cpu) k' (settled hart k') := by
  have still : moving hart (k i) = false := by simp [moving, cpu, here]
  have both := threadStep_follows (c := c)
    ⟨settling kept, settled_blind (fun m => (k m).cpu) cpu here, by rw [cpu]; nofun⟩ wf
    (fun _ _ => ((settling kept).entry i).map (f := sysSigreturn) still fun _ _ => rfl)
    fun out => by rw [stays] at out; cases out
  rw [st] at both
  obtain ⟨k2, st2, after⟩ := both.inv
  obtain rfl := settling_eq after
  exact ⟨st2, after⟩

end thread

/-! ## The invariant -/

structure Safe (s : Smp) : Prop where
  mirror : ∀ h j, (s.hart h).proc = some j ↔ (s.kernel j).cpu = some h
  kept : ∀ m, Kept s.hart (s.kernel m)
  wf : Wf (settled s.hart s.kernel)

section set
variable {s : Smp} {k : Kernel} {h : Nat} {x : Hart} {j : Slot} {f : Proc → Proc} {p : Proc}

theorem set_self : (s.set k h x).hart h = x := by simp [Smp.set]

theorem set_ne {h'} (ne : h' ≠ h) : (s.set k h x).hart h' = s.hart h' := by simp [Smp.set, ne]

theorem moving_set (ne : p.cpu ≠ some h) : moving (s.set k h x).hart p = moving s.hart p := by
  unfold moving
  split
  · rfl
  · rename_i h' cpu
    rw [set_ne (by rintro rfl; exact ne cpu)]

theorem settle_set (ne : p.cpu ≠ some h) : settle (s.set k h x).hart p = settle s.hart p := by
  unfold settle
  split
  · rfl
  · rename_i h' cpu
    rw [set_ne (by rintro rfl; exact ne cpu)]

/-- Hart `h` and entry `j` change together, and `h` has to do with no other entry. -/
theorem settled_set (others : ∀ m, m ≠ j → (s.kernel m).cpu ≠ some h) :
    settled (s.set (s.kernel.upd j f) h x).hart (s.kernel.upd j f) =
      (settled s.hart s.kernel).upd j fun _ =>
        settle (s.set (s.kernel.upd j f) h x).hart (f (s.kernel j)) := by
  refine Kernel.ext (funext fun m => ?_) rfl rfl rfl rfl
  by_cases hm : m = j
  · subst hm
    simp only [settled, upd_self]
  · simp only [settled, upd_ne hm]
    exact settle_set (others m hm)

theorem mirror_set (mirror : ∀ h j, (s.hart h).proc = some j ↔ (s.kernel j).cpu = some h)
    (others : ∀ m, m ≠ j → (s.kernel m).cpu ≠ some h)
    (old : (s.kernel j).cpu = none ∨ (s.kernel j).cpu = some h)
    (new : x.proc = some j ∧ (f (s.kernel j)).cpu = some h ∨
      x.proc = none ∧ (f (s.kernel j)).cpu = none) (h' : Nat) (m : Slot) :
    ((s.set (s.kernel.upd j f) h x).hart h').proc = some m ↔
      ((s.kernel.upd j f).proc m).cpu = some h' := by
  by_cases hh : h' = h
  · subst hh
    rw [set_self]
    by_cases hm : m = j
    · subst hm
      rcases new with ⟨px, cpu⟩ | ⟨px, cpu⟩ <;> simp [px, cpu]
    · rw [upd_ne hm]
      refine iff_of_false ?_ (others m hm)
      rcases new with ⟨px, -⟩ | ⟨px, -⟩ <;> simp [px, Ne.symm hm]
  · rw [set_ne hh, mirror]
    by_cases hm : m = j
    · subst hm
      have away : (s.kernel m).cpu ≠ some h' := by
        rcases old with old | old <;> simp [old, Ne.symm hh]
      refine iff_of_false away ?_
      rcases new with ⟨-, cpu⟩ | ⟨-, cpu⟩ <;> simp [cpu, Ne.symm hh]
    · rw [upd_ne hm]

theorem kept_set (kept : ∀ m, Kept s.hart (s.kernel m))
    (others : ∀ m, m ≠ j → (s.kernel m).cpu ≠ some h)
    (new : Kept (s.set (s.kernel.upd j f) h x).hart (f (s.kernel j))) (m : Slot) :
    Kept (s.set (s.kernel.upd j f) h x).hart ((s.kernel.upd j f).proc m) := by
  by_cases e : m = j
  · subst e
    rw [upd_self]
    exact new
  · rw [upd_ne e, Kept, moving_set (others m e)]
    exact kept m

end set

/-- A step of the harts is nothing or one step in the settled state. -/
inductive Settles (k k' : Kernel) : Prop
  | same (eq : k' = k)
  | moves (l : Label) (s : Step k l k')

theorem Settles.wf {k k'} (h : Settles k k') (wf : Wf k) : Wf k' := by
  cases h with
  | same eq => rw [eq]; exact wf
  | moves l s => exact wf_step wf s

/-- The step's update, written out at the entry. -/
theorem Settles.upd {k j c e f g}
    (s : step k j c = some (k.upd j g, e)) (eq : f (k j) = g (k j)) :
    Settles k (k.upd j f) := .moves ⟨j, c, e⟩ (upd_congr eq ▸ s)

theorem Settles.stutter {k j q} (eq : q = k.proc j) : Settles k (k.upd j fun _ => q) := by
  refine .same (Kernel.ext (funext fun m => ?_) rfl rfl rfl rfl)
  rw [upd_proc, eq]
  split
  · rename_i hm; rw [hm]
  · rfl

section steps
variable {s s' : Smp} {h : Nat} {j : Slot}

/-- The invariant is kept, and settled the step is one of the coarser machine or none. -/
def Goes (s s' : Smp) : Prop :=
  Safe s' ∧ Settles (settled s.hart s.kernel) (settled s'.hart s'.kernel)

theorem Safe.on (safe : Safe s) {x} (here : s.hart h = x) (proc : x.proc = some j) :
    (s.kernel j).cpu = some h := (safe.mirror h j).1 (here ▸ proc)

/-- Hart `h` is concerned with no entry but its own. -/
theorem Safe.others (safe : Safe s) (own : ∀ m, (s.hart h).proc = some m → m = j) :
    ∀ m, m ≠ j → (s.kernel m).cpu ≠ some h :=
  fun m ne cpu => ne (own m ((safe.mirror h m).2 cpu))

/-- A hart and its entry change together. -/
theorem Safe.set {f x} (safe : Safe s) (own : ∀ m, (s.hart h).proc = some m → m = j)
    (old : (s.kernel j).cpu = none ∨ (s.kernel j).cpu = some h)
    (new : x.proc = some j ∧ (f (s.kernel j)).cpu = some h ∨
      x.proc = none ∧ (f (s.kernel j)).cpu = none)
    (kept : Kept (s.set (s.kernel.upd j f) h x).hart (f (s.kernel j)))
    (settles : Settles (settled s.hart s.kernel) ((settled s.hart s.kernel).upd j fun _ =>
      settle (s.set (s.kernel.upd j f) h x).hart (f (s.kernel j)))) :
    Goes s (s.set (s.kernel.upd j f) h x) := by
  have others := safe.others own
  have eq := settled_set (f := f) (x := x) others
  have settles' : Settles (settled s.hart s.kernel)
      (settled (s.set (s.kernel.upd j f) h x).hart (s.kernel.upd j f)) := by rw [eq]; exact settles
  exact ⟨⟨mirror_set safe.mirror others old new, kept_set safe.kept others kept,
    settles'.wf safe.wf⟩, settles'⟩

/-- No entry changes hands. -/
theorem Safe.stay {k'} (safe : Safe s)
    (after : Settling s.hart (fun m => (s.kernel m).cpu) k' (settled s.hart k'))
    (settles : Settles (settled s.hart s.kernel) (settled s.hart k')) : Goes s ⟨k', s.hart⟩ := by
  refine ⟨⟨fun h j => ?_, fun m => (after.entry m).kept, settles.wf safe.wf⟩, settles⟩
  rw [(after.entry j).cpu]
  exact safe.mirror h j

/-- An entry whose lock is free is not on its way. -/
theorem Safe.still (safe : Safe s) (lock : (s.kernel j).locked = false) :
    moving s.hart (s.kernel j) = false := Settled.still (safe.kept j) (.inl lock)

theorem settle_cpu {hart p} (cpu : (settle hart p).cpu = some h) : p.cpu = some h := by
  unfold settle at cpu
  split at cpu
  · exact cpu
  · split at cpu
    · unfold resume at cpu
      split at cpu <;> exact cpu
    · cases cpu
    · exact cpu

/-- A round over the table begins, or the slot has nothing to run. -/
theorem safe_rescan {n n'} (safe : Safe s) (here : s.hart h = .scan n) :
    Goes s (s.set s.kernel h (.scan n')) := by
  have idle : ∀ m, (s.kernel m).cpu ≠ some h := by
    intro m cpu
    have own := (safe.mirror h m).2 cpu
    rw [here] at own
    cases own
  have eq : settled (s.set s.kernel h (.scan n')).hart s.kernel = settled s.hart s.kernel :=
    Kernel.ext (funext fun m => settle_set (idle m)) rfl rfl rfl rfl
  refine ⟨⟨fun h' m => ?_, fun m => ?_, ?_⟩, .same eq⟩
  · by_cases hh : h' = h
    · subst hh
      rw [set_self]
      exact iff_of_false (by rintro ⟨⟩) (idle m)
    · rw [set_ne hh]
      exact safe.mirror h' m
  · rw [show (s.set s.kernel h (.scan n')).kernel = s.kernel from rfl, Kept, moving_set (idle m)]
    exact safe.kept m
  · exact eq.symm ▸ safe.wf

/-- `scheduler` switches to a process. -/
theorem safe_dispatch {n} (safe : Safe s) (here : s.hart h = .scan n)
    (lock : (s.kernel j).locked = false) (ready : (s.kernel j).state = .runnable) :
    Goes s (s.set (s.kernel.upd j fun p =>
      { p with locked := true, state := .running, cpu := some h }) h (.entered j)) := by
  have still := settled_proc (safe.still lock)
  have idle : ∀ m, ((settled s.hart s.kernel).proc m).cpu ≠ some h := by
    intro m cpu
    have own := (safe.mirror h m).2 (settle_cpu cpu)
    rw [here] at own
    cases own
  have off : (s.kernel j).cpu = none := by
    have shape := safe.wf.shape j
    cases shape <;> simp_all
  refine safe.set (by rw [here]; rintro m ⟨⟩) (.inl off) (.inl ⟨rfl, rfl⟩)
    (fun _ => ⟨rfl, nofun, nofun⟩) ?_
  refine .upd (c := .dispatch h)
    (if_pos ⟨settled_state.trans ready, by rw [still]; exact lock, idle⟩) ?_
  rw [still]
  simp only [settle, set_self]
  unfold resume
  dsimp only
  split <;> rw [← lock]

/-- The lock that came through `swtch` is released by the thread. -/
theorem safe_entered (safe : Safe s) (here : s.hart h = .entered j) :
    Goes s (enteredStep s h j) := by
  have cpu := safe.on here rfl
  have after : (resume (s.kernel j)).cpu = some h := by
    unfold resume
    split <;> exact cpu
  refine safe.set (by rw [here]; rintro m ⟨⟩; rfl) (.inr cpu) (.inl ⟨rfl, after⟩) ?_ (.stutter ?_)
  · simp [Kept, moving, after, set_self]
  · simp [settle, settled, after, set_self, cpu, here]

/-- The lock that came back through `swtch` is released by `scheduler`. -/
theorem safe_back (safe : Safe s) (here : s.hart h = .back j) : Goes s (backStep s h j) := by
  have cpu := safe.on here rfl
  refine safe.set (by rw [here]; rintro m ⟨⟩; rfl) (.inr cpu) (.inr ⟨rfl, rfl⟩) (by rintro ⟨⟩)
    (.stutter ?_)
  simp [settle, settled, cpu, here]

/-- A thread switches to `scheduler` with its lock held. -/
theorem safe_off {f g c e} (safe : Safe s)
    (here : s.hart h = .runs j) (lock : (f (s.kernel j)).locked = true)
    (used : (f (s.kernel j)).state ≠ .unused ∧ (f (s.kernel j)).state ≠ .used)
    (cpu : (f (s.kernel j)).cpu = (s.kernel j).cpu)
    (st : step (settled s.hart s.kernel) j c = some ((settled s.hart s.kernel).upd j g, e))
    (eq : { f (s.kernel j) with locked := false, cpu := none } = g (s.kernel j)) :
    Goes s (s.set (s.kernel.upd j f) h (.back j)) := by
  have on := safe.on here rfl
  have self : (settled s.hart s.kernel).proc j = s.kernel.proc j :=
    settled_proc (by simp [moving, on, here])
  refine safe.set (by rw [here]; rintro m ⟨⟩; rfl) (.inr on) (.inl ⟨rfl, cpu.trans on⟩)
    (fun _ => ⟨lock, used⟩) (.upd st ?_)
  rw [self, ← eq]
  simp [settle, cpu, on, set_self]

/-- What a section of a running thread does: it leaves the hart from `yield`,
`sleep` or `kexit`, or it is a section of `threadStep` and stays. -/
inductive Ran (s : Smp) (h : Nat) (j : Slot) : Smp → Prop
  | yield (pt : Point.preemptible (s.kernel j).point = true)
      (lock : (s.kernel j).locked = false) :
      Ran s h j (s.set (s.kernel.upd j fun p => { p with locked := true, state := .runnable })
        h (.back j))
  | sleep (call : Call) (pt : (s.kernel j).point = .sleepSwitch call) :
      Ran s h j (s.set (s.kernel.upd j fun p =>
        { p with chan := some (.proc j), state := .sleeping, point := .asleep call }) h (.back j))
  | exit (pt : (s.kernel j).point = .exitSched) :
      Ran s h j (s.set (s.kernel.upd j fun p => { p with point := .dead }) h (.back j))
  | nap (n : Nat) (pt : (s.kernel j).point = .other)
      (lock : (s.kernel j).locked = false) :
      Ran s h j (s.set (s.kernel.upd j fun p => { p with
        locked := true, chan := some (.other n), state := .sleeping, point := .napping })
          h (.back j))
  | thread {c : Choice} {e : Event} {k' : Kernel} (go : scheduling c = false)
      (stays : leaves (s.kernel j).point c = false)
      (st : threadStep s.kernel j c (s.kernel j).point = some (k', e)) :
      Ran s h j (s.set k' h (.runs j))

theorem thread_ran {c} (st : (threadStep s.kernel j c (s.kernel j).point).map
      (fun r => s.set r.1 h (.runs j)) = some s') (go : scheduling c = false)
    (stays : leaves (s.kernel j).point c = false) : Ran s h j s' := by
  obtain ⟨⟨k', e⟩, ht, rfl⟩ := Option.map_eq_some_iff.1 st
  exact .thread go stays ht

theorem runs_ran {c} (st : runsStep s h j c = some s') : Ran s h j s' := by
  unfold runsStep at st
  dsimp only at st
  split at st
  · cases st
  · cases st
  · obtain ⟨go, ⟨⟩⟩ := ite_none_right_eq_some.1 st
    exact .yield go.1 go.2
  · rename_i noDispatch noRouse noYield
    have go : scheduling c = false := by
      cases c with
      | dispatch h => exact absurd rfl (noDispatch h)
      | rouse => exact absurd rfl noRouse
      | yield => exact absurd rfl noYield
      | _ => rfl
    split at st
    · cases st
      exact .sleep _ ‹_›
    · cases st
      exact .exit ‹_›
    · rename_i pt
      split at st
      · obtain ⟨lock, ⟨⟩⟩ := ite_none_left_eq_some.1 st
        exact .nap _ pt (by simpa using lock)
      · rename_i noNap
        refine thread_ran st go ?_
        rw [pt]
        cases c with
        | nap n => exact absurd rfl (noNap n)
        | _ => rfl
    · rename_i noSleep noExit noOther
      refine thread_ran st go ?_
      cases pt : (s.kernel j).point with
      | sleepSwitch call => exact absurd pt (noSleep call)
      | exitSched => exact absurd pt noExit
      | other => exact absurd pt noOther
      | _ => rfl

theorem set_same {k} (here : s.hart h = .runs j) : s.set k h (.runs j) = ⟨k, s.hart⟩ := by
  unfold Smp.set
  congr
  funext m
  split
  · rename_i hm; rw [hm, here]
  · rfl

theorem safe_runs (safe : Safe s) (here : s.hart h = .runs j) (ran : Ran s h j s') : Goes s s' := by
  have on := safe.on here rfl
  have still : moving s.hart (s.kernel j) = false := by simp [moving, on, here]
  have self := settled_proc still
  have run : ((settled s.hart s.kernel).proc j).cpu ≠ none := by rw [self, on]; rintro ⟨⟩
  have shape := safe.wf.shape j
  rw [self] at shape
  have go : ∀ {c r}, scheduling c = false → threadStep (settled s.hart s.kernel) j c
      (s.kernel j).point = r → step (settled s.hart s.kernel) j c = r := by
    intro c r go st
    rw [step_section run go, self]
    exact st
  cases ran with
  | yield pt lock =>
    have st : step (settled s.hart s.kernel) j .yield = some ((settled s.hart s.kernel).upd j
        fun p => { p with state := .runnable, cpu := none }, .tau) :=
      (if_neg run).trans (if_pos (by rw [self]; exact pt))
    exact safe_off safe here rfl ⟨nofun, nofun⟩ rfl st (by rw [← lock])
  | sleep call pt =>
    have lock := (shape.running_of_active (by rw [on]; nofun) (by rw [pt]; rfl)).2
    rw [pt] at lock
    exact safe_off safe here lock ⟨nofun, nofun⟩ rfl (go (c := .go) rfl (by rw [pt]; rfl)) rfl
  | exit pt =>
    have held : (s.kernel j).locked = true ∧ (s.kernel j).state = .zombie := by
      cases shape <;> simp_all [active, holdsLock]
    exact safe_off safe here held.1 (by rw [held.2]; exact ⟨nofun, nofun⟩) rfl
      (go (c := .go) rfl (by rw [pt]; rfl)) rfl
  | nap n pt lock =>
    exact safe_off safe here rfl ⟨nofun, nofun⟩ rfl (go (c := .nap n) rfl (by rw [pt]; rfl))
      (by rw [← lock])
  | thread sect stays st =>
    obtain ⟨st, after⟩ := thread_settled safe.kept on here safe.wf stays st
    rw [set_same here]
    exact safe.stay after (.moves ⟨j, _, _⟩ ((step_section run sect).trans st))

theorem safe_rouse {k' e} (safe : Safe s) (st : rouseStep s.kernel j = some (k', e)) :
    Goes s ⟨k', s.hart⟩ := by
  unfold rouseStep at st
  split at st
  · rename_i n chan
    obtain ⟨go, ⟨⟩⟩ := ite_none_right_eq_some.1 st
    have still := safe.still go.2
    let f : Proc → Proc := fun p => { p with state := .runnable }
    have after := (settling safe.kept).upd (f := f)
      (((settling safe.kept).entry j).map still fun _ _ => rfl)
    have eq := settling_eq after
    refine safe.stay (eq ▸ after) (.moves ⟨j, .rouse, .tau⟩ ?_)
    unfold Step step rouseStep
    rw [settled_proc still, chan]
    exact (if_pos go).trans (by rw [eq])
  · cases st

/-- What a round of `scheduler`'s loop does: it finds nothing to run in the
slot, or it switches to the process there. -/
inductive Scanned (s : Smp) (h : Nat) : Smp → Prop
  | on (n : Nat) : Scanned s h (s.set s.kernel h (.scan n))
  | switch (j : Slot) (lock : (s.kernel j).locked = false)
      (ready : (s.kernel j).state = .runnable) :
      Scanned s h (s.set (s.kernel.upd j fun p =>
        { p with locked := true, state := .running, cpu := some h }) h (.entered j))

theorem scan_scanned {n} (st : scanStep s h n = some s') : Scanned s h s' := by
  unfold scanStep at st
  split at st
  · cases st
    exact .on 0
  · obtain ⟨lock, st⟩ := ite_none_left_eq_some.1 st
    split at st
    · rename_i ready
      cases st
      exact .switch _ (by simpa using lock) ready
    · cases st
      exact .on (n + 1)

theorem smp_step {mv} (safe : Safe s) (st : SmpStep s mv s') : Goes s s' := by
  unfold SmpStep ByStep smpStep at st
  split at st
  · obtain ⟨⟨k', e⟩, ht, rfl⟩ := Option.map_eq_some_iff.1 st
    exact safe_rouse safe ht
  · split at st
    · rename_i here
      cases scan_scanned st with
      | on n => exact safe_rescan safe here
      | switch j lock ready => exact safe_dispatch safe here lock ready
    · rename_i here
      cases st
      exact safe_entered safe here
    · rename_i here
      exact safe_runs safe here (runs_ran st)
    · rename_i here
      cases st
      exact safe_back safe here

/-- Only `scheduler` switches to a process. -/
theorem entered_by_scan {mv} (st : SmpStep s mv s') (out : s.hart h ≠ .entered j)
    (into : s'.hart h = .entered j) : (s.kernel j).state = .runnable := by
  -- a move of another hart leaves `h` where it is
  have away : ∀ {h' : Nat} {k : Kernel} {x : Hart}, (∀ j, x ≠ .entered j) →
      s' ≠ s.set k h' x := by
    rintro h' k x no rfl
    by_cases hh : h = h'
    · subst hh
      rw [set_self] at into
      exact no j into
    · rw [set_ne hh] at into
      exact out into
  unfold SmpStep ByStep smpStep at st
  split at st
  · obtain ⟨r, -, rfl⟩ := Option.map_eq_some_iff.1 st
    exact absurd into out
  · rename_i h' c
    split at st
    · cases scan_scanned st with
      | on n => exact absurd rfl (away (x := .scan n) (by rintro j ⟨⟩))
      | switch j' lock ready =>
        by_cases hh : h = h'
        · subst hh
          rw [set_self] at into
          cases into
          exact ready
        · rw [set_ne hh] at into
          exact absurd into out
    · exact absurd (Option.some.inj st).symm (away (by rintro j ⟨⟩))
    · cases runs_ran st <;> exact absurd rfl (away (by rintro j ⟨⟩))
    · exact absurd (Option.some.inj st).symm (away (by rintro j ⟨⟩))

end steps

theorem boot_safe (b : Boot) : Safe (smpBoot b) := by
  have none_on : ∀ j, ((boot b).proc j).cpu = none := by
    intro j
    unfold boot
    dsimp only
    split <;> rfl
  have eq : settled (smpBoot b).hart (boot b) = boot b :=
    Kernel.ext (funext fun j => by simp [settled, settle, none_on]) rfl rfl rfl rfl
  refine ⟨fun h j => ?_, fun m hm => ?_, eq.symm ▸ history_wf .nil⟩
  · simp [smpBoot, Hart.proc, none_on]
  · simp [moving, smpBoot, none_on] at hm

theorem run_safe {b t s} (run : Run SmpStep (smpBoot b) t s) : Safe s :=
  run.keeps (boot_safe b) fun _ _ _ safe st => (smp_step safe st).1

/-- An unlocked process on a hart is in `RUNNING`. -/
theorem Safe.running {s} (safe : Safe s) {h j}
    (on : (s.hart h).proc = some j) (lock : (s.kernel j).locked = false) :
    (s.kernel j).state = .running := by
  have cpu := (safe.mirror h j).1 on
  have shape := safe.wf.shape j
  rw [settled_proc (safe.still lock)] at shape
  cases shape with
  | leaving _ _ held pt => rcases pt with pt | pt <;> rw [pt, lock] at held <;> cases held
  | running st => exact st
  | _ => simp_all

/-- A process that a hart has switched to is in `RUNNING` before it releases its lock. -/
theorem Safe.entered {s} (safe : Safe s) {h j}
    (here : s.hart h = .entered j) : (s.kernel j).state = .running := by
  have cpu := safe.on here rfl
  have eq : (settled s.hart s.kernel).proc j =
      { resume (s.kernel j) with locked := false } := by
    simp [settled, settle, cpu, here]
  have on : ((settled s.hart s.kernel).proc j).cpu = some h := by
    rw [eq]
    unfold resume
    split <;> exact cpu
  have lock : ((settled s.hart s.kernel).proc j).locked = false := by rw [eq]
  have seen : ((settled s.hart s.kernel).proc j).state = (s.kernel j).state := settled_state
  rw [← seen]
  cases safe.wf.shape j with
  | leaving _ _ held pt => rcases pt with pt | pt <;> rw [pt, lock] at held <;> cases held
  | running st => exact st
  | _ => simp_all

/-- For any number of harts and any interleaving: a process is the current
process of at most one hart, outside its lock's sections it is `RUNNING` there,
and only a `RUNNABLE` process is switched to. -/
theorem scheduling_safe {b : Boot} {t : List Move} {s : Smp}
    (run : Run SmpStep (smpBoot b) t s) :
    (∀ h h' j, (s.hart h).proc = some j → (s.hart h').proc = some j → h = h') ∧
    (∀ h j, (s.hart h).proc = some j → (s.kernel j).locked = false →
      (s.kernel j).state = .running) ∧
    (∀ h j, s.hart h = .entered j → (s.kernel j).state = .running) ∧
    ∀ mv s' h j, SmpStep s mv s' → s.hart h ≠ .entered j → s'.hart h = .entered j →
      (s.kernel j).state = .runnable := by
  have safe := run_safe run
  refine ⟨fun h h' j on on' => ?_, fun _ _ => safe.running, fun _ _ => safe.entered,
    fun _ _ _ _ st => entered_by_scan st⟩
  have cpu := (safe.mirror h j).1 on
  rw [(safe.mirror h' j).1 on'] at cpu
  exact (Option.some.inj cpu).symm

/-- `init` gives up hart 0, and hart 1 switches to it while hart 0 goes on with
its round. -/
theorem scheduling_safe_yield : ∃ t s s', Run SmpStep (smpBoot bareBoot) t s ∧
    SmpStep s (.hart 1 .go) s' ∧ s.hart 0 = .scan 1 ∧ s'.hart 1 = .entered initproc ∧
    (s.kernel initproc).state = .runnable ∧ (s'.kernel initproc).state = .running ∧
    ∀ h, (s'.hart h).proc = some initproc → h = 1 := by
  obtain ⟨s, run, off, out, next⟩ := foldlM_reaches smpStep (smpBoot bareBoot)
    [.hart 0 .go, .hart 0 .go, .hart 0 .yield, .hart 0 .go]
    (P := fun s => s.hart 0 = .scan 1 ∧ s.hart 1 ≠ .entered initproc ∧
      (smpStep s (.hart 1 .go)).any (fun s' => decide (s'.hart 1 = .entered initproc)) = true)
    (by decide +kernel)
  rw [Option.any_eq_true] at next
  obtain ⟨s', st, on⟩ := next
  replace on := of_decide_eq_true on
  obtain ⟨-, -, -, switched⟩ := scheduling_safe run
  obtain ⟨unique, -, entered, -⟩ := scheduling_safe (.cons run st)
  exact ⟨_, s, s', run, st, off, on, switched _ s' 1 initproc st out on, entered 1 initproc on,
    fun h cur => unique h 1 initproc cur (by rw [on]; rfl)⟩

/-- Settled, every state that the harts reach is one that sections of single
processes and of the scheduler reach one after another. -/
theorem harts_refine_sections {b : Boot} {t : List Move} {s : Smp}
    (run : Run SmpStep (smpBoot b) t s) : ∃ u, History b u (settled s.hart s.kernel) := by
  induction run with
  | nil =>
    have eq : settled (smpBoot b).hart (boot b) = boot b := by
      refine Kernel.ext (funext fun j => settled_proc ?_) rfl rfl rfl rfl
      unfold moving
      split <;> rfl
    exact ⟨[], eq.symm ▸ .nil⟩
  | cons run st ih =>
    obtain ⟨u, before⟩ := ih
    cases (smp_step (run_safe run) st).2 with
    | same eq => exact ⟨u, eq ▸ before⟩
    | moves l st => exact ⟨l :: u, .cons before st⟩

/-- Hart 0 has switched to init. -/
theorem harts_refine_switch : ∃ t s u, Run SmpStep (smpBoot bareBoot) t s ∧
    s.hart 0 = .entered initproc ∧ History bareBoot u (settled s.hart s.kernel) := by
  obtain ⟨s, run, on⟩ := foldlM_reaches smpStep (smpBoot bareBoot) [.hart 0 .go]
    (P := fun s => s.hart 0 = .entered initproc) (by decide +kernel)
  obtain ⟨u, sections⟩ := harts_refine_sections run
  exact ⟨_, s, u, run, on, sections⟩

end OsProject.Xv6.Harts
