import OsProject.Xv6.Pipes

/-! # Sleepers of a pipe

A process that sleeps on a pipe and could go on is always one that the holder of
`pi->lock` has still to wake. `pipewrite` breaks this when it finds that its process
was killed after it has stored bytes: it releases the lock without its `wakeup`. -/
namespace OsProject.Xv6.Pipes
open Lib Lib.Transition

variable {np : Nat}

/-- The channel that a process sleeps on, or is on its way to sleep on. -/
def sleepsOn : Point → Option Chan
  | .dozing c _ | .asleep c _ => some (chan c)
  | _ => none

/-- A sleeper on the channel could go on. -/
def Due (pi : Pipe) : Chan → Prop
  | .nread => pi.nread = pi.nwrite → pi.writeopen = false
  | .nwrite => pi.nwrite = pi.nread + UInt32.ofNat pipesize → pi.readopen = false

/-- The holder of the lock has still to wake the sleeper `m` on the channel. -/
def Owes (m : Nat) (ch : Chan) : Point → Prop
  | .write _ _ i since => ch = .nread ∧ i ≠ since
  | .copy _ i => ch = .nwrite ∧ i ≠ 0
  | .waking ch' q _ => ch = ch' ∧ q ≤ m
  | _ => False

def Owed (s : Sys np) : Prop :=
  ∀ m ch, sleepsOn (s.point m) = some ch → Due s.pipe ch →
    ∃ p, s.lock = some p ∧ Owes m ch (s.point p)

/-- What makes the writer come to its `wakeup`, and lets it sleep after it. -/
def Steady (s : Sys np) (p : Fin np) : Point → Prop
  | .write _ n i since => since ≤ i ∧
      (i ≠ since → (s.killed p = true → n.toInt ≤ i) ∧ s.pipe.readopen = true)
  | .waking _ _ (.sleep ..) => ¬ Due s.pipe .nwrite
  | _ => True

section steps
variable {s s' : Sys np} {e : Event np} {p m : Fin np}

variable {on : Chan → Bool} {pt : Point} {ch : Chan}

theorem sleepsOn_wake (h : sleepsOn (wake on pt) = some ch) :
    sleepsOn pt = some ch ∧ (pt = wake on pt) := by
  cases pt with
  | asleep c i =>
    rw [wake] at h ⊢
    split at h
    · cases h
    · rename_i off
      exact ⟨h, (if_neg off).symm⟩
  | _ => exact ⟨h, rfl⟩

/-- Who is woken does not sleep on the channel. -/
theorem woken_not_asleep (free : dozes pt = false) : sleepsOn (wake (· = ch) pt) ≠ some ch := by
  cases pt with
  | asleep c i =>
    rw [wake]
    split
    · exact (Option.some_ne_none ch).symm
    · rename_i off
      exact fun eq => off (decide_eq_true (Option.some.inj eq))
  | dozing => cases free
  | _ => exact (Option.some_ne_none ch).symm

theorem Owes.locked {k} (h : Owes k ch pt) : holdsLock pt = true := by
  cases pt with
  | write | copy | waking => rfl
  | idle | acquire | read | dozing | asleep => exact h.elim

theorem sleepsOn_none {k} (h : Owes k ch pt) : sleepsOn pt = none := by
  cases pt with
  | dozing | asleep => exact h.elim
  | _ => rfl

theorem wake_locked (h : holdsLock pt = true) : wake on pt = pt := by
  cases pt with
  | asleep => cases h
  | _ => rfl

theorem Goes.killed (h : Goes s p e s') : s'.killed = s.killed := by
  cases h with
  | @enterClose writable => cases writable <;> rfl
  | _ => rfl

theorem Steady.frame (h : Steady s m pt) (killed : s'.killed m = s.killed m)
    (locked : holdsLock pt = true → s'.pipe = s.pipe) : Steady s' m (wake on pt) := by
  cases pt with
  | write =>
    unfold wake Steady
    rw [killed, locked rfl]
    exact h
  | waking ch q next =>
    cases next with
    | sleep =>
      unfold wake Steady
      rw [locked rfl]
      exact h
    | ret => trivial
  | asleep c i =>
    rw [wake]
    split <;> trivial
  | idle | acquire | read | copy | dozing => trivial

/-- The process that goes on. -/
theorem Goes.steady (h : Goes s p e s') (here : Steady s p (s.point p)) :
    Steady s' p (s'.point p) := by
  cases h with
  | enterWrite pt =>
    rw [goto_self]
    exact ⟨le_refl _, fun ne => absurd rfl ne⟩
  | @enterClose writable => cases writable <;> exact (goto_self _ p _).symm ▸ trivial
  | writeFull pt readers full =>
    rw [goto_self]
    exact fun due => absurd (readers.symm.trans (due full)) (by decide)
  | writeByte pt readers alive =>
    rw [pt] at here
    rw [goto_self]
    refine ⟨Nat.le_succ_of_le here.1, fun _ => ⟨fun killed => ?_, readers⟩⟩
    exact absurd (killed.symm.trans alive) (by decide)
  | @wakeOne ch q next pt =>
    rw [pt] at here
    rw [goto_self]
    cases next <;> exact here
  | _ =>
    rw [goto_self]
    trivial

/-- A process that is on its way to sleep cannot go on. -/
theorem Goes.sleeper (h : Goes s p e s') (here : Steady s p (s.point p))
    (sleeps : sleepsOn (s'.point p) = some ch) (due : Due s'.pipe ch) :
    sleepsOn (s.point p) = some ch ∧ s'.pipe = s.pipe ∧ s'.lock = s.lock := by
  cases h with
  | readSleep pt empty writers =>
    rw [goto_self] at sleeps
    cases sleeps
    exact absurd (writers.symm.trans (due empty)) (by decide)
  | finishSleep pt =>
    rw [goto_self] at sleeps
    rw [pt] at here
    cases sleeps
    exact absurd due here
  | doze pt =>
    rw [goto_self] at sleeps
    rw [pt]
    exact ⟨sleeps, rfl, rfl⟩
  | @enterClose writable =>
    cases writable <;> (rw [pipeclose] at sleeps; exact absurd sleeps (by simp [sleepsOn]))
  | _ =>
    rw [goto_self] at sleeps
    cases sleeps

/-- A process without the lock goes on: it takes the lock, or goes to sleep. -/
theorem Goes.unlocked (h : Goes s p e s') (off : holdsLock (s.point p) ≠ true)
    (lock : s.lock ≠ some p) (inv : Owed s) (slept : sleepsOn (s.point m) = some ch)
    (due : Due s'.pipe ch) : ∃ q, s'.lock = some q ∧ Owes m ch (s'.point q) := by
  cases h with
  | enterWrite pt free | enterRead pt free =>
    obtain ⟨q, held, _⟩ := inv m ch slept due
    rw [free] at held
    cases held
  | @enterClose writable i pt free =>
    have idle : ¬ Due s.pipe ch := by
      intro due
      obtain ⟨q, held, _⟩ := inv m ch slept due
      rw [free] at held
      cases held
    refine ⟨p, by cases writable <;> rfl, ?_⟩
    cases writable with
    | true =>
      cases ch with
      | nread => exact (goto_self _ p _).symm ▸ ⟨rfl, Nat.zero_le _⟩
      | nwrite => exact absurd due idle
    | false =>
      cases ch with
      | nread => exact absurd due idle
      | nwrite => exact (goto_self _ p _).symm ▸ ⟨rfl, Nat.zero_le _⟩
  | doze pt =>
    obtain ⟨q, held, owes⟩ := inv m ch slept due
    have apart : q ≠ p := fun eq => lock (eq ▸ held)
    refine ⟨q, held, ?_⟩
    rw [goto_of_ne apart]
    exact owes
  | writeFail pt | writeFull pt | writeByte pt | writeEnd pt | readKilled pt | readSleep pt
      | readReady pt
  | copyByte pt | copyEnd pt | wakeOne pt | finishSleep pt | finishRet pt =>
    rw [pt] at off
    exact absurd rfl off

/-- The holder of the lock goes on, and another process sleeps. -/
theorem Goes.owes (h : Goes s p e s') (lock : s.lock = some p) (here : Steady s p (s.point p))
    (ne : m ≠ p) (sleeps : sleepsOn (s'.point m) = some ch) (due : Due s'.pipe ch)
    (owes : Due s.pipe ch → Owes m ch (s.point p)) : s'.lock = some p ∧ Owes m ch (s'.point p) := by
  cases h with
  | enterWrite pt free | enterRead pt free | enterClose pt free =>
    rw [free] at lock
    cases lock
  | writeFail pt left stop =>
    rw [pt] at owes here
    obtain ⟨_, stored⟩ := owes due
    obtain ⟨killed, readers⟩ := here.2 stored
    cases stop with
    | inl closed => exact absurd (readers.symm.trans closed) (by decide)
    | inr kill => exact absurd (killed kill) (Int.not_le.2 left)
  | writeFull pt | writeEnd pt | copyEnd pt =>
    rw [pt] at owes
    rw [goto_self]
    exact ⟨lock, (owes due).1, Nat.zero_le _⟩
  | writeByte pt readers alive room =>
    rw [pt] at owes here
    rw [goto_self]
    cases ch with
    | nread => exact ⟨lock, rfl, Nat.ne_of_gt (Nat.lt_succ_of_le here.1)⟩
    | nwrite => cases (owes fun full => absurd full room).1
  | readKilled pt | readSleep pt | readReady pt | doze pt =>
    rw [pt] at owes
    exact (owes due).elim
  | copyByte pt more =>
    rw [pt] at owes
    rw [goto_self]
    cases ch with
    | nread => cases (owes fun empty => absurd empty more).1
    | nwrite => exact ⟨lock, rfl, Nat.succ_ne_zero _⟩
  | @wakeOne ch' q next pt free =>
    rw [pt] at owes
    obtain ⟨rfl, behind⟩ := owes due
    rw [goto_self]
    refine ⟨lock, rfl, lt_of_le_of_ne behind fun eq => ?_⟩
    obtain rfl : q = m := Fin.ext eq
    rw [goto_of_ne ne, goto_self] at sleeps
    exact woken_not_asleep free sleeps
  | finishSleep pt all | finishRet pt all =>
    rw [pt] at owes
    exact absurd (le_trans all (owes due).2) (not_le.2 m.isLt)

theorem Goes.owed (h : Goes s p e s') (own : ∀ m, holdsLock (s.point m) = true → s.lock = some m)
    (here : Steady s p (s.point p)) (inv : Owed s) : Owed s' := by
  intro m ch sleeps due
  by_cases ne : m = p
  · subst ne
    obtain ⟨slept, pipe, lock⟩ := h.sleeper here sleeps due
    obtain ⟨q, held, owes⟩ := inv m ch slept (pipe ▸ due)
    refine ⟨q, lock.trans held, ?_⟩
    have apart : q ≠ m := by
      intro eq
      rw [← eq, sleepsOn_none owes] at slept
      cases slept
    obtain ⟨on, woken⟩ := h.others apart
    rw [woken, wake_locked owes.locked]
    exact owes
  · obtain ⟨on, woken⟩ := h.others ne
    rw [woken] at sleeps
    have slept := (sleepsOn_wake sleeps).1
    rw [← woken] at sleeps
    -- either `p` itself has the lock, or it can only take it
    by_cases lock : s.lock = some p
    · refine ⟨p, h.owes lock here ne sleeps due fun due => ?_⟩
      obtain ⟨q, held, owes⟩ := inv m ch slept due
      obtain rfl : q = p := Option.some.inj (held.symm.trans lock)
      exact owes
    · exact h.unlocked (fun hold => lock (own p hold)) lock inv slept due

/-- A write that has stored bytes since it took the lock and has bytes left. -/
def midWrite : Point → Bool
  | .write _ n i since => i ≠ since && i < n.toInt
  | _ => false

/-- `kkill` is not called for a process in the middle of a write. -/
def Uninterrupted (s : Sys np) (l : Act np × Event np) : Prop :=
  match l.1 with
  | .kill q => midWrite (s.point q) = false
  | _ => True

instance (s : Sys np) (l : Act np × Event np) : Decidable (Uninterrupted s l) :=
  decidable_of_iff ((match l.1 with
    | .kill q => !midWrite (s.point q)
    | _ => true) = true) (by unfold Uninterrupted; split <;> simp)

structure Awake (s : Sys np) : Prop where
  owed : Owed s
  steady : ∀ p, Steady s p (s.point p)

theorem Goes.awake (h : Goes s p e s') (own : ∀ m, holdsLock (s.point m) = true → s.lock = some m)
    (inv : Awake s) : Awake s' where
  owed := h.owed own (inv.steady p) inv.owed
  steady := by
    intro m
    by_cases ne : m = p
    · rw [ne]
      exact h.steady (inv.steady p)
    · obtain ⟨on, woken⟩ := h.others ne
      rw [woken]
      exact (inv.steady m).frame (congrFun h.killed m) fun hold =>
        (h.locked (own p) ne (own m hold)).1

/-- A step of `q` outside of the pipe, which can only wake it. -/
theorem Awake.still {q} (inv : Awake s) (pipe : s'.pipe = s.pipe) (lock : s'.lock = s.lock)
    (killed : ∀ m, m ≠ q → s'.killed m = s.killed m) (others : ∀ m, m ≠ q → s'.point m = s.point m)
    (sleeps : ∀ ch, sleepsOn (s'.point q) = some ch → sleepsOn (s.point q) = some ch)
    (owes : ∀ m ch, Owes m ch (s.point q) → Owes m ch (s'.point q))
    (here : Steady s' q (s'.point q)) : Awake s' where
  owed := by
    intro m ch slept due
    have before : sleepsOn (s.point m) = some ch := by
      by_cases ne : m = q
      · subst ne
        exact sleeps ch slept
      · rwa [others m ne] at slept
    obtain ⟨p, held, hp⟩ := inv.owed m ch before (pipe ▸ due)
    refine ⟨p, lock.trans held, ?_⟩
    by_cases ne : p = q
    · subst ne
      exact owes m ch hp
    · rwa [others p ne]
  steady := by
    intro m
    by_cases ne : m = q
    · rw [ne]
      exact here
    · rw [others m ne, ← wake_none (s.point m)]
      exact (inv.steady m).frame (killed m ne) fun _ => pipe

/-- `kkill` on a process that keeps the condition. -/
theorem Steady.kill {q a} (h : Steady s q (s.point q))
    (cond : Uninterrupted s (.kill q, a)) (pipe : s'.pipe = s.pipe) :
    Steady s' q (wake (fun _ => true) (s.point q)) := by
  unfold Uninterrupted at cond
  dsimp only at cond
  cases pt : s.point q with
  | write buf n i since =>
    rw [pt] at h cond
    refine ⟨h.1, fun stored => ⟨fun _ => ?_, pipe.symm ▸ (h.2 stored).2⟩⟩
    simpa [midWrite, stored] using cond
  | waking ch k next =>
    cases next with
    | sleep =>
      rw [pt] at h
      unfold wake Steady
      rw [pipe]
      exact h
    | ret => trivial
  | idle | acquire | read | copy | dozing | asleep => trivial

theorem step_awake {a} (h : ByEvent step s (a, e) s') (cond : Uninterrupted s (a, e))
    (own : ∀ m, holdsLock (s.point m) = true → s.lock = some m) (inv : Awake s) : Awake s' := by
  unfold ByEvent step at h
  cases a with
  | go p ok => exact (go_goes h).awake own inv
  | call p c =>
    dsimp only at h
    split at h
    · rename_i pt
      split at h
      · cases h
      · cases h
        refine inv.still (q := p) rfl rfl (fun _ _ => rfl) (fun m ne => goto_of_ne ne) ?_ ?_ ?_
        · intro ch sleeps
          rw [goto_self] at sleeps
          cases sleeps
        · intro m ch owes
          rw [pt] at owes
          exact owes.elim
        · rw [goto_self]
          trivial
    · cases h
  | kill q =>
    obtain ⟨_, ⟨⟩⟩ := Option.ite_none_left_eq_some.1 h
    refine inv.still (q := q) rfl rfl (fun m ne => Function.update_of_ne ne ..)
      (fun m ne => goto_of_ne ne) ?_ ?_ ?_
    · intro ch sleeps
      rw [goto_self] at sleeps
      exact (sleepsOn_wake sleeps).1
    · intro m ch owes
      rw [goto_self, wake_locked owes.locked]
      exact owes
    · rw [goto_self]
      exact (inv.steady q).kill cond rfl
  | renew q =>
    dsimp only at h
    split at h
    · rename_i pt
      cases h
      refine inv.still (q := q) rfl rfl (fun m ne => Function.update_of_ne ne ..) (fun _ _ => rfl)
        (fun _ => id) (fun _ _ => id) ?_
      rw [show Sys.point _ q = _ from pt]
      trivial
    · cases h

end steps

/-- If no process is killed in the middle of a write, then no process sleeps on a pipe that
is ready for it while `pi->lock` is free. -/
theorem sleepers_not_due (data : Nat → UInt8) (killed : Fin np → Bool)
    (t : List (Act np × Event np))
    (s : Sys np) (run : Run (When (ByEvent step) Uninterrupted) (pipealloc data killed) t s)
    (free : s.lock = none) (p : Fin np) :
    (sleepsOn (s.point p) = some .nread → s.pipe.nread = s.pipe.nwrite ∧ s.pipe.writeopen = true) ∧
    (sleepsOn (s.point p) = some .nwrite →
      s.pipe.nwrite = s.pipe.nread + UInt32.ofNat pipesize ∧ s.pipe.readopen = true) := by
  have inv : Awake s := run.invariant (I := fun _ s => Awake s)
    ⟨fun _ ch sleeps => absurd sleeps (Option.some_ne_none ch).symm, fun _ => trivial⟩
    fun t s l s' before inv st => step_awake st.1 st.2 (fun m => (run_fifo before.of_when).own) inv
  have idle : ∀ ch, sleepsOn (s.point p) = some ch → ¬ Due s.pipe ch := by
    intro ch sleeps due
    obtain ⟨q, held, _⟩ := inv.owed p ch sleeps due
    rw [free] at held
    cases held
  constructor
  · intro sleeps
    simpa [Due] using idle _ sleeps
  · intro sleeps
    simpa [Due] using idle _ sleeps

/-- A reader goes to sleep on the empty pipe. -/
def readerSleeps : List (Act 2) := .call 1 (.read 1) :: List.replicate 3 (.go 1 true)

theorem sleepers_not_due_reader :
    ∃ t, ∃ s : Sys 2, Run (When (ByEvent step) Uninterrupted)
      (pipealloc (fun _ => 0) fun _ => false) t s ∧ s.lock = none ∧
      sleepsOn (s.point 1) = some .nread ∧ s.pipe.nread = s.pipe.nwrite ∧
        s.pipe.writeopen = true := by
  obtain ⟨t, s, run, free, sleeps⟩ := events_reach_when step (pipealloc (fun _ => 0) fun _ => false)
    Uninterrupted readerSleeps
    (P := fun _ s => s.lock = none ∧ sleepsOn (s.point 1) = some .nread) (by decide)
  exact ⟨t, s, run, free, sleeps, (sleepers_not_due _ _ t s run free 1).1 sleeps⟩

/-- Then a process stores the first of two bytes, is killed, and returns. -/
def killedWrite : List (Act 2) :=
  readerSleeps ++ [.call 0 (.write (fun _ => 7) 2), .go 0 true, .go 0 true, .kill 0, .go 0 true]

theorem reader_left_asleep :
    ∃ t, ∃ s : Sys 2, Run (ByEvent step) (pipealloc (fun _ => 0) fun _ => false) t s ∧
      s.lock = none ∧ sleepsOn (s.point 1) = some .nread ∧ s.pipe.nread ≠ s.pipe.nwrite :=
  events_reach step _ killedWrite (by decide)

end OsProject.Xv6.Pipes
