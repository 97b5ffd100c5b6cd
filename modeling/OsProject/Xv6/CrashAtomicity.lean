import OsProject.Xv6.Log

/-! # Crashes are atomic

Between two recoveries the file system closes some transactions, may have one
open, and the machine may crash any number of times, also while it recovers.
What the next recovery leaves in the home blocks is the result of a prefix of
these transactions. -/
namespace OsProject.Xv6.CrashAtomicity
open Lib.Transition Lib.Redo Bio Log List

abbrev Transaction := List (UInt32 × Block)

/-- The writes since the last transaction was closed. -/
def openTx : List Ev → Transaction
  | [] => []
  | .write _ b v :: t => openTx t ++ [(b, v)]
  | .close _ :: _ => []
  | _ :: t => openTx t

/-- The transactions that an `end_op` has closed, oldest first. -/
def closed : List Ev → List Transaction
  | [] => []
  | .close _ :: t => closed t ++ [openTx t]
  | _ :: t => closed t

/-- All transactions, with the one that is still open. -/
def transactions (t : List Ev) : List Transaction := closed t ++ [openTx t]

/-- How many transactions were closed when the last `commit` returned. -/
def durable : List Ev → Nat
  | [] => 0
  | .returned :: t => (closed t).length
  | _ :: t => durable t

/-- Up to now, since the home blocks were as in `base`: the disk stands for the
first `p` transactions and the cache for all of them. -/
structure Epoch (g : LogArea) (base : UInt32 → Block) (t : List Ev) (s : Sys)
    (want : UInt32 → Block) (p : Nat) : Prop where
  durable : durable t ≤ p
  redo : Agree g (s.redo g) (apply base ((closed t).take p).flatten)
  seen : s.phase.age ≠ .down → Agree g want (apply base ((closed t).flatten ++ openTx t))
  count : match s.phase.age with
    | .live => (closed t).length = p
    | .copying => (closed t).length = p + 1 ∧ openTx t = []
    | .committed => (closed t).length = p ∧ openTx t = []
    | .down => p ≤ (closed t).length

section epoch
variable {g : LogArea} {base want want' : UInt32 → Block} {t : List Ev} {s s' : Sys}
    {e : Ev} {p : Nat}

theorem plain_ledger (h : e.plain = true) :
    openTx (e :: t) = openTx t ∧ closed (e :: t) = closed t ∧ durable (e :: t) = durable t := by
  cases e <;> first | exact ⟨rfl, rfl, rfl⟩ | cases h

/-- One step of an epoch that does not end it. -/
theorem epoch_step (ep : Epoch g base t s want p) (eff : Effect g s want s' want' e)
    (go : e ≠ .recovered) : ∃ p', Epoch g base (e :: t) s' want' p' := by
  have count := ep.count
  cases eff with
  | stay plain age redo seen =>
    obtain ⟨hopen, hclosed, hdurable⟩ := plain_ledger (t := t) plain
    refine ⟨p, ⟨by rw [hdurable]; exact ep.durable, ?_, fun up => ?_, ?_⟩⟩
    · rw [hclosed]
      exact redo.trans ep.redo
    · rw [age] at up
      rw [hclosed, hopen]
      exact (seen up).trans (ep.seen up)
    · rw [age, hclosed, hopen]
      exact count
  | write i b v age age' redo seen =>
    rw [age] at count
    refine ⟨p, ⟨ep.durable, by rw [redo]; exact ep.redo, fun _ x home => ?_,
      by rw [age']; exact count⟩⟩
    have before := ep.seen (by rw [age]; rintro ⟨⟩)
    simp only [openTx, closed, ← append_assoc, apply_snoc, seen]
    by_cases hx : x = b
    · subst hx
      simp
    · rw [Function.update_of_ne hx, Function.update_of_ne hx]
      exact before x home
  | closeSome i age age' redo seen =>
    rw [age] at count
    have before := ep.seen (by rw [age]; rintro ⟨⟩)
    refine ⟨p, ⟨ep.durable, ?_, fun _ => ?_, ?_⟩⟩
    · rw [redo]
      simp only [closed, take_append_of_le_length (le_of_eq count.symm)]
      exact ep.redo
    · simpa [closed, openTx, seen] using before
    · rw [age']
      simp [closed, openTx, count]
  | closeNone i age age' redo seen nothing =>
    rw [age] at count
    have before := ep.seen (by rw [age]; rintro ⟨⟩)
    -- nothing was logged, so the disk stands for this transaction too
    refine ⟨p + 1, ⟨Nat.le_succ_of_le ep.durable, ?_, fun _ => ?_, ?_⟩⟩
    · have all : (closed t ++ [openTx t]).take (p + 1) = closed t ++ [openTx t] :=
        take_of_length_le (by simp [count])
      rw [redo]
      simp only [closed, all]
      exact nothing.symm.trans (by simpa using before)
    · simpa [closed, openTx, seen] using before
    · rw [age']
      simp [closed, openTx, count]
  | commit age age' redo seen =>
    rw [age] at count
    have before := ep.seen (by rw [age]; rintro ⟨⟩)
    rw [count.2, append_nil] at before
    refine ⟨p + 1, ⟨Nat.le_succ_of_le ep.durable, ?_, fun _ => ?_, ?_⟩⟩
    · simp only [closed, take_of_length_le (le_of_eq count.1)]
      exact redo.trans before
    · simp only [closed, openTx, count.2, append_nil]
      exact seen.trans before
    · rw [age']
      exact count
  | returned age age' redo seen =>
    rw [age] at count
    refine ⟨p, ⟨le_of_eq count.1, by rw [redo]; exact ep.redo, fun _ => ?_, ?_⟩⟩
    · rw [seen]
      exact ep.seen (by rw [age]; rintro ⟨⟩)
    · rw [age']
      exact count.1
  | crash age' redo =>
    refine ⟨p, ⟨ep.durable, by rw [redo]; exact ep.redo, fun up => absurd age' up, ?_⟩⟩
    rw [age']
    revert count
    cases s.phase.age <;> intro count
    · exact le_of_eq count.symm
    · exact le_trans (Nat.le_succ p) (le_of_eq count.1.symm)
    · exact le_of_eq count.1.symm
    · exact count
  | recovered => exact absurd rfl go

/-- The rest of an epoch, up to a state from which the machine may go on. -/
theorem epoch_run {s1} (inv : Inv g s1 want) (start : Epoch g base [] s1 want 0)
    (h : Run (LogStep g) s1 t s) (within : ∀ e ∈ t, e ≠ .recovered) :
    ∃ want p, Inv g s want ∧ Epoch g base t s want p := by
  induction h with
  | nil => exact ⟨want, 0, inv, start⟩
  | cons _ st ih =>
    obtain ⟨want, p, inv, ep⟩ := ih fun e he => within e (mem_cons_of_mem _ he)
    obtain ⟨want', inv', eff⟩ := step_effect inv st
    obtain ⟨p', ep'⟩ := epoch_step ep eff (within _ mem_cons_self)
    exact ⟨want', p', inv', ep'⟩

/-- A recovery has just been completed. -/
theorem epoch_start {s1} (inv : Inv g s want) (st : LogStep g s .recovered s1) :
    ∃ want, Inv g s1 want ∧ Epoch g s1.dev.disk [] s1 want 0 := by
  obtain ⟨want', inv', eff⟩ := step_effect inv st
  cases eff with
  | stay plain => cases plain
  | recovered age age' disk redo seen =>
    refine ⟨want', inv', le_refl 0, redo.trans disk.symm, fun _ => seen, ?_⟩
    rw [age']
    rfl

/-- A disk that the kernel can have left: its log lists home blocks, each once. -/
abbrev Formatted (g : LogArea) (disk : UInt32 → Block) : Prop := Valid g (readHead (disk g.start))

/-- From one recovery to the next: the home blocks are those of the first transactions. -/
theorem recovered_prefix {disk} (formatted : Formatted g disk) {t1 t2 s1 s2}
    (before : Run (LogStep g) (powerOff disk) (.recovered :: t1) s1)
    (h : Run (LogStep g) s1 (.recovered :: t2) s2) (within : ∀ e ∈ t2, e ≠ .recovered) :
    ∃ p ≤ (closed t2).length, CrashAtomicity.durable t2 ≤ p ∧
      Agree g s2.dev.disk (apply s1.dev.disk ((closed t2).take p).flatten) := by
  cases before with
  | cons before st1 =>
  cases h with
  | cons h st2 =>
  obtain ⟨want0, inv0⟩ := run_inv formatted before
  obtain ⟨want1, inv1, start⟩ := epoch_start inv0 st1
  obtain ⟨want, p, inv, ep⟩ := epoch_run inv1 start h within
  obtain ⟨want2, inv2, eff⟩ := step_effect inv st2
  cases eff with
  | stay plain => cases plain
  | recovered age _ disk _ _ =>
    have count := ep.count
    rw [age] at count
    exact ⟨p, count, ep.durable, disk.trans ep.redo⟩

end epoch

/-- From one recovery to the next, whatever was logged and wherever the machine
crashed, also during recoveries: the home blocks are those of a prefix of the
transactions, and every transaction whose `commit` had returned is in it. -/
theorem log_crash_atomic {g : LogArea} {disk : UInt32 → Block} (formatted : Formatted g disk)
    {t1 t2 : List Ev} {s1 s2 : Sys} (before : Run (LogStep g) (powerOff disk) (.recovered :: t1) s1)
    (h : Run (LogStep g) s1 (.recovered :: t2) s2) (within : ∀ e ∈ t2, e ≠ .recovered) :
    ∃ p ≤ (transactions t2).length, durable t2 ≤ p ∧ ∀ b, g.home b = true →
      s2.dev.disk b = apply s1.dev.disk ((transactions t2).take p).flatten b := by
  obtain ⟨p, le, returned, eq⟩ := recovered_prefix formatted before h within
  refine ⟨p, by simp [transactions]; omega, returned, fun b home => ?_⟩
  rw [eq b home, transactions, take_append_of_le_length le]

/-- Block 50 is logged and the machine crashes behind the write of the header,
and again when the recovery has written block 50. -/
def crashes : List Ev :=
  [.begin 0, .hold 50, .write 0 50 (fun _ => 7), .release 50, .close 0, .io, .io, .io, .crash,
    .boot, .io, .crash, .boot, .io, .io]

theorem log_crash_atomic_twice : ∃ s1 s2,
    Run (LogStep sampleArea) (powerOff fun _ _ => 0) [.recovered, .io, .boot] s1 ∧
    Run (LogStep sampleArea) s1 (.recovered :: crashes.reverse) s2 ∧
    s1.dev.disk 50 0 = 0 ∧ s2.dev.disk 50 0 = 7 ∧
    ∃ p ≤ 2, ∀ b, sampleArea.home b = true → s2.dev.disk b =
      apply s1.dev.disk (([[(50, fun _ => 7)], []] : List Transaction).take p).flatten b := by
  obtain ⟨s1, before, old, next⟩ := foldlM_reaches (logStep sampleArea)
    (powerOff fun _ _ => 0) [.boot, .io, .recovered]
    (P := fun s => s.dev.disk 50 0 = 0 ∧
    ((crashes ++ [Ev.recovered]).foldlM (logStep sampleArea) s).any
      (fun s2 : Sys => decide (s2.dev.disk 50 0 = 7)) = true) (by decide +kernel)
  rw [Option.any_eq_true] at next
  obtain ⟨s2, after, new⟩ := next
  have h : Run (LogStep sampleArea) s1 (.recovered :: crashes.reverse) s2 := by
    simpa using .of_foldlM .nil after
  obtain ⟨p, le, -, eq⟩ := @log_crash_atomic sampleArea (fun _ _ => 0)
    ⟨nodup_nil, by rintro b ⟨⟩, by decide⟩ _ _ _ _ before h (by simp [crashes])
  exact ⟨s1, s2, before, h, old, of_decide_eq_true new, p, le, eq⟩

end OsProject.Xv6.CrashAtomicity
