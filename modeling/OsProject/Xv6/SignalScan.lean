import OsProject.Xv6.Signals

/-! # Which signal is delivered

`usertrap`'s signal loop as one pass over the process, from the test of
`handling_signal` to `prepare_return`, and which signal such a pass takes. -/
namespace OsProject.Xv6.SignalScan
open ProcTable Machine Signals

/-- The loop from round `i` on, with `rounds` of its 32 rounds left. The shift
`1 << i` is one of int, but it meets the unsigned word bit by bit, so that bit
31 is a bit like the others. -/
def signalLoop (p : Proc) : Nat → Nat → Proc
  | _, 0 => { p with point := .prepare }
  | i, rounds + 1 =>
    if h : i < nsig then
      if p.pendingSignals &&& (1#32 <<< i) ≠ 0 then
        if p.signalHandlers ⟨i, h⟩ ≠ noHandler then deliver ⟨i, h⟩ p.pendingSignals p
        else signalLoop p (i + 1) rounds
      else signalLoop p (i + 1) rounds
    else { p with point := .prepare }

/-- The signal delivery of `usertrap`, up to `prepare_return`. -/
def signalPass (p : Proc) : Proc :=
  if p.handlingSignal then { p with point := .prepare } else signalLoop p 0 nsig

/-- Signal `s` is pending, and there is a handler for it. -/
def Due (p : Proc) (s : Fin nsig) : Prop :=
  p.pendingSignals.getLsbD s.val = true ∧ p.signalHandlers s ≠ noHandler
  deriving Decidable

/-- The test of the loop reads the bit, up to the sign bit of the int. -/
theorem and_shift_ne_zero (w : BitVec 32) {i} (h : i < nsig) :
    w &&& (1#32 <<< i) ≠ 0 ↔ w.getLsbD i = true := by
  constructor
  · intro hw
    cases bit : w.getLsbD i with
    | true => rfl
    | false =>
      refine absurd (BitVec.eq_of_getLsbD_eq fun j _ => ?_) hw
      by_cases hj : j = i
      · subst hj; simp [bit]
      · grind
  · intro bit hw
    have := congrArg (·.getLsbD i) hw
    simp only [BitVec.getLsbD_and, BitVec.getLsbD_shiftLeft, BitVec.getLsbD_one, bit] at this
    have hi : i < 32 := h
    simp [hi] at this

section loop
variable {p : Proc}

/-- One round: the signal is delivered, or the loop goes on. -/
theorem signalLoop_succ {i rounds} (h : i < nsig) : signalLoop p i (rounds + 1) =
      if Due p ⟨i, h⟩ then deliver ⟨i, h⟩ p.pendingSignals p else signalLoop p (i + 1) rounds := by
  simp only [signalLoop, h, dif_pos, and_shift_ne_zero _ h, Due]
  by_cases bit : p.pendingSignals.getLsbD i = true
  · simp only [bit, if_true, true_and]
  · simp only [bit, if_false, false_and, Bool.false_eq_true]

theorem signalLoop_due {s} (due : Due p s) (least : ∀ j < s, ¬ Due p j)
    {i rounds} (all : i + rounds = nsig) (reach : i ≤ s.val) :
    signalLoop p i rounds = deliver s p.pendingSignals p := by
  induction rounds generalizing i with
  | zero => have := s.isLt; omega
  | succ rounds ih =>
    have hi : i < nsig := by omega
    rw [signalLoop_succ hi]
    rcases lt_or_eq_of_le reach with lt | rfl
    · rw [if_neg (least ⟨i, hi⟩ lt)]
      exact ih (by omega) (by omega)
    · exact if_pos due

theorem signalLoop_none (none : ∀ s, ¬ Due p s) {i rounds} (all : i + rounds = nsig) :
    signalLoop p i rounds = { p with point := .prepare } := by
  induction rounds generalizing i with
  | zero => rfl
  | succ rounds ih =>
    rw [signalLoop_succ (by omega), if_neg (none _)]
    exact ih (by omega)

theorem signalPass_due {s} (off : p.handlingSignal = false) (due : Due p s)
    (least : ∀ j < s, ¬ Due p j) : signalPass p = deliver s p.pendingSignals p := by
  rw [signalPass, off]
  exact signalLoop_due due least (Nat.zero_add _) (Nat.zero_le _)

theorem signalPass_none (h : p.handlingSignal = true ∨ ∀ s, ¬ Due p s) :
    signalPass p = { p with point := .prepare } := by
  unfold signalPass
  split
  · rfl
  · rename_i off
    exact signalLoop_none (h.resolve_left off) (zero_add _)

theorem exists_least {s} (due : Due p s) : ∃ m, m ≤ s ∧ Due p m ∧ ∀ j < m, ¬ Due p j := by
  induction s using WellFoundedLT.induction with
  | ind s ih =>
    by_cases h : ∃ j < s, Due p j
    · obtain ⟨j, lt, hj⟩ := h
      obtain ⟨m, le, rest⟩ := ih j lt hj
      exact ⟨m, le.trans lt.le, rest⟩
    · exact ⟨s, le_rfl, due, fun j lt hj => h ⟨j, lt, hj⟩⟩

/-- A pass delivers one signal that is due, or it changes nothing. -/
theorem signalPass_cases (p : Proc) :
    (∃ m, p.handlingSignal = false ∧ Due p m ∧ signalPass p = deliver m p.pendingSignals p) ∨
      signalPass p = { p with point := .prepare } := by
  by_cases h : p.handlingSignal = true ∨ ∀ s, ¬ Due p s
  · exact .inr (signalPass_none h)
  · obtain ⟨off, due⟩ := not_or.mp h
    obtain ⟨s, due⟩ := not_forall_not.mp due
    obtain ⟨m, -, hm, least⟩ := exists_least due
    exact .inl ⟨m, eq_false_of_ne_true off, hm, signalPass_due (eq_false_of_ne_true off) hm least⟩

end loop

/-- The pass takes the least signal that is due: it clears that bit and no
other, and sends the process to its handler. If no signal is due, or a handler
is running, it changes neither the word nor the registers. So a signal without
a handler stays pending, and does not keep a later one from being taken. -/
theorem signalPass_least (p : Proc) :
    (∀ s, p.handlingSignal = false → Due p s → (∀ j < s, ¬ Due p j) →
      (∀ j : Fin nsig, (signalPass p).pendingSignals.getLsbD j.val =
        (p.pendingSignals.getLsbD j.val && !decide (s = j))) ∧
      (signalPass p).trapframe = { p.trapframe with epc := p.signalHandlers s } ∧
      (signalPass p).savedTrapframe = p.trapframe ∧ (signalPass p).handlingSignal = true) ∧
    ((p.handlingSignal = true ∨ ∀ s, ¬ Due p s) →
      (signalPass p).pendingSignals = p.pendingSignals ∧ (signalPass p).trapframe = p.trapframe ∧
      (signalPass p).handlingSignal = p.handlingSignal) ∧
    (∀ s : Fin nsig, p.pendingSignals.getLsbD s.val = true → p.signalHandlers s = noHandler →
      (signalPass p).pendingSignals.getLsbD s.val = true) ∧
    ∀ s, p.handlingSignal = false → Due p s →
      ∃ m ≤ s, Due p m ∧ (signalPass p).trapframe.epc = p.signalHandlers m := by
  refine ⟨fun s off due least => ?_, fun quiet => ?_, fun s pending unhandled => ?_,
    fun s off due => ?_⟩
  · rw [signalPass_due off due least]
    exact ⟨clear_bit _ _, rfl, rfl, rfl⟩
  · rw [signalPass_none quiet]
    exact ⟨rfl, rfl, rfl⟩
  · rcases signalPass_cases p with ⟨m, -, due, eq⟩ | eq
    · have other : m ≠ s := fun same => due.2 (same ▸ unhandled)
      rw [eq]
      exact (clear_bit _ m s).trans (by simp [pending, other])
    · rw [eq]
      exact pending
  · obtain ⟨m, le, hm, least⟩ := exists_least due
    exact ⟨m, le, hm, by rw [signalPass_due off hm least]; rfl⟩

end OsProject.Xv6.SignalScan
