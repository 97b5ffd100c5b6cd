import OsProject.Xv6.Family

/-! # Signals

What a step does to the signal state of a process (`pending_signals`,
`signal_handlers`, `saved_trapframe`, `handling_signal`) and to its place in
`usertrap`'s signal loop. `ksigsend` changes `pending_signals` under `p->lock`,
but the loop reads and writes the word without it. The second half of the
module is about that word: what was sent, what is pending, what was
delivered. -/
namespace OsProject.Xv6.Signals
open Lib.Transition ProcTable Machine
open Lifecycle Table Family

/-- The signal state of a process. -/
def sig (p : Proc) : BitVec 32 × (Fin nsig → UInt64) × Trapframe × Bool :=
  (p.pendingSignals, p.signalHandlers, p.savedTrapframe, p.handlingSignal)

section fields
variable {q q' : Proc} (h : sig q' = sig q)
include h

theorem sig_pending : q'.pendingSignals = q.pendingSignals := congrArg Prod.fst h
theorem sig_handlers : q'.signalHandlers = q.signalHandlers := congrArg (·.2.1) h
theorem sig_saved : q'.savedTrapframe = q.savedTrapframe := congrArg (·.2.2.1) h
theorem sig_handling : q'.handlingSignal = q.handlingSignal := congrArg (·.2.2.2) h

end fields

/-- The place of a control point in the signal loop, if it is there. -/
def place : Point → Option Point
  | .sigScan n => some (.sigScan n)
  | .sigLoad s => some (.sigLoad s)
  | .sigStore s w => some (.sigStore s w)
  | _ => none

theorem place_some {pt q} (h : place pt = some q) : pt = q := by
  cases pt <;> first | (cases h; done) | exact Option.some.inj h

/-- The event of a step of `i` by which `p` is sent a signal, or handles one. -/
def signals (p i : Slot) : Event → Bool
  | .sigsend target _ => target = p
  | .sigreturn | .signal _ _ | .sigbegin _ | .deliver _ _ => i = p
  | _ => false

/-- The signal state of `p`, and its place in the signal loop, over a step of `i`. -/
inductive SigStep (k k' : Kernel) (i p : Slot) (e : Event) : Prop
  | same (fresh : takes p e = false) (quiet : signals p i e = false)
      (eq : sig (k' p) = sig (k p))
      (pt : place (k' p).point = place (k p).point)
  | fresh (taken : takes p e = true) (un : (k p).state = .unused)
      (eq : sig (k' p) = sig (allocFound (k p) 0)) (pt : place (k' p).point = none)
  | cleared (fresh : takes p e = false) (quiet : signals p i e = false)
      (eq : sig (k' p) = sig (allocReset (k p)))
      (pt : place (k' p).point = place (k p).point) (out : place (k p).point = none)
  | raised (s : Fin nsig) (ev : e = .sigsend p s) (eq : sig (k' p) = sig (raise s (k p)))
      (pt : place (k' p).point = place (k p).point)
  | registered (s : Fin nsig) (h : UInt64) (self : i = p) (ev : e = .signal s h)
      (eq : sig (k' p) = sig (sysSignal s h (k p)))
      (pt : (k p).point = .syscall) (pt' : (k' p).point = .tail)
  | returned (self : i = p) (ev : e = .sigreturn)
      (eq : sig (k' p) = sig (sysSigreturn (k p)))
      (pt : (k p).point = .syscall) (pt' : (k' p).point = .tail)
  | start (self : i = p) (ev : e = .tau) (handling : (k p).handlingSignal = false)
      (eq : sig (k' p) = sig (k p)) (pt : (k p).point = .sigTest)
      (pt' : (k' p).point = .sigScan 0)
  | next (n : Nat) (self : i = p) (ev : e = .tau) (eq : sig (k' p) = sig (k p))
      (pt : (k p).point = .sigScan n) (pt' : (k' p).point = .sigScan (n + 1))
  | done (n : Nat) (self : i = p) (ev : e = .tau) (eq : sig (k' p) = sig (k p))
      (pt : (k p).point = .sigScan n) (pt' : (k' p).point = .prepare)
  | found (s : Fin nsig) (self : i = p) (ev : e = .sigbegin s)
      (pending : (k p).pendingSignals.getLsbD s.val = true)
      (handler : (k p).signalHandlers s ≠ noHandler) (eq : sig (k' p) = sig (k p))
      (pt : (k p).point = .sigScan s.val) (pt' : (k' p).point = .sigLoad s)
  | load (s : Fin nsig) (self : i = p) (ev : e = .tau) (eq : sig (k' p) = sig (k p))
      (pt : (k p).point = .sigLoad s)
      (pt' : (k' p).point = .sigStore s (k p).pendingSignals)
  | delivered (s : Fin nsig) (w : BitVec 32) (self : i = p)
      (ev : e = .deliver s (k p).trapframe)
      (eq : sig (k' p) = sig (deliver s w (k p)))
      (pt : (k p).point = .sigStore s w) (pt' : (k' p).point = .prepare)

section steps
variable {k k' : Kernel} {i p : Slot} {c : Choice} {e : Event}

theorem trapEntry_sig (cause : Cause) (r : UserRegs) (pc : UInt64) (p : Proc) :
    sig (trapEntry cause r pc p) = sig p := by
  unfold trapEntry
  cases cause with
  | syscall | pageFault => dsimp only; split <;> rfl
  | interrupt | unexpected => rfl

theorem goto_sig (k : Kernel) (i p : Slot) (pt : Point) :
    sig ((k.goto i pt).proc p) = sig (k p) := upd_frame sig rfl

theorem ret_sig (k : Kernel) (i p : Slot) (v : UInt64) :
    sig ((k.ret i v).proc p) = sig (k p) := upd_frame sig rfl

/-- A step outside the signal loop. -/
theorem place_frame (out : place (k i).point = none) (out' : place (k' i).point = none)
    (others : p ≠ i → (k' p).point = (k p).point) :
    place (k' p).point = place (k p).point := by
  by_cases hp : p = i
  · rw [hp, out, out']
  · rw [others hp]

theorem place_wait {pt} (h : holdsWait pt = true) : place pt = none := by
  cases pt <;> first | rfl | cases h

theorem sig_sect (h : Sect k i e k') (p : Slot) : SigStep k k' i p e := by
  have same : ∀ {q : Point}, signals p i e = false → sig (k' p) = sig (k p) →
      (k i).point = q → place q = none → place (k' i).point = none →
      SigStep k k' i p e := fun quiet eq pt out out' =>
    .same (by cases h <;> rfl) quiet eq
      (place_frame (by rw [pt]; exact out) out' (h.quiet.others p))
  -- a step of another thread leaves `p` where it is
  by_cases hp : p = i
  · subst hp
    cases h with
    | signal s h pt => exact .registered s h rfl rfl (by rw [ret_sig, upd_self]) pt ret_point
    | sigreturn pt => exact .returned rfl rfl (by rw [upd_self]) pt (by rw [upd_self]; rfl)
    | deliver s w pt => exact .delivered s w rfl rfl (by rw [upd_self]) pt (by rw [upd_self]; rfl)
    | sigsend pid s j pt lock =>
      by_cases hj : p = j
      · subst hj
        exact .raised s rfl (by rw [ret_sig, upd_self]) (by rw [ret_point, pt]; rfl)
      · exact same (by simp [signals, Ne.symm hj]) (by rw [ret_sig, upd_ne hj]) pt rfl
          (by rw [ret_point]; rfl)
    | unmasked pt handling => exact .start rfl rfl handling (goto_sig ..) pt goto_point
    | sigNext n pt => exact .next n rfl rfl (goto_sig ..) pt goto_point
    | sigNone n pt => exact .done n rfl rfl (goto_sig ..) pt goto_point
    | sigFound s pt pending handler =>
      exact .found s rfl rfl pending handler (goto_sig ..) pt goto_point
    | sigLoad s pt => exact .load s rfl rfl (goto_sig ..) pt goto_point
    | trap cause r pc pt =>
      refine same rfl (upd_frame sig (trapEntry_sig ..)) pt rfl ?_
      rw [upd_self]
      rcases trapEntry_point cause r pc (k p) with h | h | h <;> rw [h] <;> rfl
    | run _ _ _ _ _ pt => exact same rfl (upd_frame sig rfl) pt rfl (by rw [upd_self]; rfl)
    | userret h pt cpu =>
      rcases pt with pt | pt <;>
        exact same rfl (upd_frame sig rfl) pt rfl (by rw [upd_self]; rfl)
    | ret v pt =>
      refine same rfl (ret_sig ..) rfl ?_ (by rw [ret_point]; rfl)
      generalize (k p).point = q at pt
      cases q <;> first | rfl | cases pt
    | exec _ pt | noCopy _ _ pt | children _ _ _ _ _ _ _ pt | finish _ _ _ _ pt =>
      exact same rfl ((ret_sig ..).trans (upd_frame sig rfl)) pt rfl
        (by rw [ret_point]; rfl)
    | offer _ _ _ pt =>
      exact same rfl ((goto_sig ..).trans (upd_frame sig rfl)) pt rfl
        (by rw [goto_point]; rfl)
    | call pt' pt start =>
      refine same rfl (goto_sig ..) pt rfl ?_
      rw [goto_point]
      cases pt' <;> first | rfl | cases start
    | killed pt | alive pt | masked pt | forkCheck _ pt | forkNext _ _ pt | killNext _ _ pt
    | sigsendNext _ _ _ pt => exact same rfl (goto_sig ..) pt rfl (by rw [goto_point]; rfl)
  · have stay := congrArg place (h.quiet.others p hp)
    cases h with
    | sigsend pid s j pt lock =>
      by_cases hj : p = j
      · subst hj
        exact .raised s rfl (by rw [ret_sig, upd_self]) stay
      · exact .same rfl (by simp [signals, Ne.symm hj]) (by rw [ret_sig, upd_ne hj]) stay
    | signal | exec | noCopy | children | finish =>
      exact .same rfl (by simp [signals, Ne.symm hp]) (by rw [ret_sig, upd_ne hp]) stay
    | ret => exact .same rfl rfl (ret_sig ..) stay
    | offer => exact .same rfl rfl (by rw [goto_sig, upd_ne hp]) stay
    | run | trap | sigreturn | deliver | userret =>
      exact .same rfl (by simp [signals, Ne.symm hp]) (by rw [upd_ne hp]) stay
    | call | killed | alive | masked | unmasked | sigNext | sigFound | sigNone | sigLoad | forkCheck
    | forkNext | killNext | sigsendNext =>
      exact .same rfl (by simp [signals, Ne.symm hp]) (goto_sig ..) stay

/-- The sections that change a process's life are outside the signal loop. -/
theorem place_act (a : Act k i e k') :
    Sect k i e k' ∨ (place (k i).point = none ∧ place (k' i).point = none) := by
  have flow := a.flow
  generalize (k i).point = p at flow
  generalize (k' i).point = q at flow
  cases flow with
  | sect s => exact .inl s
  | hold hh => exact .inr ⟨place_wait (hold_wait hh).1, place_wait (hold_wait hh).2⟩
  | enter c eq => exact .inr ⟨rfl, by rw [eq]; cases c <;> rfl⟩
  | _ => exact .inr ⟨rfl, rfl⟩

/-- They change the signal state of no process but the one they create. -/
theorem sig_frame (a : Act k i e k') (h : takes p e = false) :
    Sect k i e k' ∨ signals p i e = false ∧ (sig (k' p) = sig (k p) ∨
      sig (k' p) = sig (allocReset (k p)) ∧ making (k i).point = some p) := by
  refine a.writes.imp_right fun writes => ?_
  obtain ⟨f, write, eq, -⟩ := writes p
  have new : sig (k' p) = sig (f (k p)) := by
    rw [eq]
    rfl
  cases write with
  | none away | mem _ away =>
    refine ⟨?_, .inl new⟩
    cases e <;> first | rfl | cases away
  | found => simp [takes] at h
  | made _ _ pt | allocFail _ _ pt => exact ⟨rfl, .inr ⟨new, by rw [pt]; rfl⟩⟩
  | _ => exact ⟨rfl, .inl new⟩

/-- The claim of a slot clears its signals. -/
theorem sig_fresh (hs : ∀ m, Shape m (k m)) (run : (k i).cpu ≠ none)
    (a : Act k i e k') (h : takes p e = true) : SigStep k k' i p e := by
  cases a with
  | found f j pt un =>
    obtain rfl : j = p := by simpa [takes] using h
    have other : j ≠ i := by
      rintro rfl
      exact run ((hs j).unused_inv un).1
    refine .fresh h un (by rw [goto_sig, upd_self]; rfl) ?_
    rw [goto_ne other, upd_self]
    rfl
  | sect sec => cases sec <;> cases h
  | _ => cases h

theorem sig_step (hw : Wf k) (s : LifeStep k i c e k') (p : Slot) : SigStep k k' i p e := by
  cases s with
  | act go run a =>
    cases taken : takes p e with
    | true => exact sig_fresh hw.shape run a taken
    | false =>
      rcases place_act a with sec | ⟨out, out'⟩
      · exact sig_sect sec p
      rcases sig_frame a taken with sec | ⟨quiet, eq⟩
      · exact sig_sect sec p
      have pt := place_frame out out' (p := p) fun hp => by
        rcases act_point a hp with h | ⟨-, h, -⟩
        · exact h
        · rw [taken] at h; cases h
      rcases eq with eq | ⟨eq, new⟩
      · exact .same taken quiet eq pt
      · refine .cleared taken quiet eq pt ?_
        rw [((hw.shape p).used_inv (hw.links.making i p new).1).2]
        rfl
  | sched go s => exact .same rfl rfl (s.frame sig p) (s.at place p)

end steps

/-! ## The account of a signal -/

/-- What a history did with one signal of one process: how often it was sent,
how often `usertrap` began to deliver it and did deliver it, and whether it
was sent again after the last delivery began. -/
structure Account where
  sent : Nat
  begun : Nat
  delivered : Nat
  owed : Bool

def Account.post (p : Slot) (s : Fin nsig) (i : Slot) (a : Account) : Event → Account
  | .sigsend target s' =>
    if target = p ∧ s' = s then { a with sent := a.sent + 1, owed := true } else a
  | .sigbegin s' => if i = p ∧ s' = s then { a with begun := a.begun + 1, owed := false } else a
  | .deliver s' _ => if i = p ∧ s' = s then { a with delivered := a.delivered + 1 } else a
  | _ => a

/-- The account of signal `s` for the current occupant of slot `p`. -/
def account (t : List Label) (p : Slot) (s : Fin nsig) : Account :=
  (tenure t p).foldr (fun l a => a.post p s l.actor l.event) ⟨0, 0, 0, false⟩

/-- Between the test that begins a delivery of `s` and the store that ends it. -/
def midway (s : Fin nsig) : Point → Bool
  | .sigLoad s' | .sigStore s' _ => s' = s
  | _ => false

/-- Every delivery of `s` has begun, and every beginning was paid for by a send. -/
structure Paid (a : Account) (s : Fin nsig) (q : Proc) : Prop where
  sent : a.begun + (q.pendingSignals.getLsbD s.val && !midway s q.point).toNat ≤ a.sent
  begun : a.delivered + (midway s q.point).toNat ≤ a.begun

/-- What the loop has loaded is still pending. -/
def Loaded (q : Proc) : Prop :=
  ∀ s w, q.point = .sigStore s w → ∀ n, w.getLsbD n = true → q.pendingSignals.getLsbD n = true

/-- A signal that is owed is pending, and the store that ends another delivery keeps it so. -/
structure Kept (a : Account) (s : Fin nsig) (q : Proc) : Prop where
  pending : a.owed = true → q.pendingSignals.getLsbD s.val = true
  loading : q.point = .sigLoad s → a.owed = false
  storing : ∀ s' w, q.point = .sigStore s' w → a.owed = true → s ≠ s' ∧ w.getLsbD s.val = true

/-- A send of `s` to a process at this point is lost: it is the signal being
delivered, or the loop has loaded the word without it. -/
def clashes (s : Fin nsig) : Point → Bool
  | .sigLoad s' => s = s'
  | .sigStore s' w => s = s' || !w.getLsbD s.val
  | _ => false

/-- No send clashes with its target's signal loop. -/
def Spaced (k : Kernel) (l : Label) : Prop :=
  match l.event with
  | .sigsend p s => clashes s (k p).point = false
  | _ => True

instance (k : Kernel) (l : Label) : Decidable (Spaced k l) :=
  decidable_of_iff ((match l.event with
    | .sigsend p s => decide (clashes s (k p).point = false)
    | _ => true) = true) (by unfold Spaced; split <;> simp)

theorem raise_bit (p : BitVec 32) (s s' : Fin nsig) :
    (p ||| (1#32 <<< s.val)).getLsbD s'.val = (p.getLsbD s'.val || decide (s = s')) := by
  grind

theorem clear_bit (p : BitVec 32) (s s' : Fin nsig) :
    (p &&& ~~~(1#32 <<< s.val)).getLsbD s'.val = (p.getLsbD s'.val && !decide (s = s')) := by
  grind

section accounts
variable {k k' : Kernel} {i p : Slot} {c : Choice} {e : Event} {t : List Label} {s : Fin nsig}

theorem account_fresh (h : takes p e = true) : account (⟨i, c, e⟩ :: t) p s = ⟨0, 0, 0, false⟩ := by
  rw [account, tenure_takes h, List.foldr_nil]

theorem account_cons (h : takes p e = false) :
    account (⟨i, c, e⟩ :: t) p s = (account t p s).post p s i e := by
  rw [account, tenure_cons h, List.foldr_cons, account]

theorem post_quiet (a : Account) (h : signals p i e = false) : a.post p s i e = a := by
  cases e with
  | sigsend | sigbegin | deliver => exact if_neg fun hp => of_decide_eq_false h hp.1
  | _ => rfl

/-- An event of another signal. -/
theorem post_other (a : Account) {s'} (ne : s' ≠ s) : (∀ j, a.post p s i (.sigsend j s') = a) ∧
    a.post p s i (.sigbegin s') = a ∧ ∀ tf, a.post p s i (.deliver s' tf) = a :=
  ⟨fun _ => if_neg fun h => ne h.2, if_neg fun h => ne h.2, fun _ => if_neg fun h => ne h.2⟩

theorem midway_out {q} (h : place q = none) : midway s q = false := by
  cases q <;> first | rfl | cases h

theorem midway_place {pt pt'} (h : place pt' = place pt) : midway s pt' = midway s pt := by
  cases hp : place pt with
  | none => rw [midway_out hp, midway_out (h.trans hp)]
  | some q => rw [place_some hp, place_some (h.trans hp)]

theorem point_place {pt pt' q} (h : place pt' = place pt) (hq : place q = some q)
    (hp : pt' = q) : pt = q := by
  subst hp
  exact place_some (h.symm.trans hq)

/-! A signal that is not owed, a process that stays where it is, and one that
is at neither access of the word. -/

theorem Kept.free {a q} (h : a.owed = false) : Kept a s q :=
  ⟨fun ho => absurd ho (by simp [h]), fun _ => h, fun _ _ _ ho => absurd ho (by simp [h])⟩

theorem Kept.congr {a q q'} (h : Kept a s q)
    (pend : q'.pendingSignals = q.pendingSignals) (pt : place q'.point = place q.point) :
    Kept a s q' :=
  ⟨fun ho => by rw [pend]; exact h.pending ho, fun hp => h.loading (point_place pt rfl hp),
    fun s' w hp => h.storing s' w (point_place pt rfl hp)⟩

theorem Kept.out {a q} (h : a.owed = true → q.pendingSignals.getLsbD s.val = true)
    (pt : (∀ s, q.point ≠ .sigLoad s) ∧ ∀ s w, q.point ≠ .sigStore s w) : Kept a s q :=
  ⟨h, fun hp => absurd hp (pt.1 s), fun s' w hp => absurd hp (pt.2 s' w)⟩

theorem kept_step (h : Kept (account t p s) s (k p)) (st : SigStep k k' i p e)
    (ok : Spaced k ⟨i, c, e⟩) : Kept (account (⟨i, c, e⟩ :: t) p s) s (k' p) := by
  have out : ∀ {q : Point}, takes p e = false → (account t p s).post p s i e = account t p s →
      (k' p).pendingSignals = (k p).pendingSignals → (k' p).point = q →
      ((∀ s, q ≠ .sigLoad s) ∧ ∀ s w, q ≠ .sigStore s w) →
      Kept (account (⟨i, c, e⟩ :: t) p s) s (k' p) := by
    rintro q fresh skip pend rfl hq
    rw [account_cons fresh, skip]
    exact .out (fun ho => by rw [pend]; exact h.pending ho) hq
  cases st with
  | same fresh quiet eq pt | cleared fresh quiet eq pt =>
    have pend := sig_pending eq
    rw [account_cons fresh, post_quiet _ quiet]
    exact h.congr pend pt
  | fresh taken un eq pt => rw [account_fresh taken]; exact .free rfl
  | raised s' ev eq pt =>
    subst ev
    have pend : (k' p).pendingSignals = (k p).pendingSignals ||| (1#32 <<< s'.val) := sig_pending eq
    rw [account_cons rfl]
    by_cases hs : s' = s
    · subst hs
      -- the send was not lost: the loop has not passed this bit by
      have ok : clashes s' (k p).point = false := ok
      refine ⟨fun _ => by rw [pend, raise_bit]; simp, fun hp => ?_, fun s'' w hp _ => ?_⟩
      · rw [point_place pt rfl hp] at ok
        simp [clashes] at ok
      · rw [point_place pt rfl hp] at ok
        simpa [clashes] using ok
    · rw [(post_other _ hs).1]
      refine ⟨fun ho => ?_, fun hp => h.loading (point_place pt rfl hp),
        fun s' w hp => h.storing s' w (point_place pt rfl hp)⟩
      rw [pend, raise_bit, h.pending ho, Bool.true_or]
  | registered _ _ _ ev eq _ pt' | returned _ ev eq _ pt' | start _ ev _ eq _ pt'
  | next _ _ ev eq _ pt' | done _ _ ev eq _ pt' =>
    subst ev
    have pend := sig_pending eq
    exact out rfl rfl pend pt' (by simp)
  | found s' self ev pending handler eq pt pt' =>
    subst ev
    rw [account_cons rfl]
    by_cases hs : s' = s
    · subst hs
      exact .free (by simp [Account.post, self])
    · rw [(post_other _ hs).2.1]
      refine ⟨fun ho => ?_, fun hp => ?_, fun _ _ hp => ?_⟩
      · rw [sig_pending eq]; exact h.pending ho
      · rw [pt'] at hp; exact absurd (Point.sigLoad.inj hp) hs
      · rw [pt'] at hp; cases hp
  | load s' self ev eq pt pt' =>
    subst ev
    refine ⟨fun ho => ?_, fun hp => ?_, fun s'' w hp ho => ?_⟩
    · rw [sig_pending eq]; exact h.pending ho
    · rw [pt'] at hp; cases hp
    · rw [pt'] at hp
      obtain ⟨rfl, rfl⟩ := Point.sigStore.inj hp
      refine ⟨?_, h.pending ho⟩
      rintro rfl
      exact absurd ((h.loading pt).symm.trans ho) Bool.false_ne_true
  | delivered s' w self ev eq pt pt' =>
    subst ev
    have keep : ((account t p s).post p s i (.deliver s' (k p).trapframe)).owed =
        (account t p s).owed := by
      simp only [Account.post]; split <;> rfl
    refine .out (fun ho => ?_) (by rw [pt']; simp)
    obtain ⟨ne, bit⟩ := h.storing s' w pt (keep.symm.trans ho)
    have pend : (k' p).pendingSignals = w &&& ~~~(1#32 <<< s'.val) := sig_pending eq
    rw [pend, clear_bit, bit]
    simp [ne.symm]

theorem loaded_step (h : Loaded (k p)) (st : SigStep k k' i p e) : Loaded (k' p) := by
  have away : ∀ {q : Point}, (k' p).point = q → (∀ s w, q ≠ .sigStore s w) →
      Loaded (k' p) := fun pt hq s w hp => absurd (pt.symm.trans hp) (hq s w)
  cases st with
  | same fresh quiet eq pt | cleared fresh quiet eq pt =>
    intro s w hp n hn
    rw [sig_pending eq]
    exact h s w (point_place pt rfl hp) n hn
  | fresh taken un eq pt =>
    intro s w hp
    rw [hp] at pt
    cases pt
  | raised s' ev eq pt =>
    intro s w hp n hn
    rw [sig_pending eq]
    have old := h s w (point_place pt rfl hp) n hn
    simp only [raise, BitVec.getLsbD_or, old, Bool.true_or]
  | load s' self ev eq pt pt' =>
    intro s w hp n hn
    rw [pt'] at hp
    obtain ⟨rfl, rfl⟩ := Point.sigStore.inj hp
    rw [sig_pending eq]
    exact hn
  | registered _ _ _ _ _ _ pt' | returned _ _ _ _ pt' | start _ _ _ _ _ pt' | next _ _ _ _ _ pt'
  | done _ _ _ _ _ pt' | found _ _ _ _ _ _ _ pt' | delivered _ _ _ _ _ _ pt' =>
    exact away pt' (by simp)

theorem paid_step (h : Paid (account t p s) s (k p)) (loaded : Loaded (k p))
    (st : SigStep k k' i p e) : Paid (account (⟨i, c, e⟩ :: t) p s) s (k' p) := by
  have out : ∀ {q q' : Point}, takes p e = false →
      (account t p s).post p s i e = account t p s →
      (k' p).pendingSignals = (k p).pendingSignals → (k p).point = q →
      (k' p).point = q' → midway s q = midway s q' →
      Paid (account (⟨i, c, e⟩ :: t) p s) s (k' p) := by
    rintro q q' fresh skip pend rfl rfl hq
    rw [account_cons fresh, skip]
    exact ⟨by rw [pend, ← hq]; exact h.sent, by rw [← hq]; exact h.begun⟩
  cases st with
  | same fresh quiet eq pt | cleared fresh quiet eq pt =>
    have pend := sig_pending eq
    exact out fresh (post_quiet _ quiet) pend rfl rfl (midway_place pt).symm
  | fresh taken un eq pt =>
    have pend : (k' p).pendingSignals = 0 := sig_pending eq
    rw [account_fresh taken]
    exact ⟨by rw [pend]; simp, by rw [midway_out pt]; simp⟩
  | raised s' ev eq pt =>
    subst ev
    have pend : (k' p).pendingSignals = (k p).pendingSignals ||| (1#32 <<< s'.val) := sig_pending eq
    rw [account_cons rfl]
    by_cases hs : s' = s
    · subst hs
      have post : (account t p s').post p s' i (.sigsend p s') =
          { account t p s' with sent := (account t p s').sent + 1, owed := true } :=
        if_pos ⟨rfl, rfl⟩
      have one := Bool.toNat_le
        ((k' p).pendingSignals.getLsbD s'.val && !midway s' (k' p).point)
      have sent := h.sent
      rw [post]
      exact ⟨by dsimp only; omega, by rw [midway_place pt]; exact h.begun⟩
    · rw [(post_other _ hs).1]
      refine ⟨?_, by rw [midway_place pt]; exact h.begun⟩
      rw [pend, raise_bit, midway_place pt]
      simpa [hs] using h.sent
  | registered _ _ _ ev eq pt pt' | returned _ ev eq pt pt' | start _ ev _ eq pt pt'
  | next _ _ ev eq pt pt' | done _ _ ev eq pt pt' | load _ _ ev eq pt pt' =>
    subst ev
    have pend := sig_pending eq
    exact out rfl rfl pend pt pt' rfl
  | found s' self ev pending handler eq pt pt' =>
    subst ev
    by_cases hs : s' = s
    · subst hs
      have post : (account t p s').post p s' i (.sigbegin s') =
          { account t p s' with begun := (account t p s').begun + 1, owed := false } :=
        if_pos ⟨self, rfl⟩
      -- the bit that was available is now being delivered
      have away : midway s' (k p).point = false := by rw [pt]; rfl
      have here : midway s' (k' p).point = true := by rw [pt']; simp [midway]
      have sent := h.sent
      have begun := h.begun
      rw [away, pending] at sent
      rw [away] at begun
      rw [account_cons rfl, post]
      exact ⟨by rw [here]; simpa using sent, by rw [here]; simpa using begun⟩
    · exact out rfl (post_other _ hs).2.1 (sig_pending eq) pt pt' (by simp [midway, hs])
  | delivered s' w self ev eq pt pt' =>
    subst ev
    have pend : (k' p).pendingSignals = w &&& ~~~(1#32 <<< s'.val) := sig_pending eq
    have away : midway s (k' p).point = false := by rw [pt']; rfl
    have sent := h.sent
    have begun := h.begun
    rw [account_cons rfl]
    by_cases hs : s' = s
    · subst hs
      have post : (account t p s').post p s' i (.deliver s' (k p).trapframe) =
          { account t p s' with delivered := (account t p s').delivered + 1 } :=
        if_pos ⟨self, rfl⟩
      have here : midway s' (k p).point = true := by rw [pt]; simp [midway]
      rw [here] at sent begun
      rw [post]
      refine ⟨?_, by rw [away]; simpa using begun⟩
      rw [pend, clear_bit]
      simpa using sent
    · have here : midway s (k p).point = false := by rw [pt]; simp [midway, hs]
      rw [here] at sent begun
      rw [(post_other _ hs).2.2]
      refine ⟨?_, by rw [away]; exact begun⟩
      rw [pend, clear_bit, away]
      -- the store brings no bit back that was not pending
      cases bit : w.getLsbD s.val with
      | false => simp only [Bool.false_and, Bool.toNat_false]; omega
      | true => rw [loaded s' w pt _ bit] at sent; simpa [hs] using sent

end accounts

/-! ## Whole histories -/

theorem boot_unsignalled (b : Boot) (p : Slot) :
    ((boot b).proc p).pendingSignals = 0 ∧ place ((boot b).proc p).point = none := by
  have same := boot_frame b p (fun q => (q.pendingSignals, place q.point)) rfl
  exact Prod.mk.inj same

section histories
variable {b : Boot} {t : List Label} {k : Kernel}

theorem boot_loaded (b : Boot) (p : Slot) : Loaded ((boot b).proc p) := by
  intro s w hp
  have out := (boot_unsignalled b p).2
  rw [hp] at out
  cases out

theorem boot_paid (b : Boot) (p : Slot) (s : Fin nsig) :
    Paid (account [] p s) s ((boot b).proc p) := by
  obtain ⟨none, out⟩ := boot_unsignalled b p
  exact ⟨by rw [none]; simp [account, tenure], by rw [midway_out out]; simp [account, tenure]⟩

/-- Nothing is delivered that was not sent, whatever the interleaving. -/
theorem history_paid (h : History b t k) (p : Slot) :
    Loaded (k p) ∧ ∀ s, Paid (account t p s) s (k p) := by
  refine (h.invariant (I := fun t k => Wf k ∧ Loaded (k p) ∧
    ∀ s, Paid (account t p s) s (k p)) ⟨wf_boot b, boot_loaded b p, boot_paid b p⟩ ?_).2
  rintro t k ⟨i, c, e⟩ k' - ⟨wf, loaded, paid⟩ st
  have sig := sig_step wf (step_life st) p
  exact ⟨wf_step wf st, loaded_step loaded sig, fun s => paid_step (paid s) loaded sig⟩

/-- Nothing is lost as long as no send clashes with the loop. -/
theorem spaced_kept (h : Run (When Step Spaced) (boot b) t k) (p : Slot) (s : Fin nsig) :
    Kept (account t p s) s (k p) := by
  refine (h.invariant (I := fun t k => Wf k ∧ Kept (account t p s) s (k p))
    ⟨wf_boot b, .free rfl⟩ ?_).2
  rintro t k ⟨i, c, e⟩ k' - ⟨wf, kept⟩ ⟨st, ok⟩
  exact ⟨wf_step wf st, kept_step kept (sig_step wf (step_life st) p) ok⟩

/-- A signal that was sent after its last delivery began is pending, and none
is delivered more often than it was sent. -/
theorem signals_pending_and_paid (h : Run (When Step Spaced) (boot b) t k) (p : Slot)
    (s : Fin nsig) :
    ((account t p s).owed = true → (k p).pendingSignals.getLsbD s.val = true) ∧
      (account t p s).delivered ≤ (account t p s).sent := by
  refine ⟨(spaced_kept h p s).pending, ?_⟩
  have paid := (history_paid h.of_when p).2 s
  have sent := paid.sent
  have begun := paid.begun
  omega

end histories

/-- init sends itself signal 3, for which it has no handler. -/
theorem signal_pending_after_send : ∃ t k, Run (When Step Spaced) (boot bareBoot) t k ∧
    (account t initproc 3).sent = 1 ∧ (k initproc).pendingSignals.getLsbD 3 = true := by
  obtain ⟨t, k, h, owed, sent⟩ := execWhen_reaches Spaced (boot bareBoot)
    (starts initproc 0 ++ ecall initproc 29 1 3 0 .go ++ goes initproc 1 ++ returns initproc)
    (fun t _ => (account t initproc 3).owed = true ∧ (account t initproc 3).sent = 1)
    (by decide +kernel)
  exact ⟨t, k, h, sent, (signals_pending_and_paid h initproc 3).1 owed⟩

/-- init is about to store the word it has loaded for signal 0 when its child
sends it signal 5: the send succeeds, and the store loses it. -/
theorem signal_lost : ∃ t k, History bareBoot t k ∧ (k initproc).state = .running ∧
    (account t initproc 5).owed = true ∧ (k initproc).pendingSignals.getLsbD 5 = false :=
  exec_reaches
    (starts initproc 0 ++ forks initproc 1 ++ starts 1 1 ++ ecall initproc 28 0 100 0 .go ++
      returns initproc ++ ecall initproc 29 1 0 0 .go ++ goes initproc 5 ++
      ecall 1 29 1 5 0 .go ++ goes 1 1 ++ goes initproc 1)
    (by decide +kernel)

end OsProject.Xv6.Signals
