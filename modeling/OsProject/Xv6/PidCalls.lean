import OsProject.Xv6.Family

/-! # Calls that are addressed by pid

`kkill`, `ksigsend`, `kipc_send` and `kgetprocinfo` on one state of the table: each scans the
table for the pid in its own way. -/
namespace OsProject.Xv6.PidCalls
open Memory ProcTable Machine List
open Table Family

/-! ## The calls -/

/-- The slot at which a loop over the table stops. -/
def firstSlot (test : Slot → Bool) : Option Slot := (List.finRange nproc).find? test

/-- `kkill` looks at the pid only. -/
def kkill (k : Kernel) (pid : Int32) : Int32 × Kernel :=
  match firstSlot fun j => (k j).pid = pid with
  | some j => (0, k.upd j kill)
  | none => (-1, k)

def ksigsend (k : Kernel) (pid : Int32) (s : Fin nsig) : Int32 × Kernel :=
  match firstSlot fun j => (k j).pid = pid with
  | some j => (0, k.upd j (raise s))
  | none => (-1, k)

/-- `wakeup(chan)` by process `i`. -/
def wakeup (k : Kernel) (i chan : Slot) : Kernel :=
  { k with proc := fun j => if j = i then k.proc j else wake (some chan) (k j) }

/-- A `kipc_send` of process `i`; `ok` says which pages `copyin` can fault in. -/
def kipcSend (k : Kernel) (i : Slot) (pid : Int32) (src : UInt64) (n : Int32) (ok : Nat → Bool) :
    Int32 × Kernel :=
  if n < 0 then (-1, k)
  else
    let copied := sendCopy ok (k i).mem src (min n.toInt.toNat ipcMaxMsg)
    let k := k.upd i fun p => { p with mem := copied.1 }
    match copied.2 with
    | none => (-1, k)
    | some msg =>
      match firstSlot fun j => (k j).pid = pid ∧ (k j).state ≠ .unused with
      | none => (-1, k)
      | some t =>
        if (k t).ipcReady then (-1, k)
        else (Int32.ofNat msg.length, wakeup (k.upd t (putMail msg)) i t)

/-- The entry that `kgetprocinfo` reports, if it returns 0. -/
def kgetprocinfo (k : Kernel) (pid : Int32) : Option Proc :=
  (firstSlot fun j => (k j).pid = pid ∧ (k j).state ≠ .unused).map k.proc

/-! ## What they may touch -/

/-- The process that a pid addresses. -/
def Addressed (k : Kernel) (pid : Int32) (j : Slot) : Prop :=
  (k j).state ≠ .unused ∧ (k j).pid = pid

/-- The fields of `struct proc`: the page table is a pointer, and a page that a fault maps
changes no field. -/
def entry (p : Proc) : Proc := { p with mem := { p.mem with pages := fun _ => none } }

structure TouchesOnly (k : Kernel) (pid : Int32) (r : Int32 × Kernel) : Prop where
  frame : ∀ j, ¬ Addressed k pid j → entry (r.2.proc j) = entry (k j)
  absent : (∀ j, ¬ Addressed k pid j) → r.1 = -1 ∧ ∀ j, entry (r.2.proc j) = entry (k j)

/-- The first slot with this pid, be it in use or not. -/
def First (k : Kernel) (pid : Int32) (j : Slot) : Prop :=
  (k j).pid = pid ∧ ∀ i, i < j → (k i).pid ≠ pid

section scan
variable {test : Slot → Bool} {j : Slot}

theorem firstSlot_some (h : firstSlot test = some j) :
    test j = true ∧ ∀ i, i < j → test i = false := by
  obtain ⟨pass, before, after, split, fails⟩ := find?_eq_some_iff_append.1 h
  refine ⟨pass, fun i lt => ?_⟩
  have mem : i ∈ before ++ j :: after := split ▸ mem_finRange i
  have sorted := pairwise_lt_finRange nproc
  rw [split, pairwise_append, pairwise_cons] at sorted
  obtain mem | mem := mem_append.1 mem
  · simpa using fails i mem
  · obtain rfl | mem := mem_cons.1 mem
    · exact absurd lt (lt_irrefl i)
    · exact absurd lt (lt_asymm (sorted.2.1.1 i mem))

theorem firstSlot_none (h : firstSlot test = none) (i : Slot) : test i = false := by
  simpa using find?_eq_none.1 h i (mem_finRange i)

theorem firstSlot_eq (pass : test j = true) (fails : ∀ i, i < j → test i = false) :
    firstSlot test = some j := by
  cases h : firstSlot test with
  | none => rw [firstSlot_none h j] at pass; cases pass
  | some m =>
    obtain ⟨pass', fails'⟩ := firstSlot_some h
    obtain lt | rfl | lt := lt_trichotomy m j
    · rw [fails m lt] at pass'; cases pass'
    · rfl
    · rw [fails' j lt] at pass; cases pass

end scan

section calls
variable {k : Kernel} {pid : Int32} {i j t : Slot} {s : Fin nsig}

theorem entry_upd {f} (same : entry (f (k j)) = entry (k j)) (m : Slot) :
    entry ((k.upd j f).proc m) = entry (k m) := by
  by_cases eq : m = j
  · subst eq
    rw [upd_self]
    exact same
  · rw [upd_ne eq]

/-- A call that writes to the first slot with the pid. -/
theorem scan_touches {r f} (found : First k pid j)
    (eq : r = (0, k.upd j f)) (good : (k j).state = .unused →
      (∃ i, Addressed k pid i) ∧ entry (f (k j)) = entry (k j)) : TouchesOnly k pid r := by
  have idle : ¬ Addressed k pid j → (k j).state = .unused := by
    intro no
    by_contra used
    exact no ⟨used, found.1⟩
  refine ⟨?_, ?_⟩
  · intro m no
    rw [eq]
    by_cases same : m = j
    · rw [same] at no ⊢
      exact entry_upd (good (idle no)).2 j
    · rw [upd_ne same]
  · intro nobody
    obtain ⟨i, used⟩ := (good (idle (nobody j))).1
    exact absurd used (nobody i)

theorem kkill_first (h : First k pid j) : kkill k pid = (0, k.upd j kill) := by
  have found : firstSlot (fun j => decide ((k j).pid = pid)) = some j :=
    firstSlot_eq (by simpa using h.1) fun i lt => by simpa using h.2 i lt
  rw [kkill, found]

theorem ksigsend_first (h : First k pid j) : ksigsend k pid s = (0, k.upd j (raise s)) := by
  have found : firstSlot (fun j => decide ((k j).pid = pid)) = some j :=
    firstSlot_eq (by simpa using h.1) fun i lt => by simpa using h.2 i lt
  rw [ksigsend, found]

theorem first_or_none (k : Kernel) (pid : Int32) : (∃ j, First k pid j) ∨ ∀ j, (k j).pid ≠ pid := by
  cases h : firstSlot fun j => decide ((k j).pid = pid) with
  | none => exact .inr fun j => by simpa using firstSlot_none h j
  | some j =>
    obtain ⟨pass, fails⟩ := firstSlot_some h
    exact .inl ⟨j, by simpa using pass, fun i lt => by simpa using fails i lt⟩

theorem firstSlot_nobody (nobody : ∀ j, (k j).pid ≠ pid) :
    firstSlot (fun j => decide ((k j).pid = pid)) = none := by
  cases h : firstSlot fun j => decide ((k j).pid = pid) with
  | none => rfl
  | some j => exact absurd (by simpa using (firstSlot_some h).1) (nobody j)

theorem kkill_none (nobody : ∀ j, (k j).pid ≠ pid) : kkill k pid = (-1, k) := by
  rw [kkill, firstSlot_nobody nobody]

theorem ksigsend_none (nobody : ∀ j, (k j).pid ≠ pid) : ksigsend k pid s = (-1, k) := by
  rw [ksigsend, firstSlot_nobody nobody]

theorem unchanged_touches {n k'} (same : ∀ j, entry (k' j) = entry (k j))
    (fails : (∀ j, ¬ Addressed k pid j) → n = -1) : TouchesOnly k pid (n, k') :=
  ⟨fun j _ => same j, fun nobody => ⟨fails nobody, same⟩⟩

/-- A process sleeps on its own slot or on something outside the table. -/
theorem wake_other {p} (shape : Shape j p) (ne : j ≠ t) : wake (some t) p = p := by
  refine if_neg ?_
  rintro ⟨asleep, chan⟩
  cases shape with
  | asleep c st cpu lock pt own =>
    rw [own] at chan
    exact ne (Chan.proc.inj (Option.some.inj chan))
  | napping n st cpu lock pt own =>
    rw [own] at chan
    cases Option.some.inj chan
  | unused st | used st | ready st | running st | leaving st | zombie st =>
    rw [asleep] at st
    cases st

theorem sendCopy_sz {ok m src len} : (sendCopy ok m src len).1.sz = m.sz := by
  unfold sendCopy
  split
  · exact copyinLoop_sz
  · rfl

theorem kipcSend_touches (shape : ∀ m, Shape m (k m)) {src n ok} :
    TouchesOnly k pid (kipcSend k i pid src n ok) := by
  unfold kipcSend
  split
  · exact unchanged_touches (fun _ => rfl) fun _ => rfl
  · dsimp only
    generalize hc : sendCopy ok (k i).mem src (min n.toInt.toNat ipcMaxMsg) = copied
    have sz : copied.1.sz = (k i).mem.sz := hc ▸ sendCopy_sz
    generalize hk : (k.upd i fun p => { p with mem := copied.1 }) = k1
    have same : ∀ j, entry (k1 j) = entry (k j) := by
      intro j
      rw [← hk]
      refine entry_upd ?_ j
      simp only [entry, sz]
    have state : ∀ j, (k1 j).state = (k j).state := by
      intro j
      have h := congrArg Proc.state (same j)
      exact h
    have pids : ∀ j, (k1 j).pid = (k j).pid := by
      intro j
      have h := congrArg Proc.pid (same j)
      exact h
    have chan : ∀ j, (k1 j).chan = (k j).chan := by
      intro j
      have h := congrArg Proc.chan (same j)
      exact h
    split
    · exact unchanged_touches same fun _ => rfl
    · split
      · exact unchanged_touches same fun _ => rfl
      · rename_i t found
        have pass := (firstSlot_some found).1
        rw [decide_eq_true_eq, pids, state] at pass
        split
        · exact unchanged_touches same fun _ => rfl
        · rename_i msg _ _ _
          refine ⟨?_, fun nobody => absurd ⟨pass.2, pass.1⟩ (nobody t)⟩
          intro j no
          have ne : j ≠ t := by
            rintro rfl
            exact no ⟨pass.2, pass.1⟩
          have asleep : wake (some t) (k1 j) = k1.proc j := by
            have other := wake_other (shape j) ne
            unfold wake at other ⊢
            rw [state, chan]
            split
            · rename_i cond
              rw [if_pos cond] at other
              have woken := congrArg Proc.state other
              rw [cond.1] at woken
              cases woken
            · rfl
          have unmailed : (k1.upd t (putMail msg)).proc j = k1.proc j := upd_ne ne
          show entry (if j = i then _ else _) = _
          split
          · rw [unmailed]
            exact same j
          · rw [unmailed, asleep]
            exact same j

theorem kgetprocinfo_isSome : (kgetprocinfo k pid).isSome = true ↔ ∃ j, Addressed k pid j := by
  unfold kgetprocinfo
  cases h : firstSlot fun j => decide ((k j).pid = pid ∧ (k j).state ≠ .unused) with
  | none =>
    constructor
    · exact fun h => by cases h
    rintro ⟨j, used, same⟩
    have fails := firstSlot_none h j
    rw [decide_eq_false_iff_not] at fails
    exact absurd ⟨same, used⟩ fails
  | some j =>
    have pass := (firstSlot_some h).1
    rw [decide_eq_true_eq] at pass
    exact ⟨fun _ => ⟨j, pass.2, pass.1⟩, fun _ => rfl⟩

/-! ## The law -/

/-- A call on the first slot with the pid changes nothing but the addressed process. -/
def Law (k : Kernel) (pid : Int32) : Prop :=
  TouchesOnly k pid (kkill k pid) ∧ (∀ s, TouchesOnly k pid (ksigsend k pid s)) ∧
    (∀ i src n ok, TouchesOnly k pid (kipcSend k i pid src n ok)) ∧
      ((kgetprocinfo k pid).isSome = true ↔ ∃ j, Addressed k pid j)

/-- The first slot with the pid is in use; or the pid is somebody's, and the slot that is found
in its place already has all that `kkill` and `ksigsend` would set. -/
def FirstInUse (k : Kernel) (pid : Int32) : Prop :=
  ∀ j, First k pid j → (k j).state = .unused → (∃ i, Addressed k pid i) ∧
    (k j).killed = true ∧ ∀ s : Fin nsig, (k j).pendingSignals.getLsbD s.val = true

theorem kill_unused {p} (un : p.state = .unused) (dead : p.killed = true) : kill p = p := by
  cases p
  simp_all [kill]

theorem raise_eq {p} (set : p.pendingSignals.getLsbD s.val = true) : raise s p = p := by
  have same : p.pendingSignals ||| (1#32 <<< s.val) = p.pendingSignals := by
    ext n hn
    by_cases eq : n = s.val
    · simp_all
    · have off : (1#32 <<< s.val)[n] = false := by
        simp only [BitVec.getElem_shiftLeft, BitVec.getElem_one]
        simp only [Bool.and_eq_false_iff, Bool.not_eq_false', decide_eq_true_eq,
          decide_eq_false_iff_not]
        omega
      rw [BitVec.getElem_or, off, Bool.or_false]
  unfold raise
  rw [same]

theorem raise_sets {p} (same : (raise s p).pendingSignals = p.pendingSignals) :
    p.pendingSignals.getLsbD s.val = true := by
  have bit := congrArg (fun w => w.getLsbD s.val) same
  simp only [raise, BitVec.getLsbD_or, BitVec.getLsbD_shiftLeft] at bit
  simp_all

end calls

/-- In every history the calls touch what they are addressed to, and only that, if and only if
the first slot with the pid is in use. An unused slot has pid 0. -/
theorem pid_calls_touch_addressed {b : Boot} {t : List Label} {k : Kernel} (h : History b t k)
    (pid : Int32) : Law k pid ↔ FirstInUse k pid := by
  have shape := (history_wf h).shape
  constructor
  · rintro ⟨killed, raised, _, _⟩ j first unused
    have no : ¬ Addressed k pid j := fun used => used.1 unused
    refine ⟨?_, ?_, ?_⟩
    · by_contra nobody
      have fails := (killed.absent fun i used => nobody ⟨i, used⟩).1
      rw [kkill_first first] at fails
      cases fails
    · have same := congrArg Proc.killed (killed.frame j no)
      rw [kkill_first first, upd_self] at same
      exact same.symm
    · intro s
      have same := congrArg Proc.pendingSignals ((raised s).frame j no)
      rw [ksigsend_first first, upd_self] at same
      exact raise_sets same
  · intro cond
    refine ⟨?_, ?_, fun i src n ok => kipcSend_touches shape, kgetprocinfo_isSome⟩
    · obtain ⟨j, first⟩ | nobody := first_or_none k pid
      · refine scan_touches first (kkill_first first) fun unused => ?_
        obtain ⟨used, killed, _⟩ := cond j first unused
        exact ⟨used, by rw [kill_unused unused killed]⟩
      · rw [kkill_none nobody]
        exact unchanged_touches (fun _ => rfl) fun _ => rfl
    · intro s
      obtain ⟨j, first⟩ | nobody := first_or_none k pid
      · refine scan_touches first (ksigsend_first first) fun unused => ?_
        obtain ⟨used, _, set⟩ := cond j first unused
        exact ⟨used, by rw [raise_eq (set s)]⟩
      · rw [ksigsend_none nobody]
        exact unchanged_touches (fun _ => rfl) fun _ => rfl

theorem pid_calls_touch_init : ∃ t k, History bareBoot t k ∧ FirstInUse k 1 ∧ Law k 1 := by
  have first : FirstInUse (boot bareBoot) 1 := by
    intro j found unused
    have other : j ≠ initproc → False := by
      intro ne
      have pid := found.1
      simp only [boot, if_neg ne, Proc.zero] at pid
      cases pid
    obtain rfl : j = initproc := by
      by_contra ne
      exact other ne
    cases unused
  exact ⟨[], boot bareBoot, .nil, first, (pid_calls_touch_addressed .nil 1).2 first⟩

/-- `kill(0)` finds a slot that nobody has, marks it killed and returns 0. -/
theorem kill_zero_marks_free_slot : ∃ t k, History bareBoot t k ∧ (∀ j, ¬ Addressed k 0 j) ∧
    (kkill k 0).1 = 0 ∧ ∃ j, (k j).killed = false ∧ ((kkill k 0).2.proc j).killed = true := by
  refine ⟨[], boot bareBoot, .nil, ?_, by decide +kernel, ⟨1, by decide⟩, by decide +kernel,
    by decide +kernel⟩
  rintro j ⟨used, zero⟩
  by_cases eq : j = initproc
  · subst eq
    cases zero
  · refine used ?_
    simp only [boot, if_neg eq, Proc.zero]

end OsProject.Xv6.PidCalls
