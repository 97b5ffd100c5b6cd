import OsProject.Lib.Count
import OsProject.Xv6.Family

/-! # The fork counter

`p->fork_count` is incremented by the forker after the child has been linked
and made runnable, and decremented by the exiting child through whatever its
`parent` is then. Neither update takes a lock, and `reparent` moves children
without touching a counter. `Tally` is the relation between counters and
children that holds as long as no process hands over a child that is still
counted and no two updates of one counter overlap (`Orderly`). -/
namespace OsProject.Xv6.ForkCount
open Lib.Transition Lib.Count ProcTable Machine
open Lifecycle Table Family

/-- The points of `kexit` behind the decrement of the parent's counter. -/
def left : Point → Bool
  | .exitClose _ => true
  | pt => past pt

/-- A process that its parent's counter still includes. -/
def counted (p : Proc) : Bool := p.state ≠ .unused ∧ p.state ≠ .zombie ∧ left p.point = false

/-- `j` is a child of `q` that has not yet left `q`'s counter. -/
def Kid (k : Kernel) (q j : Slot) : Prop :=
  (k j).parent = some q ∧ counted (k j) = true
  deriving Decidable

/-- Children that are linked but that the forker has not yet added. -/
def uncounted : Point → Nat
  | .forkReady _ _ | .forkLoad _ | .forkStore _ _ => 1
  | _ => 0

/-- The process whose counter an exiting process has loaded and will store. -/
def decrements : Point → Option Slot
  | .exitStore _ q _ => some q
  | _ => none

/-- Between the load and the store of `p->fork_count++`. -/
def increments : Point → Bool
  | .forkStore _ _ => true
  | _ => false

/-- The updates of counters that are under way do not overlap. -/
structure Updates (k : Kernel) : Prop where
  fork : ∀ q pid v, (k q).point = .forkStore pid v → v = (k q).forkCount
  exit : ∀ j status q v, (k j).point = .exitStore status q v →
    (k j).parent = some q ∧ v = (k q).forkCount
  alone : ∀ j q, decrements (k j).point = some q → increments (k q).point = false ∧
    ∀ j', decrements (k j').point = some q → j' = j

structure Tally (k : Kernel) : Prop extends Updates k where
  total : ∀ q, (k q).forkCount + uncounted (k q).point = count (Kid k q)

/-- The next section of `i` neither hands over a child that is still counted nor
begins an update of a counter that another update has begun. -/
def Unshared (k : Kernel) (i : Slot) : Prop :=
  match (k i).point with
  | .exitReparent _ n => ∀ j : Slot, j.val = n → ¬ Kid k i j
  | .forkLoad _ => ∀ j, decrements (k j).point ≠ some i
  | .exitLoad _ => ∀ q, (k i).parent = some q →
      increments (k q).point = false ∧ ∀ j, decrements (k j).point ≠ some q
  | _ => True

def Orderly (k : Kernel) (l : Label) : Prop := scheduling l.choice = true ∨ Unshared k l.actor

theorem left_of_quiet {pt} (h : quietPoint pt = true) : left pt = false := by
  cases pt <;> first | rfl | cases h

/-- A process at one of these points is alive and still counted. -/
theorem counted_of_point {m p} (h : Shape m p) (pt : standing p.point = true)
    (stays : left p.point = false) : counted p = true := by
  have live := live_of_point h pt
  unfold counted
  refine decide_eq_true ⟨fun st => ?_, fun st => ?_, stays⟩
  · rw [st] at live; cases live
  · rw [st] at live; cases live

section steps
variable {k k' : Kernel} {i : Slot} {e : Event}

/-- A move that neither begins nor ends an update of a counter. -/
structure Even (pt pt' : Point) : Prop where
  uncounted : uncounted pt' = uncounted pt
  increments : increments pt' = false
  decrements : decrements pt' = none

theorem Even.of_quiet {pt pt'} (h : quietPoint pt = true) (h' : quietPoint pt' = true) :
    Even pt pt' := by
  constructor
  · have : ∀ {p : Point}, quietPoint p = true → ForkCount.uncounted p = 0 := by
      intro p hp; cases p <;> first | rfl | cases hp
    rw [this h, this h']
  · cases pt' <;> first | rfl | cases h'
  · cases pt' <;> first | rfl | cases h'

/-- Steps that change no counter and no set of counted children. -/
theorem Tally.keep (h : Tally k) (hw : Wf k) (kids : ∀ q j, Kid k' q j ↔ Kid k q j)
    (fc : ∀ m, (k' m).forkCount = (k m).forkCount)
    (pts : ∀ m, (k' m).point = (k m).point ∨
      Even (k m).point (k' m).point) : Tally k' := by
  have fork : ∀ m pid v, (k' m).point = .forkStore pid v →
      (k m).point = .forkStore pid v := by
    intro m pid v hp
    rcases pts m with h' | h'
    · exact h'.symm.trans hp
    · have := h'.increments
      rw [hp] at this
      cases this
  have dec : ∀ m q, decrements (k' m).point = some q →
      decrements (k m).point = some q := by
    intro m q hp
    rcases pts m with h' | h'
    · rwa [h'] at hp
    · rw [h'.decrements] at hp; cases hp
  refine ⟨⟨?_, ?_, ?_⟩, ?_⟩
  · intro q pid v hp
    rw [fc]
    exact h.fork q pid v (fork q pid v hp)
  · intro j status q v hp
    have hp0 : (k j).point = .exitStore status q v := by
      rcases pts j with h' | h'
      · exact h'.symm.trans hp
      · have := h'.decrements
        rw [hp] at this
        cases this
    obtain ⟨par, hv⟩ := h.exit j status q v hp0
    have kid : Kid k q j :=
      ⟨par, counted_of_point (hw.shape j) (by rw [hp0]; rfl) (by rw [hp0]; rfl)⟩
    exact ⟨((kids q j).2 kid).1, hv.trans (fc q).symm⟩
  · intro j q hj
    obtain ⟨inc, uniq⟩ := h.alone j q (dec j q hj)
    refine ⟨?_, fun j' hj' => uniq j' (dec j' q hj')⟩
    rcases pts q with h' | h'
    · rw [h']; exact inc
    · exact h'.increments
  · intro q
    rw [fc, count_congr (kids q)]
    rcases pts q with h' | h'
    · rw [h']; exact h.total q
    · rw [h'.uncounted]; exact h.total q

/-- What a counter and its set of children read of an entry. -/
def view (p : Proc) : Option Slot × Bool × Int := (p.parent, counted p, p.forkCount)

theorem view_point {p pt} (h : left pt = left p.point) :
    view { p with point := pt } = view p := by simp [view, counted, h]

theorem kid_congr {q j} (h : view (k' j) = view (k j)) : Kid k' q j ↔ Kid k q j := by
  simp only [view, Prod.mk.injEq] at h
  rw [Kid, h.1, h.2.1, Kid]

theorem even_points (hw : Wf k) (a : Act k i e k')
    (even : (k' i).point = (k i).point ∨ Even (k i).point (k' i).point)
    (m : Slot) :
    (k' m).point = (k m).point ∨ Even (k m).point (k' m).point := by
  by_cases hm : m = i
  · subst hm; exact even
  · rcases act_point a hm with hp | ⟨un, -, hp⟩
    · exact .inl hp
    · right
      rcases ((hw.shape m).unused_inv un).2.2.1 with hp0 | hp0 <;> rw [hp, hp0] <;>
        exact ⟨rfl, rfl, rfl⟩

/-- A child being made has no children. -/
theorem Tally.used (h : Tally k) (hw : Wf k) {j} (st : (k j).state = .used) :
    (k j).forkCount = 0 := by
  have hc := h.total j
  have none : count (Kid k j) = 0 := count_eq_zero fun m hm => by
    have live := hw.links.parents m j hm.1
    rw [st] at live
    cases live
  rw [none, ((hw.shape j).used_inv st).2] at hc
  simpa [uncounted] using hc

theorem not_kid_of_orphan {q j} (h : (k j).parent = none) : ¬ Kid k q j := fun hk => by
  rw [hk.1] at h
  cases h

theorem not_kid_of_uncounted {q j} (h : counted (k j) = false) : ¬ Kid k q j :=
  fun hk => by rw [hk.2] at h; cases h

theorem counted_of_dead {p} (h : p.state = .unused ∨ p.state = .zombie) : counted p = false := by
  rcases h with h | h <;> simp [counted, h]

theorem hold_even {pt pt'} (h : Hold k i pt pt') : left pt' = left pt ∧ Even pt pt' := by
  cases h with
  | wakeSelf _ w | wakeEnd _ _ w => cases w <;> exact ⟨rfl, rfl, rfl, rfl⟩
  | _ => exact ⟨rfl, rfl, rfl, rfl⟩

/-! ### The sections of fork and exit that move a counter or a counted child -/

/-- The actor is not inside an update afterwards, and the others' updates keep
the parents and counters they have read. -/
theorem Updates.leave (h : Updates k) (pts : ∀ m, m ≠ i → (k' m).point = (k m).point)
    (inc : increments (k' i).point = false) (dec : decrements (k' i).point = none)
    (fork : ∀ q, q ≠ i → increments (k q).point = true →
      (k' q).forkCount = (k q).forkCount)
    (exit : ∀ m q, m ≠ i → decrements (k m).point = some q → (k m).parent = some q →
      (k' m).parent = some q ∧ (k' q).forkCount = (k q).forkCount) : Updates k' := by
  have other : ∀ m q, decrements (k' m).point = some q →
      m ≠ i ∧ decrements (k m).point = some q := by
    intro m q hm
    have hmi : m ≠ i := by rintro rfl; rw [dec] at hm; cases hm
    exact ⟨hmi, by rwa [pts m hmi] at hm⟩
  constructor
  · intro q pid v hp
    have hq : q ≠ i := by rintro rfl; rw [hp] at inc; cases inc
    rw [pts q hq] at hp
    rw [fork q hq (by rw [hp]; rfl)]
    exact h.fork q pid v hp
  · intro m status q v hp
    obtain ⟨hm, hd⟩ := other m q (by rw [hp]; rfl)
    rw [pts m hm] at hp
    obtain ⟨par, hv⟩ := h.exit m status q v hp
    obtain ⟨par', fc⟩ := exit m q hm hd par
    exact ⟨par', hv.trans fc.symm⟩
  · intro m q hm
    obtain ⟨hmi, hd⟩ := other m q hm
    obtain ⟨free, uniq⟩ := h.alone m q hd
    refine ⟨?_, fun m' hm' => uniq m' (other m' q hm').2⟩
    by_cases hq : q = i
    · subst hq; exact inc
    · rw [pts q hq]; exact free

variable (h : Tally k)
include h

theorem tally_link (hw : Wf k) {j pid} (pt : (k i).point = .forkLink j pid) :
    Tally ((k.upd j fun np => { np with parent := some i }).goto i (.forkReady j pid)) := by
  obtain ⟨used, orphan⟩ := hw.links.linking pt
  have hpt := ((hw.shape j).used_inv used).2
  have hij : j ≠ i := by
    rintro rfl
    rw [hpt] at pt
    cases pt
  generalize hk : (k.upd j fun np => { np with parent := some i }).goto i (.forkReady j pid) = k'
  have fc : ∀ m, (k' m).forkCount = (k m).forkCount := fun m => by
    rw [← hk, goto_forkCount, upd_frame Proc.forkCount rfl]
  have pts : ∀ m, m ≠ i → (k' m).point = (k m).point := fun m hm => by
    rw [← hk, goto_ne hm, upd_frame Proc.point rfl]
  have pti : (k' i).point = .forkReady j pid := by rw [← hk, goto_self]
  have views : ∀ m, m ≠ j → view (k' m) = view (k m) := by
    intro m hm
    by_cases hmi : m = i
    · subst hmi
      rw [← hk, goto_self, upd_ne hm]
      exact view_point (by rw [pt]; rfl)
    · rw [← hk, goto_ne hmi, upd_ne hm]
  have kid : Kid k' i j := by
    rw [← hk]
    refine ⟨by rw [goto_parent, upd_self], ?_⟩
    rw [goto_ne hij, upd_self]
    simp [counted, used, hpt, left, past]
  refine ⟨h.leave pts (by rw [pti]; rfl) (by rw [pti]; rfl) (fun q _ _ => fc q) ?_, ?_⟩
  · intro m q hm hd par
    have hmj : m ≠ j := by rintro rfl; rw [orphan] at par; cases par
    exact ⟨(Prod.mk.inj (views m hmj)).1.trans par, fc q⟩
  · intro q
    rw [fc q]
    by_cases hq : q = i
    · subst hq
      have hc := h.total q
      rw [pt] at hc
      rw [pti, count_join (not_kid_of_orphan orphan) kid fun m hm => kid_congr (views m hm)]
      simp only [uncounted] at hc ⊢
      omega
    · rw [pts q hq, ← count_congr (p := Kid k q)]
      · exact h.total q
      · intro m
        by_cases hm : m = j
        · subst hm
          refine iff_of_false (not_kid_of_orphan orphan) fun hk' => hq ?_
          rw [← Option.some.inj (hk'.1.symm.trans kid.1)]
        · exact (kid_congr (views m hm)).symm

theorem tally_store {pid v} (pt : (k i).point = .forkStore pid v) :
    Tally ((k.upd i fun p => { p with forkCount := v + 1 }).ret i (ofInt pid)) := by
  generalize hk : (k.upd i fun p => { p with forkCount := v + 1 }).ret i (ofInt pid) = k'
  have pts : ∀ m, m ≠ i → k'.proc m = k.proc m := fun m hm => by
    rw [← hk, ret_ne hm, upd_ne hm]
  have pti : (k' i).point = .tail := by rw [← hk, ret_point]
  have fci : (k' i).forkCount = v + 1 := by rw [← hk, ret_forkCount, upd_self]
  have kids : ∀ q m, Kid k' q m ↔ Kid k q m := by
    intro q m
    by_cases hm : m = i
    · subst hm
      rw [← hk, Kid, Kernel.ret, upd_self, upd_self, Kid]
      simp [counted, left, past, pt]
    · rw [Kid, pts m hm, Kid]
  refine ⟨h.leave (fun m hm => by rw [pts m hm]) (by rw [pti]; rfl) (by rw [pti]; rfl)
    (fun q hq _ => by rw [pts q hq]) ?_, ?_⟩
  · intro m q hm hd par
    -- nobody is about to decrement the counter that is being incremented
    have hq : q ≠ i := by
      rintro rfl
      have := (h.alone m q hd).1
      rw [pt] at this
      cases this
    exact ⟨by rw [pts m hm]; exact par, by rw [pts q hq]⟩
  · intro q
    rw [count_congr (kids q)]
    by_cases hq : q = i
    · subst hq
      have hc := h.total q
      rw [pt, ← h.fork q pid v pt] at hc
      rw [pti, fci]
      simp only [uncounted] at hc ⊢
      omega
    · rw [pts q hq]; exact h.total q

theorem tally_load {pid} (pt : (k i).point = .forkLoad pid)
    (free : ∀ j, decrements (k j).point ≠ some i) :
    Tally (k.goto i (.forkStore pid (k i).forkCount)) := by
  generalize hk : k.goto i (.forkStore pid (k i).forkCount) = k'
  have pts : ∀ m, m ≠ i → k'.proc m = k.proc m := fun m hm => by rw [← hk, goto_ne hm]
  have pti : (k' i).point = .forkStore pid (k i).forkCount := by rw [← hk, goto_self]
  have fc : ∀ m, (k' m).forkCount = (k m).forkCount := fun m => by
    rw [← hk, goto_forkCount]
  have dec : ∀ m q, decrements (k' m).point = some q →
      m ≠ i ∧ decrements (k m).point = some q := by
    intro m q hm
    have hmi : m ≠ i := by rintro rfl; rw [pti] at hm; cases hm
    exact ⟨hmi, by rwa [pts m hmi] at hm⟩
  refine ⟨⟨?_, ?_, ?_⟩, ?_⟩
  · intro q pid' v hp
    by_cases hq : q = i
    · subst hq; rw [pti] at hp; cases hp; exact (fc q).symm
    · rw [fc]; exact h.fork q pid' v (by rwa [pts q hq] at hp)
  · intro m status q v hp
    obtain ⟨hm, -⟩ := dec m q (by rw [hp]; rfl)
    rw [pts m hm] at hp ⊢
    rw [fc]
    exact h.exit m status q v hp
  · intro m q hm
    obtain ⟨hmi, hd⟩ := dec m q hm
    obtain ⟨inc, uniq⟩ := h.alone m q hd
    refine ⟨?_, fun m' hm' => uniq m' (dec m' q hm').2⟩
    have hq : q ≠ i := by rintro rfl; exact free m hd
    rw [pts q hq]
    exact inc
  · intro q
    have kids : ∀ m, Kid k' q m ↔ Kid k q m := fun m =>
      kid_congr (by rw [← hk]; exact upd_frame view (view_point (by rw [pt]; rfl)))
    rw [fc, count_congr kids]
    by_cases hq : q = i
    · subst hq
      have hc := h.total q
      rw [pt] at hc
      rw [pti]
      exact hc
    · rw [pts q hq]; exact h.total q

theorem tally_exitLoad {status q}
    (pt : (k i).point = .exitLoad status) (par : (k i).parent = some q)
    (inc : increments (k q).point = false) (free : ∀ j, decrements (k j).point ≠ some q) :
    Tally (k.goto i (.exitStore status q (k q).forkCount)) := by
  generalize hk : k.goto i (.exitStore status q (k q).forkCount) = k'
  have pts : ∀ m, m ≠ i → k'.proc m = k.proc m := fun m hm => by rw [← hk, goto_ne hm]
  have pti : (k' i).point = .exitStore status q (k q).forkCount := by rw [← hk, goto_self]
  have fc : ∀ m, (k' m).forkCount = (k m).forkCount := fun m => by
    rw [← hk, goto_forkCount]
  have hpar : ∀ m, (k' m).parent = (k m).parent := fun m => by rw [← hk, goto_parent]
  have incs : ∀ m, increments (k' m).point = increments (k m).point := by
    intro m
    by_cases hm : m = i
    · subst hm; rw [pti, pt]; rfl
    · rw [pts m hm]
  have dec : ∀ m r, decrements (k' m).point = some r →
      m = i ∧ r = q ∨ m ≠ i ∧ r ≠ q ∧ decrements (k m).point = some r := by
    intro m r hm
    by_cases hmi : m = i
    · subst hmi; rw [pti] at hm; cases hm; exact .inl ⟨rfl, rfl⟩
    · rw [pts m hmi] at hm
      exact .inr ⟨hmi, by rintro rfl; exact free m hm, hm⟩
  refine ⟨⟨?_, ?_, ?_⟩, ?_⟩
  · intro r pid v hp
    have hr : r ≠ i := by rintro rfl; rw [pti] at hp; cases hp
    rw [fc]
    exact h.fork r pid v (by rwa [pts r hr] at hp)
  · intro m status' r v hp
    rw [hpar, fc]
    by_cases hm : m = i
    · subst hm; rw [pti] at hp; cases hp; exact ⟨par, rfl⟩
    · exact h.exit m status' r v (by rwa [pts m hm] at hp)
  · intro m r hm
    rw [incs]
    rcases dec m r hm with ⟨rfl, rfl⟩ | ⟨hmi, hr, hd⟩
    · refine ⟨inc, fun m' hm' => ?_⟩
      rcases dec m' r hm' with ⟨rfl, -⟩ | ⟨-, hr, -⟩
      · rfl
      · exact absurd rfl hr
    · obtain ⟨inc', uniq⟩ := h.alone m r hd
      refine ⟨inc', fun m' hm' => ?_⟩
      rcases dec m' r hm' with ⟨-, hr'⟩ | ⟨-, -, hd'⟩
      · exact absurd hr' hr
      · exact uniq m' hd'
  · intro r
    have kids : ∀ m, Kid k' r m ↔ Kid k r m := fun m =>
      kid_congr (by rw [← hk]; exact upd_frame view (view_point (by rw [pt]; rfl)))
    rw [fc, count_congr kids]
    by_cases hr : r = i
    · subst hr
      have hc := h.total r
      rw [pt] at hc
      rw [pti]
      exact hc
    · rw [pts r hr]; exact h.total r

theorem tally_exitStore (hw : Wf k) {status q v}
    (pt : (k i).point = .exitStore status q v) :
    Tally ((k.upd q fun p => { p with forkCount := v - 1 }).goto i (.exitClose status)) := by
  obtain ⟨par, hv⟩ := h.exit i status q v pt
  obtain ⟨inc, uniq⟩ := h.alone i q (by rw [pt]; rfl)
  generalize hk : (k.upd q fun p => { p with forkCount := v - 1 }).goto i (.exitClose status) = k'
  have pts : ∀ m, m ≠ i → (k' m).point = (k m).point := fun m hm => by
    rw [← hk, goto_ne hm, upd_frame Proc.point rfl]
  have pti : (k' i).point = .exitClose status := by rw [← hk, goto_self]
  have fcq : (k' q).forkCount = v - 1 := by rw [← hk, goto_forkCount, upd_self]
  have fc : ∀ m, m ≠ q → (k' m).forkCount = (k m).forkCount := fun m hm => by
    rw [← hk, goto_forkCount, upd_ne hm]
  have hpar : ∀ m, (k' m).parent = (k m).parent := fun m => by
    rw [← hk, goto_parent, upd_frame Proc.parent rfl]
  have cnt : ∀ m, m ≠ i → counted (k' m) = counted (k m) := fun m hm => by
    rw [← hk, goto_ne hm, upd_frame counted rfl]
  have kid : Kid k q i := ⟨par, counted_of_point (hw.shape i) (by rw [pt]; rfl) (by rw [pt]; rfl)⟩
  have gone : ∀ r, ¬ Kid k' r i := fun r hk' => by
    have := hk'.2
    simp [counted, pti, left] at this
  refine ⟨h.leave pts (by rw [pti]; rfl) (by rw [pti]; rfl) ?_ ?_, ?_⟩
  · intro r hr hi
    refine fc r ?_
    rintro rfl
    rw [inc] at hi
    cases hi
  · intro m r hm hd par'
    refine ⟨(hpar m).trans par', fc r ?_⟩
    rintro rfl
    exact hm (uniq m hd)
  · intro r
    have hu : uncounted (k' r).point = uncounted (k r).point := by
      by_cases hr : r = i
      · subst hr; rw [pti, pt]; rfl
      · rw [pts r hr]
    rw [hu]
    by_cases hr : r = q
    · subst hr
      have hc := h.total r
      rw [count_join (gone r) kid fun m hm => by rw [Kid, Kid, hpar m, cnt m hm], ← hv] at hc
      rw [fcq]
      omega
    · rw [fc r hr, ← count_congr (p := Kid k r)]
      · exact h.total r
      · intro m
        by_cases hm : m = i
        · subst hm
          exact iff_of_false (fun hk' => hr (Option.some.inj (hk'.1.symm.trans par))) (gone r)
        · rw [Kid, Kid, hpar m, cnt m hm]

/-- A section that neither moves a counter nor hands over a counted child. -/
theorem tally_plain (hw : Wf k) (run : (k i).cpu ≠ none) (ord : Unshared k i)
    (a : Act k i e k') (writes : ∀ m, Wrote k k' i m e)
    (even : Even (k i).point (k' i).point)
    (stays : left (k' i).point = left (k i).point ∨ (k i).parent = none) :
    Tally k' := by
  refine h.keep hw (fun q m => ?_) (fun m => ?_) (even_points hw a (.inr even)) <;>
    obtain ⟨f, write, eq, others⟩ := writes m
  · have parent : (k' m).parent = (f (k m)).parent := by rw [eq]
    have state : (k' m).state = (f (k m)).state := by rw [eq]
    have lefts : (f (k m)).point = (k m).point →
        left (k' m).point = left (k m).point ∨ (k m).parent = none := by
      intro pt
      by_cases hm : m = i
      · rw [hm]; exact stays
      · rw [others hm, pt]; exact .inl rfl
    have plain : (f (k m)).parent = (k m).parent →
        ((f (k m)).state ≠ .unused ∧ (f (k m)).state ≠ .zombie ↔
          (k m).state ≠ .unused ∧ (k m).state ≠ .zombie) →
        (f (k m)).point = (k m).point → (Kid k' q m ↔ Kid k q m) := by
      intro par st pt
      rcases lefts pt with same | orphan
      · unfold Kid counted
        rw [parent, par, state, same, decide_eq_true_eq, decide_eq_true_eq]
        exact and_congr_right fun _ =>
          and_assoc.symm.trans ((and_congr_left fun _ => st).trans and_assoc)
      · exact iff_of_false (not_kid_of_orphan (parent.trans (par.trans orphan)))
          (not_kid_of_orphan orphan)
    cases write with
    | found f un =>
      have orphan := ((hw.shape m).unused_inv un).2.2.2.parent
      exact iff_of_false (not_kid_of_orphan (parent.trans orphan)) (not_kid_of_orphan orphan)
    | made f pid pt =>
      have orphan := (hw.links.making i m (by rw [pt]; rfl)).2
      exact iff_of_false (not_kid_of_orphan (parent.trans orphan)) (not_kid_of_orphan orphan)
    | allocFail f pid pt =>
      have orphan := (hw.links.making i m (by rw [pt]; rfl)).2
      exact iff_of_false (not_kid_of_orphan parent) (not_kid_of_orphan orphan)
    | reap addr _ _ dead =>
      exact iff_of_false (not_kid_of_uncounted (counted_of_dead (.inl state)))
        (not_kid_of_uncounted (counted_of_dead (.inr dead)))
    | zombie status self pt =>
      subst self
      refine iff_of_false (not_kid_of_uncounted (counted_of_dead (.inr state)))
        (not_kid_of_uncounted ?_)
      simp [counted, pt, left, past]
    | link pid pt pt' =>
      have := even.uncounted
      rw [pt, pt'] at this
      cases this
    | adopt status pt pt' par =>
      have out : counted (k m) = false := by
        rw [Bool.eq_false_iff]
        intro counted
        simp only [Unshared, pt] at ord
        exact ord m rfl ⟨par, counted⟩
      refine iff_of_false (not_kid_of_uncounted ?_) (not_kid_of_uncounted out)
      rcases lefts rfl with same | orphan
      · unfold counted at out ⊢
        rw [state, same]
        exact out
      · rw [orphan] at par; cases par
    | ready pid pt => exact plain rfl (by simp [(hw.links.readying i m pid pt).1]) rfl
    | wake st => exact plain rfl (by simp [st]) rfl
    | kill =>
      refine plain rfl ?_ rfl
      unfold Machine.kill
      by_cases st : (k m).state = .sleeping <;> simp [st]
    | sleep self l ch pt =>
      subst self
      have act : active (k m).point = true := by
        rcases pt with ⟨c, pt⟩ | pt <;> rw [pt] <;> rfl
      exact plain rfl (by simp [((hw.shape m).running_of_active run act).1]) rfl
    | _ => exact plain rfl .rfl rfl
  · have fc : (k' m).forkCount = (f (k m)).forkCount := by rw [eq]
    rw [fc]
    cases write with
    | made f pid pt | allocFail f pid pt =>
      exact (h.used hw (hw.links.making i m (by rw [pt]; rfl)).1).symm
    | increment pid v self pt pt' =>
      have := even.uncounted
      rw [pt, pt'] at this
      cases this
    | decrement status v pt pt' =>
      rcases stays with same | orphan
      · rw [pt, pt'] at same
        cases same
      · rw [(h.exit i status m v pt).1] at orphan
        cases orphan
    | _ => rfl

theorem tally_act (hw : Wf k) (run : (k i).cpu ≠ none) (ord : Unshared k i)
    (a : Act k i e k') : Tally k' := by
  by_cases quiet : Sect k i e k'
  · have q := quiet.quiet
    refine h.keep hw (fun _ m => kid_congr ?_) (fun m => (q.life m).forkCount)
      (even_points hw a (.inr (.of_quiet q.before q.after)))
    have life := q.life m
    simp only [view, counted, life.parent, life.state, life.forkCount]
    by_cases hm : m = i
    · subst hm; rw [left_of_quiet q.before, left_of_quiet q.after]
    · rw [q.others m hm]
  have plain := tally_plain h hw run ord a (a.writes.resolve_left quiet)
  have moves : ∀ {p p' : Point}, (k i).point = p → (k' i).point = p' → Even p p' →
      left p' = left p → Tally k' := by
    intro p p' pt pt' even same
    exact plain (by rw [pt, pt']; exact even) (.inl (by rw [pt, pt', same]))
  cases a with
  | sect sec => exact absurd sec quiet
  | hold hh =>
    refine plain ?_ (.inl ?_) <;> rw [goto_point]
    · exact (hold_even hh).2
    · exact (hold_even hh).1
  | exitLock _ pt | exitUnlock pt | sleepRelease _ pt | sendLock _ _ pt | childLock _ _ pt
  | childUnlock _ _ _ _ _ pt | recvFail _ _ _ pt | sent _ _ _ pt | ready _ _ pt | found _ _ pt
  | clearReady _ _ _ pt | clearLen _ _ _ pt | made _ _ _ pt | adopt _ _ pt =>
    exact moves pt goto_point ⟨rfl, rfl, rfl⟩ rfl
  | enter c pt | wake _ _ c pt => cases c <;> exact moves pt goto_point ⟨rfl, rfl, rfl⟩ rfl
  | reapFail _ _ _ _ pt | reap _ _ _ _ pt =>
    rcases pt with ⟨n, kids, pt⟩ | ⟨n, pt⟩ <;> exact moves pt goto_point ⟨rfl, rfl, rfl⟩ rfl
  | unlock _ pt | kill _ _ pt | allocFail _ _ _ pt => exact moves pt ret_point ⟨rfl, rfl, rfl⟩ rfl
  | exitClose _ pt | exitSched pt | received _ _ _ _ pt | sleepLock _ pt | sleepSwitch _ pt
  | nap _ pt | zombie _ pt => exact moves pt (congrArg Proc.point upd_self) ⟨rfl, rfl, rfl⟩ rfl
  | exitSkip status pt par => exact plain (by rw [goto_point, pt]; exact ⟨rfl, rfl, rfl⟩) (.inr par)
  | link j pid pt lock => exact tally_link h hw pt
  | load pid pt => exact tally_load h pt (by simpa only [Unshared, pt] using ord)
  | store pid v pt => exact tally_store h pt
  | exitLoad status q pt par =>
    simp only [Unshared, pt] at ord
    exact tally_exitLoad h pt par (ord q par).1 (ord q par).2
  | exitStore status q v pt => exact tally_exitStore h hw pt

theorem tally_sched (hw : Wf k) (s : Sched k i k') : Tally k' := by
  have keep : (∀ m, view (k' m) = view (k m)) → (∀ m, (k' m).point =
      (k m).point ∨ Even (k m).point (k' m).point) → Tally k' := fun same =>
    h.keep hw (fun _ j => kid_congr (same j)) fun m => (Prod.mk.inj (Prod.mk.inj (same m)).2).2
  have moved (m) : (k' m).point = (k m).point ∨ Even (k m).point (k' m).point := by
    rcases s.point m with hp | ⟨c, hp0, hp⟩ | ⟨hp0, hp⟩
    · exact .inl hp
    · rw [hp0, hp]; exact .inr ⟨rfl, rfl, rfl⟩
    · rw [hp0, hp]; exact .inr ⟨rfl, rfl, rfl⟩
  cases s with
  | yield run pt =>
    have st := ((hw.shape i).running_of_active run (active_of_preemptible pt)).1
    exact keep (fun m => upd_frame view (by simp [view, counted, st])) moved
  | rouse n ch st => exact keep (fun m => upd_frame view (by simp [view, counted, st])) moved
  | dispatch hart st lock idle =>
    refine keep (fun m => upd_frame view ?_) moved
    unfold resume
    split <;> simp_all [view, counted, left, past]

theorem tally_step {l} (hw : Wf k) (s : Step k l k') (ord : Orderly k l) : Tally k' := by
  obtain ⟨i, c, e⟩ := l
  cases step_life s with
  | act go run a =>
    rcases ord with ord | ord
    · rw [go] at ord; cases ord
    · exact tally_act h hw run ord a
  | sched go s => exact tally_sched h hw s

end steps

theorem tally_boot (b : Boot) : Tally (boot b) := by
  have pts := boot_point b
  refine ⟨⟨?_, ?_, ?_⟩, ?_⟩
  · intro q pid v hp; rcases pts q with h | h <;> rw [h] at hp <;> cases hp
  · intro j status q v hp; rcases pts j with h | h <;> rw [h] at hp <;> cases hp
  · intro j q hp; rcases pts j with h | h <;> rw [h] at hp <;> cases hp
  · intro q
    rw [count_eq_zero fun j => not_kid_of_orphan (boot_parent b j),
      boot_frame b q Proc.forkCount rfl]
    rcases pts q with h | h <;> rw [h] <;> rfl

/-! ## The range of the counters -/

/-- The value of a counter that has been loaded and not yet stored. -/
def loaded : Point → Int
  | .forkStore _ v | .exitStore _ _ v => v
  | _ => 0

/-- No counter is further from 0 than `n`, also not in a register. -/
def Within (n : Nat) (k : Kernel) : Prop :=
  ∀ m, (k m).forkCount.natAbs ≤ n ∧ (loaded (k m).point).natAbs ≤ n

section range
variable {k k' : Kernel} {i : Slot} {e : Event}

theorem loaded_act (a : Act k i e k') :
    loaded (k' i).point = 0 ∨ ∃ q, loaded (k' i).point = (k q).forkCount := by
  cases a with
  | sect sec =>
    have after := sec.quiet.after
    generalize (k' i).point = pt at after
    cases pt <;> first | exact .inl rfl | cases after
  | hold h =>
    rw [goto_point]
    generalize (k i).point = pt at h
    cases h with
    | wakeEnd _ _ w => cases w <;> exact .inl rfl
    | _ => exact .inl rfl
  | enter c | wake _ _ c => rw [goto_point]; cases c <;> exact .inl rfl
  | load => rw [goto_point]; exact .inr ⟨i, rfl⟩
  | exitLoad _ q => rw [goto_point]; exact .inr ⟨q, rfl⟩
  | unlock | kill | allocFail | store => rw [ret_point]; exact .inl rfl
  | exitClose | exitSched | received | sleepLock | sleepSwitch | nap | zombie =>
    rw [upd_self]; exact .inl rfl
  | _ => rw [goto_point]; exact .inl rfl

theorem forkCount_act (a : Act k i e k') (m : Slot) : (k' m).forkCount = (k m).forkCount ∨
    (k' m).forkCount = 0 ∨ (k' m).forkCount = loaded (k i).point + 1 ∨
      (k' m).forkCount = loaded (k i).point - 1 := by
  obtain sec | writes := a.writes
  · exact .inl (sec.quiet.life m).forkCount
  · obtain ⟨f, write, eq, -⟩ := writes m
    rw [show (k' m).forkCount = (f (k m)).forkCount by rw [eq]]
    cases write with
    | made | allocFail => exact .inr (.inl rfl)
    | increment pid v self pt => rw [pt]; exact .inr (.inr (.inl rfl))
    | decrement status v pt => rw [pt]; exact .inr (.inr (.inr rfl))
    | _ => exact .inl rfl

theorem within_step {n c} (h : Within n k) (s : LifeStep k i c e k') : Within (n + 1) k' := by
  intro m
  obtain ⟨hm, hl⟩ := h m
  cases s with
  | sched go s =>
    rw [s.frame Proc.forkCount, s.at loaded]
    omega
  | act go run a =>
    have hi := (h i).2
    refine ⟨by rcases forkCount_act a m with h | h | h | h <;> omega, ?_⟩
    by_cases own : m = i
    · subst own
      rcases loaded_act a with h0 | ⟨q, hq⟩
      · omega
      · have := (h q).1
        omega
    · rcases act_point a own with pt | ⟨-, -, pt⟩ <;> rw [pt]
      · omega
      · exact zero_le

end range

/-- A counter moves by at most one a step, so the C `int` holds its value in every
history of fewer than 2^31 steps. -/
theorem forkCount_range {b t k} (h : History b t k) (i : Slot) :
    (k i).forkCount.natAbs ≤ t.length := by
  refine (h.invariant (I := fun t => Within t.length) (fun m => ?_) ?_ i).1
  · rw [boot_frame b m Proc.forkCount rfl]
    rcases boot_point b m with pt | pt <;> rw [pt] <;> exact ⟨le_refl _, le_refl _⟩
  · rintro t k ⟨j, c, e⟩ k' - within s
    exact within_step within (step_life s)

/-! ## Counters between calls -/

/-- The calls that wait for a child. -/
def waits : Call → Bool
  | .wait _ | .waitpid _ _ => true
  | .recv _ _ => false

/-- Inside `kfork`, `thread_fork`, `kexit`, `kwait` or `kwaitpid`. The release of
`wait_lock` at the end of a wait no longer counts. -/
def midway : Point → Bool
  | .forkCheck _ | .forkScan _ _ | .allocReady _ _ _ | .allocLen _ _ _ | .allocRest _ _ _
  | .forkLink _ _ | .forkReady _ _ | .forkLoad _ | .forkStore _ _ | .exitLoad _ | .exitStore _ _ _
  | .exitClose _ | .exitLock _ | .exitReparent _ _
  | .wakeup _ _ (.reparent _ _) | .wakeup _ _ (.exit _) | .exitZombie _ | .exitUnlock | .exitSched
  | .waitScan _ _ _ | .waitpidScan _ _ _ => true
  | .enter c | .callKilled c | .sleepLock c | .sleepRelease c | .sleepSwitch c | .asleep c =>
    waits c
  | _ => false

/-- The slots whose parent is `q` and whose state is neither `UNUSED` nor `ZOMBIE`. -/
def livingChildren (k : Kernel) (q : Slot) : Nat :=
  count fun j => (k j).parent = some q ∧ (k j).state ≠ .unused ∧
    (k j).state ≠ .zombie

theorem dead_of_left {pt} (h : left pt = true) (quiet : midway pt = false) : pt = .dead := by
  cases pt with
  | wakeup c m w => cases w <;> first | (cases quiet; done) | cases h
  | dead => rfl
  | _ => first | (cases quiet; done) | cases h

/-- In a quiet state every living process is counted. -/
theorem counted_iff {m p} (h : Shape m p) (quiet : midway p.point = false) :
    counted p = true ↔ p.state ≠ .unused ∧ p.state ≠ .zombie := by
  simp only [counted, decide_eq_true_eq]
  refine ⟨fun hc => ⟨hc.1, hc.2.1⟩, fun hc => ⟨hc.1, hc.2, ?_⟩⟩
  rw [Bool.eq_false_iff]
  intro hl
  have dead := dead_of_left hl quiet
  cases h with
  | unused st => exact hc.1 st
  | leaving st | zombie st => exact hc.2 st
  | used _ _ pt | asleep _ _ _ _ pt | napping _ _ _ _ pt | running _ _ _ pt =>
    rw [dead] at pt; cases pt
  | ready _ _ _ pt => rw [dead] at pt; rcases pt with pt | ⟨c, pt⟩ | pt <;> cases pt

theorem history_tally {b t k} (h : Run (When Step Orderly) (boot b) t k) : Tally k :=
  (h.keeps (I := fun k => Wf k ∧ Tally k) ⟨wf_boot b, tally_boot b⟩ fun _ _ _ hk hs =>
    ⟨wf_step hk.1 hs.1, tally_step hk.2 hk.1 hs.1 hs.2⟩).2

/-- In every history whose steps are all `Orderly`, between calls every
counter is the number of its process's living children. -/
theorem forkCount_eq_livingChildren {b : Boot} {t : List Label} {k : Kernel}
    (h : Run (When Step Orderly) (boot b) t k) (quiet : ∀ i, midway (k i).point = false)
    (q : Slot) : (k q).forkCount = livingChildren k q := by
  have wf := history_wf h.of_when
  have total := (history_tally h).total q
  have hu : uncounted (k q).point = 0 := by
    have hq := quiet q
    generalize (k q).point = pt at hq
    cases pt <;> first | rfl | cases hq
  rw [hu] at total
  rw [livingChildren, ← count_congr (p := Kid k q)]
  · simpa using total
  · exact fun j => and_congr_right fun _ => counted_iff (wf.shape j) (quiet j)

instance (k : Kernel) (i : Slot) : Decidable (Unshared k i) := by
  unfold Unshared
  split <;> infer_instance

deriving instance Decidable for Orderly

set_option maxRecDepth 100000 in
theorem forkCount_after_fork : ∃ t k, Run (When Step Orderly) (boot bareBoot) t k ∧
    (∀ i, midway (k i).point = false) ∧
    (k initproc).forkCount = 1 ∧ livingChildren k initproc = 1 := by
  obtain ⟨t, k, h, quiet, hc⟩ := execWhen_reaches Orderly (boot bareBoot)
    (starts initproc 0 ++ forks initproc 1)
    (fun _ k => (∀ i, midway (k i).point = false) ∧ livingChildren k initproc = 1)
    (by decide +kernel)
  exact ⟨t, k, h, quiet, by rw [forkCount_eq_livingChildren h quiet, hc]; rfl, hc⟩

/-- init forks a child, which forks a child of its own and exits: the orphan is
init's child now, and init's counter does not include it. -/
theorem forkCount_misses_orphan : ∃ t k, History bareBoot t k ∧
    (∀ i, midway (k i).point = false) ∧ (k initproc).state ≠ .unused ∧
    (k initproc).forkCount = 0 ∧ livingChildren k initproc = 1 :=
  exec_reaches (starts initproc 0 ++ forks initproc 1 ++ starts 1 1 ++ forks 1 2 ++ exits 1 0 1)
    (by decide +kernel)

end OsProject.Xv6.ForkCount
