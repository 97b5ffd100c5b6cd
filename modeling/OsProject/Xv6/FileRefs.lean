import OsProject.Xv6.OpenFiles
import OsProject.Lib.Count
import OsProject.Lib.Outcome

/-! # References to open files

A process owns references to files, the ends of pipes that it is about to close, and pipes
that it is about to free. Between two calls its references are its descriptors. -/
namespace OsProject.Xv6.OpenFiles
open Lib Lib.Threads Lib.Count Lib.Outcome Lib.Transition
open Function (update update_of_ne update_self update_eq_self update_idem update_comm)

inductive Token where
  | ref (f : Entry)
  | opened (pi : Nat) (writable : Bool)
  | free (pi : Nat)
  deriving DecidableEq

def gain (t : Token) (h : Token → Nat) : Token → Nat := update h t (h t + 1)

def lose (t : Token) (h : Token → Nat) : Token → Nat := update h t (h t - 1)

@[simp] theorem lose_gain (t : Token) (h : Token → Nat) : lose t (gain t h) = h := by
  unfold lose gain
  rw [update_self, update_idem, Nat.add_sub_cancel, update_eq_self]

theorem gain_comm (t u : Token) (h : Token → Nat) : gain t (gain u h) = gain u (gain t h) := by
  unfold gain
  by_cases eq : t = u
  · rw [eq]
  · rw [update_of_ne eq, update_of_ne (Ne.symm eq), update_comm eq]

theorem gain_apply (t u : Token) (h : Token → Nat) : gain t h u = h u + if u = t then 1 else 0 := by
  unfold gain
  by_cases eq : u = t
  · rw [if_pos eq, eq, update_self]
  · rw [if_neg eq, update_of_ne eq, add_zero]

theorem gain_pos (t : Token) (h : Token → Nat) : 1 ≤ gain t h t := by
  rw [gain_apply, if_pos rfl]
  exact Nat.le_add_left 1 _

theorem lose_apply (t u : Token) (h : Token → Nat) : lose t h u = h u - if u = t then 1 else 0 := by
  unfold lose
  by_cases eq : u = t
  · rw [if_pos eq, eq, update_self]
  · rw [if_neg eq, update_of_ne eq, Nat.sub_zero]

/-- The number of descriptors that point to a file. -/
def slots (o : Desc → Option Entry) (f : Entry) : Nat := count fun fd => o fd = some f

def idle (o : Desc → Option Entry) : Token → Nat
  | .ref f => slots o f
  | .opened .. | .free _ => 0

/-- What a process in a call owns. A file is fresh from `filealloc` to its first fields. -/
structure Own where
  ofile : Desc → Option Entry
  has : Token → Nat
  fresh : Entry → Bool
  child : Option (Slot × (Desc → Option Entry))

def held (s : Shared) (ls : Slot → Option Own) (t : Token) (p : Slot) : Nat :=
  match ls p with
  | some l => l.has t
  | none => idle (s.ofile p) t

/-- The file is the end of a pipe. -/
def IsEnd (x : File) (pi : Nat) (w : Bool) : Prop := x.type = .pipe ∧ x.pipe = pi ∧ x.writable = w
  deriving Decidable

/-- What no process owns. -/
def kept (s : Shared) : Token → Nat
  | .ref _ => 0
  | .opened pi w => count fun f => IsEnd (s.ftable f) pi w
  | .free pi => s.frees pi

def supply (s : Shared) : Token → Nat
  | .ref f => (s.ftable f).ref
  | .opened pi w => if pi < s.npipes ∧ s.isOpen pi w = true then 1 else 0
  | .free pi =>
    if pi < s.npipes ∧ s.isOpen pi false = false ∧ s.isOpen pi true = false then 1 else 0

structure Inv (s : Shared) (ls : Slot → Option Own) : Prop where
  balance : ∀ t, ∑ p, held s ls t p + kept s t = supply s t
  view : ∀ p l, ls p = some l → s.ofile p = l.ofile ∧ s.state p = .live
  child : ∀ p l j o, ls p = some l → l.child = some (j, o) → s.state j = .used ∧ s.ofile j = o
  apart : ∀ p q l l' j o o', ls p = some l → ls q = some l' → l.child = some (j, o) →
    l'.child = some (j, o') → p = q
  empty : ∀ j, s.state j = .unused ∨ s.state j = .zombie → s.ofile j = fun _ => none
  fresh : ∀ p l f, ls p = some l → l.fresh f = true →
    (s.ftable f).type = .none ∧ (s.ftable f).ref = 1 ∧ 1 ≤ l.has (.ref f)
  untyped : ∀ f, (s.ftable f).ref = 0 → (s.ftable f).type = .none
  panics : s.panic = none ∨ s.panic = some .initExiting

section change
variable {s s' : Shared} {ls : Slot → Option Own} {i : Slot} {l l' : Own}

variable {t : Token}

theorem held_some (own : ls i = some l) : held s ls t i = l.has t := by
  unfold held
  rw [own]

theorem held_update_self : held s (update ls i (some l)) t i = l.has t := held_some (update_self ..)

theorem held_update_of_ne {p x} (ne : p ≠ i) (same : ls p = none → s'.ofile p = s.ofile p) :
    held s' (update ls i x) t p = held s ls t p := by
  unfold held
  rw [update_of_ne ne]
  cases h : ls p with
  | some l => rfl
  | none => simp only [same h]

/-- Nobody else has a reference to a file that is fresh. -/
theorem Inv.sole (inv : Inv s ls) {p l0 f} (own : ls i = some l)
    (has : 1 ≤ l.has (.ref f)) (other : ls p = some l0) (fresh : l0.fresh f = true) : p = i := by
  by_contra ne
  obtain ⟨_, one, has0⟩ := inv.fresh p l0 f other fresh
  have two := add_le_sum (held s ls (.ref f)) ne
  have all := inv.balance (.ref f)
  rw [held_some own, held_some other] at two
  have : supply s (.ref f) = 1 := one
  omega

theorem Inv.child_ne (inv : Inv s ls) (own : ls i = some l) {p l0 j o} (other : ls p = some l0)
    (child : l0.child = some (j, o)) : j ≠ i := by
  rintro rfl
  have used := (inv.child p l0 j o other child).1
  rw [(inv.view j l own).2] at used
  cases used

/-- A section of `i`, which has `x` after it, leaves true what the other processes know. -/
theorem Inv.next {x} (inv : Inv s ls)
    (balance : ∀ t, ∑ p, held s' (update ls i x) t p + kept s' t = supply s' t)
    (others : ∀ p l0, p ≠ i → ls p = some l0 → s'.ofile p = s.ofile p ∧ s'.state p = s.state p)
    (kids : ∀ p l0 j o, p ≠ i → ls p = some l0 → l0.child = some (j, o) →
      s'.ofile j = s.ofile j ∧ s'.state j = s.state j)
    (files : ∀ p l0 f, p ≠ i → ls p = some l0 → l0.fresh f = true → s'.ftable f = s.ftable f)
    (view : ∀ l, x = some l → s'.ofile i = l.ofile ∧ s'.state i = .live)
    (child : ∀ l j o, x = some l → l.child = some (j, o) → (s'.state j = .used ∧ s'.ofile j = o) ∧
      ∀ p l0 o', p ≠ i → ls p = some l0 → l0.child ≠ some (j, o'))
    (empty : ∀ j, s'.state j = .unused ∨ s'.state j = .zombie → s'.ofile j = fun _ => none)
    (fresh : ∀ l f, x = some l → l.fresh f = true →
      (s'.ftable f).type = .none ∧ (s'.ftable f).ref = 1 ∧ 1 ≤ l.has (.ref f))
    (untyped : ∀ f, (s'.ftable f).ref = 0 → (s'.ftable f).type = .none)
    (panics : s'.panic = none ∨ s'.panic = some .initExiting) : Inv s' (update ls i x) where
  balance := balance
  view := by
    intro p l0 h
    obtain ⟨rfl, mine⟩ | ⟨ne, h⟩ := update_eq_some h
    · exact view l0 mine
    · rw [(others p l0 ne h).1, (others p l0 ne h).2]
      exact inv.view p l0 h
  child := by
    intro p l0 j o h hc
    obtain ⟨rfl, mine⟩ | ⟨ne, h⟩ := update_eq_some h
    · exact (child l0 j o mine hc).1
    · rw [(kids p l0 j o ne h hc).1, (kids p l0 j o ne h hc).2]
      exact inv.child p l0 j o h hc
  apart := by
    intro p q l1 l2 j o o' now now' cp cq
    obtain ⟨rfl, mine⟩ | ⟨ne, hp⟩ := update_eq_some now <;> obtain ⟨rfl, mine'⟩ | ⟨ne', hq⟩ :=
      update_eq_some now'
    · rfl
    · exact absurd cq ((child l1 j o mine cp).2 q l2 o' ne' hq)
    · exact absurd cp ((child l2 j o' mine' cq).2 p l1 o ne hp)
    · exact inv.apart p q l1 l2 j o o' hp hq cp cq
  empty := empty
  fresh := by
    intro p l0 f h hf
    obtain ⟨rfl, mine⟩ | ⟨ne, h⟩ := update_eq_some h
    · exact fresh l0 f mine hf
    · rw [files p l0 f ne h hf]
      exact inv.fresh p l0 f h hf
  untyped := untyped
  panics := panics

/-- A section of a process that leaves the other tables and the states alone. -/
theorem Inv.change (inv : Inv s ls) (own : ls i = some l)
    (ofile : ∀ p, p ≠ i → s'.ofile p = s.ofile p) (mine : s'.ofile i = l'.ofile)
    (state : s'.state = s.state) (child : l'.child = l.child)
    (bal : ∀ t, l'.has t + kept s' t + supply s t = l.has t + kept s t + supply s' t)
    (table : ∀ f, s'.ftable f = s.ftable f ∨ (s.ftable f).ref = 0 ∨ 1 ≤ l.has (.ref f))
    (fresh : ∀ f, l'.fresh f = true →
      (s'.ftable f).type = .none ∧ (s'.ftable f).ref = 1 ∧ 1 ≤ l'.has (.ref f))
    (untyped : ∀ f, (s'.ftable f).ref = 0 → (s'.ftable f).type = .none)
    (panic : s'.panic = s.panic) : Inv s' (update ls i (some l')) := by
  have live := (inv.view i l own).2
  refine inv.next ?_ (fun p _ ne _ => ⟨ofile p ne, congrFun state p⟩) ?_ ?_ ?_ ?_ ?_ ?_ untyped
    (panic ▸ inv.panics)
  · intro t
    have sum := sum_change (held s ls t) (held s' (update ls i (some l')) t) i
      fun p ne => held_update_of_ne ne fun _ => ofile p ne
    rw [held_update_self, held_some own] at sum
    have old := inv.balance t
    have new := bal t
    omega
  · exact fun p l0 j o _ h hc => ⟨ofile j (inv.child_ne own h hc), congrFun state j⟩
  · intro p l0 f ne h hf
    have old := inv.fresh p l0 f h hf
    obtain same | free | has := table f
    · exact same
    · omega
    · exact absurd (inv.sole own has h hf) ne
  · rintro _ ⟨⟩
    rw [state]
    exact ⟨mine, live⟩
  · rintro _ j o ⟨⟩ hc
    rw [child] at hc
    rw [state, ofile j (inv.child_ne own own hc)]
    exact ⟨inv.child i l j o own hc,
      fun p l0 o' ne h hc' => ne (inv.apart p i l0 l j o' o h own hc' hc)⟩
  · intro j h
    rw [state] at h
    have ne : j ≠ i := by
      rintro rfl
      simp [live] at h
    rw [ofile j ne]
    exact inv.empty j h
  · rintro _ f ⟨⟩
    exact fresh f

/-- The states of the processes may change, and their pids. -/
structure SameFiles (s s' : Shared) : Prop where
  ftable : s'.ftable = s.ftable
  ofile : s'.ofile = s.ofile
  npipes : s'.npipes = s.npipes
  isOpen : s'.isOpen = s.isOpen
  frees : s'.frees = s.frees

theorem SameFiles.kept_eq (h : SameFiles s s') (t : Token) : kept s' t = kept s t := by
  cases t with
  | ref f => rfl
  | opened pi w => simp only [kept, h.ftable]
  | free pi => simp only [kept, h.frees]

theorem SameFiles.supply_eq (h : SameFiles s s') (t : Token) : supply s' t = supply s t := by
  cases t with
  | ref f => simp only [supply, h.ftable]
  | opened pi w | free pi => simp only [supply, h.npipes, h.isOpen]

theorem Inv.same_balance {ls'} (inv : Inv s ls) (same : SameFiles s s')
    (others : ∀ t p, held s' ls' t p = held s ls t p) (t : Token) :
    ∑ p, held s' ls' t p + kept s' t = supply s' t := by
  rw [Finset.sum_congr rfl fun p _ => others t p, same.kept_eq, same.supply_eq]
  exact inv.balance t

/-- A section that changes the state of a slot which is in no call. -/
theorem Inv.restate {j x} (inv : Inv s ls) (own : ls i = some l)
    (same : SameFiles s s') (state : s'.state = update s.state j x)
    (panic : s'.panic = s.panic) (dead : s.state j ≠ .live)
    (others : ∀ p l0 o, p ≠ i → ls p = some l0 → l0.child ≠ some (j, o))
    (ofile : l'.ofile = l.ofile) (has : l'.has = l.has) (fresh : l'.fresh = l.fresh)
    (mine : ∀ k o, l'.child = some (k, o) → update s.state j x k = .used ∧ s.ofile k = o)
    (child : ∀ k o, l'.child = some (k, o) → k = j ∨ l.child = some (k, o))
    (empty : x = .unused ∨ x = .zombie → s.ofile j = fun _ => none) :
    Inv s' (update ls i (some l')) := by
  have away : ∀ {p l0}, ls p = some l0 → s'.ofile p = s.ofile p ∧ s'.state p = s.state p := by
    intro p l0 h
    have ne : p ≠ j := fun eq => dead (eq ▸ (inv.view p l0 h).2)
    rw [same.ofile, state, update_of_ne ne]
    exact ⟨rfl, rfl⟩
  refine inv.next (inv.same_balance same fun t p => ?_) (fun _ _ _ h => away h) ?_
    (fun _ _ f _ _ _ => by rw [same.ftable]) ?_ ?_ ?_ ?_ (by rw [same.ftable]; exact inv.untyped)
    (panic ▸ inv.panics)
  · by_cases ne : p = i
    · rw [ne, held_update_self, held_some own, has]
    · exact held_update_of_ne ne fun _ => congrFun same.ofile p
  · intro p l0 k o ne h hc
    have apart : k ≠ j := fun eq => others p l0 o ne h (eq ▸ hc)
    rw [same.ofile, state, update_of_ne apart]
    exact ⟨rfl, rfl⟩
  · rintro _ ⟨⟩
    rw [(away own).1, (away own).2, ofile]
    exact inv.view i l own
  · rintro _ k o ⟨⟩ hc
    rw [state, same.ofile]
    refine ⟨mine k o hc, fun p l0 o' ne h hc' => ?_⟩
    obtain rfl | old := child k o hc
    · exact others p l0 o' ne h hc'
    · exact ne (inv.apart p i l0 l k o' o h own hc' old)
  · intro k h
    rw [same.ofile]
    rw [state] at h
    by_cases eq : k = j
    · subst eq
      rw [update_self] at h
      exact empty h
    · rw [update_of_ne eq] at h
      exact inv.empty k h
  · rintro _ f ⟨⟩ hf
    rw [same.ftable, has]
    exact inv.fresh i l f own (fresh ▸ hf)

/-- A call that ends, or a process that ends in one. -/
theorem Inv.settle (inv : Inv s ls) (own : ls i = some l) (has : l.has = idle l.ofile)
    (same : SameFiles s s') (state : ∀ p, p ≠ i → s'.state p = s.state p)
    (dead : s'.state i = .unused ∨ s'.state i = .zombie → l.ofile = fun _ => none)
    (panics : s'.panic = none ∨ s'.panic = some .initExiting) : Inv s' (update ls i none) := by
  refine inv.next (inv.same_balance same fun t p => ?_)
    (fun p _ ne _ => ⟨congrFun same.ofile p, state p ne⟩)
    (fun p l0 j o _ h hc => ⟨congrFun same.ofile j, state j (inv.child_ne own h hc)⟩)
    (fun _ _ f _ _ _ => by rw [same.ftable]) (by rintro _ ⟨⟩) (by rintro _ _ _ ⟨⟩) ?_
    (by rintro _ _ ⟨⟩) (by rw [same.ftable]; exact inv.untyped) panics
  · by_cases ne : p = i
    · rw [ne, held_some own, has, ← (inv.view i l own).1, ← same.ofile]
      unfold held
      rw [update_self]
    · exact held_update_of_ne ne fun _ => congrFun same.ofile p
  · intro j h
    rw [same.ofile]
    by_cases eq : j = i
    · subst eq
      rw [(inv.view j l own).1]
      exact dead h
    · rw [state j eq] at h
      exact inv.empty j h

/-- A call begins. -/
theorem Inv.start (inv : Inv s ls) (none : ls i = none) (live : s.state i = .live) :
    Inv s (update ls i (some ⟨s.ofile i, idle (s.ofile i), fun _ => false, .none⟩)) := by
  refine inv.next (inv.same_balance ⟨rfl, rfl, rfl, rfl, rfl⟩ fun t p => ?_)
    (fun _ _ _ _ => ⟨rfl, rfl⟩) (fun _ _ _ _ _ _ _ => ⟨rfl, rfl⟩) (fun _ _ _ _ _ _ => rfl) ?_ ?_
    inv.empty ?_ inv.untyped inv.panics
  · by_cases ne : p = i
    · rw [ne, held_update_self]
      unfold held
      rw [none]
    · exact held_update_of_ne ne fun _ => rfl
  · rintro _ ⟨⟩
    exact ⟨rfl, live⟩
  · rintro _ _ _ ⟨⟩ ⟨⟩
  · rintro _ _ ⟨⟩ ⟨⟩

end change

/-! ## The sections -/

/-- Between two calls. -/
def Settled (l : Own) : Prop := l.has = idle l.ofile ∧ l.child = none

def pre (_ : Slot) : Op → Own → Prop
  | .filedup f, l | .drop f, l => 1 ≤ l.has (.ref f)
  | .fill f (.pipe pi w), l => l.fresh f = true ∧ 1 ≤ l.has (.opened pi w)
  | .fill f (.inode ..), l => l.fresh f = true
  | .closeEnd pi w, l => 1 ≤ l.has (.opened pi w)
  | .kfree pi, l => 1 ≤ l.has (.free pi)
  | .claim _, l => l.child = none
  | .freeproc j, l => l.child = some (j, fun _ => none)
  | .setChild j fd f, l => 1 ≤ l.has (.ref f) ∧ ∃ o, l.child = some (j, o) ∧ o fd = none
  | .runnable j, l => ∃ o, l.child = some (j, o)
  | .notInit, l => Settled l
  | .zombie, l => Settled l ∧ l.ofile = fun _ => none
  | _, _ => True

/-- A reference is given up. -/
def Own.release (l : Own) (f : Entry) : Own :=
  { l with has := lose (.ref f) l.has, fresh := update l.fresh f false }

/-- The reference goes to a descriptor of the child. -/
def Own.give (l : Own) (j : Slot) (o : Desc → Option Entry) (fd : Desc) (f : Entry) : Own :=
  { l.release f with child := some (j, update o fd (some f)) }

def post (_ : Slot) : (o : Op) → Own → Res o → Own → Prop
  | .ofile fd, l, r, l' => r = l.ofile fd ∧ l' = l
  | .setOfile fd v, l, _, l' => l' = { l with ofile := update l.ofile fd v }
  | .filealloc, l, r, l' =>
    match r with
    | none => l' = l
    | some f => l.has (.ref f) = 0 ∧
        l' = { l with has := gain (.ref f) l.has, fresh := update l.fresh f true }
  | .filedup f, l, _, l' =>
    l' = { l with has := gain (.ref f) l.has, fresh := update l.fresh f false }
  | .drop f, l, r, l' =>
    match r with
    | none => l' = l.release f
    | some ff => l' = if ff.type = .pipe then
        { l.release f with has := gain (.opened ff.pipe ff.writable) (l.release f).has }
        else l.release f
  | .fill f (.pipe pi w), l, _, l' =>
    l' = { l with has := lose (.opened pi w) l.has, fresh := update l.fresh f false }
  | .fill f (.inode ..), l, _, l' => l' = { l with fresh := update l.fresh f false }
  | .closeEnd pi w, l, r, l' =>
    match r with
    | true => l' = { l with has := gain (.free pi) (lose (.opened pi w) l.has) }
    | false => l' = { l with has := lose (.opened pi w) l.has }
  | .kalloc, l, r, l' =>
    match r with
    | none => l' = l
    | some pi => l' = { l with has := gain (.opened pi false) (gain (.opened pi true) l.has) }
  | .kfree pi, l, _, l' => l' = { l with has := lose (.free pi) l.has }
  | .claim j, l, r, l' =>
    match r with
    | true => l' = { l with child := some (j, fun _ => none) }
    | false => l' = l
  | .freeproc _, l, _, l' | .runnable _, l, _, l' => l' = { l with child := none }
  | .setChild j fd f, l, _, l' => ∃ o, l.child = some (j, o) ∧ l' = l.give j o fd f
  | .inode, l, _, l' | .iput _, l, _, l' | .succeeds, l, _, l' | .pid _, l, _,
      l' | .notInit, l, _, l'
  | .reap _, l, _, l' => l' = l
  | .zombie, _, _, _ => False

section sections
variable {s s' : Shared} {ls : Slot → Option Own} {i : Slot} {l l' : Own} {f : Entry}

/-- Nothing changes. -/
theorem Inv.stay (inv : Inv s ls) (own : ls i = some l) : Inv s (update ls i (some l)) := by
  rwa [← own, update_eq_self]

variable {x : File} {pi : Nat} {w : Bool} {h : Token → Nat}

theorem supply_setFile {g} :
    supply (s.setFile f x) (.ref g) = if g = f then x.ref else (s.ftable g).ref := by
  show (update s.ftable f x g).ref = _
  by_cases eq : g = f
  · rw [if_pos eq, eq, update_self]
  · rw [if_neg eq, update_of_ne eq]

theorem kept_setFile :
    kept (s.setFile f x) (.opened pi w) + (if IsEnd (s.ftable f) pi w then 1 else 0) =
      kept s (.opened pi w) + if IsEnd x pi w then 1 else 0 := by
  have h := count_change (p := fun g => IsEnd (s.ftable g) pi w)
    (q := fun g => IsEnd (update s.ftable f x g) pi w) f fun b hb => by
      rw [update_of_ne hb]
  simp only [update_self] at h
  exact h

/-- A section that changes the file `f`. -/
theorem Inv.setFile (inv : Inv s ls) (own : ls i = some l) (ofile : l'.ofile = l.ofile)
    (child : l'.child = l.child)
    (refs : l'.has (.ref f) + (s.ftable f).ref = l.has (.ref f) + x.ref)
    (others : ∀ g, g ≠ f → l'.has (.ref g) = l.has (.ref g))
    (ends : ∀ pi w, l'.has (.opened pi w) + (if IsEnd x pi w then 1 else 0) =
      l.has (.opened pi w) + if IsEnd (s.ftable f) pi w then 1 else 0)
    (free : ∀ pi, l'.has (.free pi) = l.has (.free pi))
    (mine : (s.ftable f).ref = 0 ∨ 1 ≤ l.has (.ref f)) (fresh : ∀ g, g ≠ f → l'.fresh g = l.fresh g)
    (here : l'.fresh f = true → x.type = .none ∧ x.ref = 1 ∧ 1 ≤ l'.has (.ref f))
    (untyped : x.ref = 0 → x.type = .none) : Inv (s.setFile f x) (update ls i (some l')) := by
  have at_f : (s.setFile f x).ftable f = x := update_self ..
  have off_f : ∀ g, g ≠ f → (s.setFile f x).ftable g = s.ftable g := fun g ne =>
    update_of_ne ne ..
  refine inv.change own (fun _ _ => rfl) ((inv.view i l own).1.trans ofile.symm) rfl child ?_
    ?_ ?_ ?_ rfl
  · intro t
    cases t with
    | ref g =>
      rw [supply_setFile]
      show l'.has _ + 0 + (s.ftable g).ref = l.has _ + 0 + _
      by_cases eq : g = f
      · subst eq
        rw [if_pos rfl]
        omega
      · rw [if_neg eq, others g eq]
    | opened pi w =>
      have : kept (s.setFile f x) (.opened pi w) + _ = kept s (.opened pi w) + _ := kept_setFile
      have := ends pi w
      show _ + supply s (.opened pi w) = _ + supply s (.opened pi w)
      omega
    | free pi =>
      rw [free]
      rfl
  · intro g
    by_cases eq : g = f
    · subst eq
      exact .inr mine
    · exact .inl (off_f g eq)
  · intro g hg
    by_cases eq : g = f
    · subst eq
      rw [at_f]
      exact here hg
    · rw [off_f g eq, others g eq]
      exact inv.fresh i l g own (fresh g eq ▸ hg)
  · intro g hg
    by_cases eq : g = f
    · subst eq
      rw [at_f] at hg ⊢
      exact untyped hg
    · rw [off_f g eq] at hg ⊢
      exact inv.untyped g hg

theorem isEnd_congr {y} (type : x.type = y.type) (pipe : x.pipe = y.pipe)
    (writable : x.writable = y.writable) (pi : Nat) (w : Bool) : IsEnd x pi w ↔ IsEnd y pi w := by
  unfold IsEnd
  rw [type, pipe, writable]

variable (inv : Inv s ls) (own : ls i = some l)
include inv own

/-- A process has one more reference to a file, or one less. -/
theorem Inv.recount {n b}
    (pos : n = 0 → (s.ftable f).type = .none)
    (refs : h (.ref f) + (s.ftable f).ref = l.has (.ref f) + n)
    (others : ∀ t, t ≠ .ref f → h t = l.has t) (mine : (s.ftable f).ref = 0 ∨ 1 ≤ l.has (.ref f))
    (here : b = true → (s.ftable f).type = .none ∧ n = 1 ∧ 1 ≤ h (.ref f)) :
    Inv (s.setFile f { s.ftable f with ref := n })
      (update ls i (some { l with has := h, fresh := update l.fresh f b })) := by
  refine inv.setFile own rfl rfl refs (fun g ne => others _ fun eq => ne (Token.ref.inj eq)) ?_
    (fun pi => others _ Token.noConfusion) mine (fun g ne => update_of_ne ne ..) ?_ pos
  · intro pi w
    show h (.opened pi w) + _ = _
    rw [others _ (by simp)]
    rfl
  · intro hb
    exact here ((update_self (f := l.fresh) (a := f) b).symm.trans hb)

theorem filealloc_sound (free : (s.ftable f).ref = 0) :
    l.has (.ref f) = 0 ∧ Inv (s.setFile f { s.ftable f with ref := 1 }) (update ls i
      (some { l with has := gain (.ref f) l.has, fresh := update l.fresh f true })) := by
  have none : l.has (.ref f) = 0 := by
    have all := inv.balance (.ref f)
    have part := le_sum (held s ls (.ref f)) i
    rw [held_some own] at part
    have : supply s (.ref f) = 0 := free
    omega
  refine ⟨none, inv.recount own (fun h => absurd h (by decide)) ?_ ?_ (.inl free) ?_⟩
  · rw [gain_apply, if_pos rfl, free]
  · intro t ne
    rw [gain_apply, if_neg ne, add_zero]
  · intro _
    refine ⟨inv.untyped f free, rfl, ?_⟩
    rw [gain_apply, if_pos rfl]
    omega

theorem filedup_sound (has : 1 ≤ l.has (.ref f)) :
    Inv (s.setFile f { s.ftable f with ref := (s.ftable f).ref + 1 }) (update ls i
      (some { l with has := gain (.ref f) l.has, fresh := update l.fresh f false })) := by
  refine inv.recount own (fun h => absurd h (Nat.succ_ne_zero _)) ?_ ?_ (.inr has)
    fun h => absurd h (by decide)
  · rw [gain_apply, if_pos rfl]
    omega
  · intro t ne
    rw [gain_apply, if_neg ne, add_zero]

/-- Not the last reference. -/
theorem drop_sound (has : 1 ≤ l.has (.ref f))
    (more : 0 < (s.ftable f).ref - 1) :
    Inv (s.setFile f { s.ftable f with ref := (s.ftable f).ref - 1 })
      (update ls i (some (l.release f))) := by
  refine inv.recount own (fun h => absurd h (Nat.ne_of_gt more)) ?_ ?_ (.inr has)
    fun h => absurd h (by decide)
  · rw [lose_apply, if_pos rfl]
    omega
  · intro t ne
    rw [lose_apply, if_neg ne, Nat.sub_zero]

theorem drop_last_sound (has : 1 ≤ l.has (.ref f))
    (last : (s.ftable f).ref = 1) (ff : File) (type : ff.type = (s.ftable f).type)
    (pipe : ff.pipe = (s.ftable f).pipe) (writable : ff.writable = (s.ftable f).writable)
    (ref : ff.ref = 0) : Inv (s.setFile f { ff with type := .none }) (update ls i (some
      (if ff.type = .pipe then
        { l.release f with has := gain (.opened ff.pipe ff.writable) (l.release f).has }
      else l.release f))) := by
  have old : ∀ pi w, IsEnd (s.ftable f) pi w ↔ IsEnd ff pi w := fun pi w =>
    isEnd_congr type.symm pipe.symm writable.symm pi w
  have none : ∀ pi w, ¬ IsEnd { ff with type := .none } pi w := by
    intro pi w h
    cases h.1
  by_cases isPipe : ff.type = .pipe
  · rw [if_pos isPipe]
    refine inv.setFile own rfl rfl ?_ ?_ ?_ ?_ (.inr has) (fun g ne => update_of_ne ne ..) ?_
      fun _ => rfl
    · simp only [Own.release, gain_apply, lose_apply, reduceCtorEq, if_false, if_true, last, ref]
      omega
    · intro g ne
      simp [Own.release, gain_apply, lose_apply, ne]
    · intro pi w
      simp only [none, if_false, old]
      have here : IsEnd ff pi w ↔ Token.opened pi w = .opened ff.pipe ff.writable := by
        simp only [IsEnd, isPipe, true_and, Token.opened.injEq]
        constructor
        · rintro ⟨rfl, rfl⟩
          exact ⟨rfl, rfl⟩
        · rintro ⟨rfl, rfl⟩
          exact ⟨rfl, rfl⟩
      simp only [here, Own.release, gain_apply, lose_apply, reduceCtorEq, if_false, Nat.sub_zero,
        add_zero]
    · intro pi
      simp [Own.release, gain_apply, lose_apply]
    · intro h
      rw [show Own.fresh _ f = false from update_self ..] at h
      cases h
  · rw [if_neg isPipe]
    refine inv.setFile own rfl rfl ?_ ?_ ?_ ?_ (.inr has) (fun g ne => update_of_ne ne ..) ?_
      fun _ => rfl
    · simp only [Own.release, lose_apply, if_true, last, ref]
      omega
    · intro g ne
      simp [Own.release, lose_apply, ne]
    · intro pi w
      have not_end : ¬ IsEnd ff pi w := fun h => isPipe h.1
      simp only [none, if_false, old, not_end, Own.release, lose_apply, reduceCtorEq, Nat.sub_zero]
    · intro pi
      simp [Own.release, lose_apply]
    · intro h
      rw [show Own.fresh _ f = false from update_self ..] at h
      cases h

omit inv own

theorem not_fresh {g : Entry → Bool} : update g f false f ≠ true := by
  rw [update_self]
  decide

variable (inv : Inv s ls) (own : ls i = some l)
include inv own

/-- A file gets its fields; it was fresh. -/
theorem Inv.filled (fresh : l.fresh f = true)
    (ref : x.ref = (s.ftable f).ref) (others : ∀ t, (∀ pi w, t ≠ .opened pi w) → h t = l.has t)
    (ends : ∀ pi w, h (.opened pi w) + (if IsEnd x pi w then 1 else 0) = l.has (.opened pi w)) :
    Inv (s.setFile f x) (update ls i
      (some { l with has := h, fresh := update l.fresh f false })) := by
  obtain ⟨type, one, has⟩ := inv.fresh i l f own fresh
  refine inv.setFile own rfl rfl ?_ (fun g _ => others _ (by simp)) ?_
    (fun pi => others _ (by simp)) (.inr has) (fun g ne => update_of_ne ne ..)
    (fun hf => absurd hf not_fresh) ?_
  · show h (.ref f) + _ = _
    rw [others _ (by simp), ref]
  · intro pi w
    have not_end : ¬ IsEnd (s.ftable f) pi w := by
      intro h
      rw [h.1] at type
      cases type
    rw [if_neg not_end]
    exact ends pi w
  · intro zero
    omega

theorem fill_pipe_sound (fresh : l.fresh f = true)
    (has : 1 ≤ l.has (.opened pi w)) :
    Inv (s.setFile f ((Fill.pipe pi w).apply (s.ftable f))) (update ls i
      (some { l with has := lose (.opened pi w) l.has, fresh := update l.fresh f false })) := by
  refine inv.filled own fresh rfl (fun t ne => ?_) fun pi' w' => ?_
  · rw [lose_apply, if_neg (ne pi w), Nat.sub_zero]
  · have here : IsEnd ((Fill.pipe pi w).apply (s.ftable f)) pi' w' ↔
        Token.opened pi' w' = .opened pi w := by
      simp only [IsEnd, Fill.apply, true_and, Token.opened.injEq]
      constructor
      · rintro ⟨rfl, rfl⟩
        exact ⟨rfl, rfl⟩
      · rintro ⟨rfl, rfl⟩
        exact ⟨rfl, rfl⟩
    simp only [here, lose_apply]
    split
    · rename_i eq
      rw [eq]
      omega
    · omega

theorem fill_inode_sound {ip omode}
    (fresh : l.fresh f = true) :
    Inv (s.setFile f ((Fill.inode ip omode).apply (s.ftable f))) (update ls i
      (some { l with fresh := update l.fresh f false })) := by
  have ref : ((Fill.inode ip omode).apply (s.ftable f)).ref = (s.ftable f).ref := by
    unfold Fill.apply
    cases device : ip.device <;> simp [device]
  refine inv.filled own fresh ref (fun _ _ => rfl) fun pi w => ?_
  have not_end : ¬ IsEnd ((Fill.inode ip omode).apply (s.ftable f)) pi w := by
    intro h
    have type := h.1
    unfold Fill.apply at type
    cases device : ip.device <;> simp [device] at type
  rw [if_neg not_end, add_zero]

/-- A section that changes pipes only. -/
theorem Inv.pipes (ftable : s'.ftable = s.ftable)
    (ofile : s'.ofile = s.ofile) (state : s'.state = s.state) (panic : s'.panic = s.panic)
    (refs : ∀ g, h (.ref g) = l.has (.ref g))
    (ends : ∀ pi w, h (.opened pi w) + supply s (.opened pi w) =
      l.has (.opened pi w) + supply s' (.opened pi w))
    (frees : ∀ pi, h (.free pi) + s'.frees pi + supply s (.free pi) =
      l.has (.free pi) + s.frees pi + supply s' (.free pi)) :
    Inv s' (update ls i (some { l with has := h })) := by
  refine inv.change own (fun p _ => congrFun ofile p)
    ((congrFun ofile i).trans (inv.view i l own).1) state rfl ?_ (fun g => .inl (congrFun ftable g))
    ?_ ?_ panic
  · intro t
    cases t with
    | ref g =>
      show h (.ref g) + 0 + (s.ftable g).ref = l.has (.ref g) + 0 + (s'.ftable g).ref
      rw [refs, ftable]
    | opened pi w =>
      have := ends pi w
      simp only [kept, ftable]
      omega
    | free pi => exact frees pi
  · intro g hg
    rw [ftable]
    show _ ∧ _ ∧ 1 ≤ h (.ref g)
    rw [refs]
    exact inv.fresh i l g own hg
  · rw [ftable]
    exact inv.untyped

/-- An end that a process is to close is open. -/
theorem Inv.is_open (has : 1 ≤ l.has (.opened pi w)) : pi < s.npipes ∧ s.isOpen pi w = true := by
  have all := inv.balance (.opened pi w)
  have part := le_sum (held s ls (.opened pi w)) i
  rw [held_some own] at part
  by_contra closed
  have : supply s (.opened pi w) = 0 := if_neg closed
  omega

omit inv own

theorem supply_setOpen {pi' x} : (∀ w, supply (s.setOpen pi x) (.opened pi' w) =
      if pi' = pi then if pi < s.npipes ∧ x w = true then 1 else 0 else supply s (.opened pi' w)) ∧
    supply (s.setOpen pi x) (.free pi') =
      if pi' = pi then if pi < s.npipes ∧ x false = false ∧ x true = false then 1 else 0
      else supply s (.free pi') := by
  by_cases eq : pi' = pi
  · subst eq
    simp [supply, Shared.setOpen]
  · simp [supply, Shared.setOpen, eq]

/-- One end is closed, and the other one stays as it is. -/
theorem closeEnd_sound (inv : Inv s ls) (own : ls i = some l) (has : 1 ≤ l.has (.opened pi w))
    {ends} (shut : ends w = false) (other : ∀ w', w' ≠ w → ends w' = s.isOpen pi w')
    (both : ends false = false ∧ ends true = false →
      h = gain (.free pi) (lose (.opened pi w) l.has))
    (one : ¬ (ends false = false ∧ ends true = false) → h = lose (.opened pi w) l.has) :
    Inv (s.setOpen pi ends) (update ls i (some { l with has := h })) := by
  obtain ⟨old, opened⟩ := inv.is_open own has
  have frees : ∀ pi', h (.free pi') = l.has (.free pi') +
      if pi' = pi ∧ ends false = false ∧ ends true = false then 1 else 0 := by
    intro pi'
    by_cases closed : ends false = false ∧ ends true = false
    · simp [both closed, closed, gain_apply, lose_apply]
    · rw [one closed, lose_apply, if_neg (by simp), if_neg (fun h => closed h.2)]
      rfl
  have rest : ∀ t, (∀ pi', t ≠ .free pi') → h t = lose (.opened pi w) l.has t := by
    intro t ne
    by_cases closed : ends false = false ∧ ends true = false
    · rw [both closed, gain_apply, if_neg (ne pi), add_zero]
    · rw [one closed]
  refine inv.pipes own (by rfl) (by rfl) (by rfl) (by rfl) ?_ ?_ ?_
  · intro g
    rw [rest _ (by simp), lose_apply, if_neg (by simp), Nat.sub_zero]
  · intro pi' w'
    rw [rest _ (by simp), lose_apply, supply_setOpen.1]
    by_cases eq : pi' = pi
    · subst eq
      by_cases ew : w' = w
      · subst ew
        have was : supply s (.opened pi' w') = 1 := if_pos ⟨old, opened⟩
        rw [if_pos rfl, if_pos rfl, if_neg (by simp [shut]), was]
        omega
      · rw [if_neg (by simp [ew]), if_pos rfl, other w' ew]
        rfl
    · rw [if_neg (by simp [eq]), if_neg eq]
      rfl
  · intro pi'
    show _ + s.frees pi' + _ = _ + s.frees pi' + _
    rw [frees, supply_setOpen.2]
    by_cases eq : pi' = pi
    · subst eq
      have was : supply s (.free pi') = 0 := by
        refine if_neg fun no => ?_
        cases w with
        | false => exact absurd (opened.symm.trans no.2.1) (by decide)
        | true => exact absurd (opened.symm.trans no.2.2) (by decide)
      simp only [was, old, true_and, if_true]
      omega
    · simp [eq]

theorem kalloc_sound (inv : Inv s ls) (own : ls i = some l) :
    Inv { s.setOpen s.npipes (fun _ => true) with npipes := s.npipes + 1 } (update ls i
      (some { l with has := gain (.opened s.npipes false) (gain (.opened s.npipes true) l.has) }))
        := by
  refine inv.pipes own (by rfl) (by rfl) (by rfl) (by rfl) ?_ ?_ ?_
  · intro g
    simp [gain_apply]
  · intro pi w
    simp only [gain_apply, supply]
    by_cases eq : pi = s.npipes
    · subst eq
      cases w <;> simp [Shared.setOpen]
    · have lt : pi < s.npipes + 1 ↔ pi < s.npipes := by omega
      simp [Shared.setOpen, eq, lt]
  · intro pi
    simp only [gain_apply, supply]
    by_cases eq : pi = s.npipes
    · subst eq
      simp [Shared.setOpen]
    · have lt : pi < s.npipes + 1 ↔ pi < s.npipes := by omega
      simp [Shared.setOpen, eq, lt]

theorem kfree_sound (inv : Inv s ls) (own : ls i = some l) (has : 1 ≤ l.has (.free pi)) :
    Inv { s with frees := update s.frees pi (s.frees pi + 1) } (update ls i
      (some { l with has := lose (.free pi) l.has })) := by
  refine inv.pipes own (by rfl) (by rfl) (by rfl) (by rfl) ?_ ?_ ?_
  · intro g
    simp [lose_apply]
  · intro pi' w
    rfl
  · intro pi'
    show _ + update s.frees pi (s.frees pi + 1) pi' + supply s (.free pi') =
      _ + _ + supply s (.free pi')
    rw [lose_apply]
    by_cases eq : pi' = pi
    · subst eq
      rw [if_pos rfl, update_self]
      omega
    · rw [if_neg (by simp [eq]), update_of_ne eq]
      rfl

/-- The number of descriptors after one is set. -/
theorem slots_update (o : Desc → Option Entry) (fd : Desc) (v : Option Entry) (g : Entry) :
    slots (update o fd v) g + (if o fd = some g then 1 else 0) =
      slots o g + if v = some g then 1 else 0 := by
  have h := count_change (p := fun fd => o fd = some g)
    (q := fun k => update o fd v k = some g) fd fun b hb => by rw [update_of_ne hb]
  simp only [update_self] at h
  exact h

/-- A descriptor of the child. -/
theorem setChild_sound (inv : Inv s ls) (own : ls i = some l) {j : Slot} {o fd}
    (child : l.child = some (j, o)) (empty : o fd = none) (has : 1 ≤ l.has (.ref f)) :
    Inv (s.setFd j fd (some f)) (update ls i (some (l.give j o fd f))) := by
  obtain ⟨used, view⟩ := inv.child i l j o own child
  have dead : ∀ p l0, ls p = some l0 → p ≠ j := by
    rintro p l0 h rfl
    rw [(inv.view p l0 h).2] at used
    cases used
  have ne : i ≠ j := dead i l own
  have idle_j : ls j = none := by
    cases h : ls j with
    | none => rfl
    | some l0 => exact absurd rfl (dead j l0 h)
  have at_j : (s.setFd j fd (some f)).ofile j = update o fd (some f) := by
    rw [← view]
    exact update_self ..
  have off_j : ∀ p, p ≠ j → (s.setFd j fd (some f)).ofile p = s.ofile p := fun p ne =>
    update_of_ne ne ..
  refine inv.next ?_ (fun p l0 _ h => ⟨off_j p (dead p l0 h), rfl⟩) ?_ (fun _ _ _ _ _ _ => rfl) ?_
    ?_ ?_ ?_ inv.untyped inv.panics
  · intro t
    -- first what the process has, then the descriptors of the child
    have first := sum_change (held s ls t) (held s (update ls i (some (l.give j o fd f))) t) i
      fun p np => held_update_of_ne np fun _ => rfl
    have second := sum_change (held s (update ls i (some (l.give j o fd f))) t)
      (held (s.setFd j fd (some f)) (update ls i (some (l.give j o fd f))) t) j fun p np => by
        unfold held
        rw [off_j p np]
    have before : ∀ s1 x, held s1 (update ls i x) t j = idle (s1.ofile j) t := by
      intro s1 x
      unfold held
      rw [update_of_ne ne.symm, idle_j]
    rw [before, before, at_j, view] at second
    rw [held_update_self, held_some own] at first
    rw [show Own.has (l.give j o fd f) t = lose (.ref f) l.has t from rfl] at first
    have change : idle (update o fd (some f)) t + lose (.ref f) l.has t = idle o t + l.has t := by
      rw [lose_apply]
      cases t with
      | ref g =>
        have := slots_update o fd (some f) g
        rw [if_neg (by rw [empty]; simp)] at this
        by_cases eq : g = f
        · subst eq
          rw [if_pos rfl] at this ⊢
          show slots _ g + _ = slots o g + _
          omega
        · rw [if_neg (by simpa using Ne.symm eq)] at this
          rw [if_neg (by simpa using eq)]
          show slots _ g + _ = slots o g + _
          omega
      | opened pi w => rfl
      | free pi => rfl
    have all := inv.balance t
    show _ + kept s t = supply s t
    omega
  · intro p l0 k o' np h hc
    exact ⟨off_j k fun eq => np (inv.apart p i l0 l k o' o h own hc (eq ▸ child)), rfl⟩
  · rintro _ ⟨⟩
    rw [off_j i ne]
    exact inv.view i l own
  · rintro _ k o' ⟨⟩ ⟨⟩
    exact ⟨⟨used, at_j⟩, fun p l0 o' np h hc => np (inv.apart p i l0 l j o' o h own hc child)⟩
  · intro k h
    have apart : k ≠ j := by
      rintro rfl
      obtain h | h := h
      · cases used.symm.trans h
      · cases used.symm.trans h
    rw [off_j k apart]
    exact inv.empty k h
  · rintro _ g ⟨⟩ hg
    have apart : g ≠ f := by
      rintro rfl
      exact not_fresh hg
    rw [show Own.fresh _ g = l.fresh g from update_of_ne apart ..] at hg
    obtain ⟨type, one, hasg⟩ := inv.fresh i l g own hg
    refine ⟨type, one, ?_⟩
    rw [show Own.has _ _ = lose (.ref f) l.has (.ref g) from rfl, lose_apply,
      if_neg (by simpa using apart)]
    exact hasg

/-- Every section keeps the invariant. -/
theorem exec_leaves {o c} (inv : Inv s ls) (own : ls i = some l) (hp : pre i o l) :
    Yields (exec i o c s) (Leaves Inv ls i (post i o l)) := by
  have pos : ∀ f, 1 ≤ l.has (.ref f) → ¬ (s.ftable f).ref < 1 := by
    intro f has zero
    have all := inv.balance (.ref f)
    have part := le_sum (held s ls (.ref f)) i
    rw [held_some own] at part
    have : supply s (.ref f) = (s.ftable f).ref := rfl
    omega
  cases o with
  | ofile fd => exact .some ⟨l, ⟨congrFun (inv.view i l own).1 fd, rfl⟩, inv.stay own⟩
  | setOfile fd v =>
    refine .some ⟨_, rfl, inv.change own (fun p ne => update_of_ne ne ..) ?_ rfl rfl (fun _ => rfl)
      (fun _ => .inl rfl) (fun f => inv.fresh i l f own) inv.untyped rfl⟩
    rw [← (inv.view i l own).1]
    exact update_self ..
  | filealloc =>
    dsimp only [exec]
    split
    · rename_i f found
      have free : (s.ftable f).ref = 0 := by simpa using List.find?_some found
      obtain ⟨none, inv'⟩ := filealloc_sound inv own free
      exact .some ⟨_, ⟨none, rfl⟩, inv'⟩
    · exact .some ⟨l, rfl, inv.stay own⟩
  | filedup f =>
    dsimp only [exec]
    rw [if_neg (pos f hp)]
    exact .some ⟨_, rfl, filedup_sound inv own hp⟩
  | drop f =>
    dsimp only [exec]
    rw [if_neg (pos f hp)]
    split
    · rename_i more
      exact .some ⟨_, rfl, drop_sound inv own hp more⟩
    · rename_i last
      have := pos f hp
      exact .some ⟨_, rfl, drop_last_sound inv own hp (by omega)
        { s.ftable f with ref := (s.ftable f).ref - 1 } rfl rfl rfl (Nat.eq_zero_of_not_pos last)⟩
  | fill f x =>
    cases x with
    | pipe pi w => exact .some ⟨_, rfl, fill_pipe_sound inv own hp.1 hp.2⟩
    | inode ip omode => exact .some ⟨_, rfl, fill_inode_sound inv own hp⟩
  | closeEnd pi w =>
    have shut : update (s.isOpen pi) w false w = false := update_self ..
    have other : ∀ w', w' ≠ w → update (s.isOpen pi) w false w' = s.isOpen pi w' := fun w' ne =>
      update_of_ne ne ..
    by_cases closed : update (s.isOpen pi) w false false = false ∧
        update (s.isOpen pi) w false true = false
    · refine .some ⟨_, ?_,
        closeEnd_sound inv own hp shut other (fun _ => rfl) fun no => absurd closed no⟩
      rw [closed.1, closed.2]
      rfl
    · refine .some ⟨_, ?_, closeEnd_sound inv own hp shut other (fun yes => absurd yes closed)
        fun _ => rfl⟩
      have no : (!update (s.isOpen pi) w false false &&
          !update (s.isOpen pi) w false true) = false := by
        simpa using closed
      rw [no]
      rfl
  | kalloc =>
    dsimp only [exec]
    split
    · exact .some ⟨_, rfl, kalloc_sound inv own⟩
    · exact .some ⟨l, rfl, inv.stay own⟩
  | kfree pi => exact .some ⟨_, rfl, kfree_sound inv own hp⟩
  | inode | iput ip | succeeds | pid j => exact .some ⟨l, rfl, inv.stay own⟩
  | claim j =>
    dsimp only [exec]
    split
    · rename_i unused
      refine .some ⟨_, rfl, inv.restate (j := j) (x := .used) own ⟨rfl, rfl, rfl, rfl, rfl⟩ rfl rfl
        ?_ ?_ rfl rfl rfl ?_ ?_ ?_⟩
      · rw [unused]
        decide
      · intro p l0 o _ h hc
        rw [(inv.child p l0 j o h hc).1] at unused
        cases unused
      · intro k o hc
        cases hc
        exact ⟨update_self .., inv.empty j (.inl unused)⟩
      · intro k o hc
        cases hc
        exact .inl rfl
      · rintro (h | h) <;> cases h
    · exact .some ⟨l, rfl, inv.stay own⟩
  | freeproc j =>
    obtain ⟨used, view⟩ := inv.child i l j _ own hp
    refine .some ⟨_, rfl, inv.restate (j := j) (x := .unused) own ⟨rfl, rfl, rfl, rfl, rfl⟩ rfl rfl
      ?_ ?_ rfl rfl rfl (fun _ _ hc => by cases hc) (fun _ _ hc => by cases hc) fun _ => view⟩
    · rw [used]
      decide
    · intro p l0 o ne h hc
      exact ne (inv.apart p i l0 l j _ _ h own hc hp)
  | setChild j fd f =>
    obtain ⟨has, o, child, empty⟩ := hp
    exact .some ⟨_, ⟨o, child, rfl⟩, setChild_sound inv own child empty has⟩
  | runnable j =>
    obtain ⟨o, child⟩ := hp
    refine .some ⟨_, rfl, inv.restate (j := j) (x := .live) own ⟨rfl, rfl, rfl, rfl, rfl⟩ rfl rfl
      ?_ ?_ rfl rfl rfl (fun _ _ hc => by cases hc) (fun _ _ hc => by cases hc) ?_⟩
    · rw [(inv.child i l j o own child).1]
      decide
    · intro p l0 o' ne h hc
      exact ne (inv.apart p i l0 l j _ _ h own hc child)
    · rintro (h | h) <;> cases h
  | notInit =>
    dsimp only [exec]
    split
    · refine .some (inv.settle own hp.1 ⟨rfl, rfl, rfl, rfl, rfl⟩ (fun _ _ => rfl) ?_ (.inr rfl))
      intro h
      rw [show Shared.state _ i = _ from (inv.view i l own).2] at h
      simp at h
    · exact .some ⟨l, rfl, inv.stay own⟩
  | zombie =>
    exact .some (inv.settle own hp.1.1 ⟨rfl, rfl, rfl, rfl, rfl⟩ (fun p ne => update_of_ne ne ..)
      (fun _ => hp.2) inv.panics)
  | reap j =>
    dsimp only [exec]
    split
    · rename_i zombie
      have apart : ∀ p l0 k o, ls p = some l0 → l0.child = some (k, o) → k ≠ j := by
        rintro p l0 k o h hc rfl
        rw [(inv.child p l0 k o h hc).1] at zombie
        cases zombie
      refine .some ⟨l, rfl, inv.restate (j := j) (x := .unused) own ⟨rfl, rfl, rfl, rfl, rfl⟩ rfl
        rfl ?_ ?_ rfl rfl rfl ?_ (fun _ _ hc => .inr hc) fun _ => inv.empty j (.inr zombie)⟩
      · rw [zombie]
        decide
      · intro p l0 o _ h hc
        exact apart p l0 j o h hc rfl
      · intro k o hc
        rw [update_of_ne (apart i l k o own hc)]
        exact inv.child i l k o own hc
    · exact .some ⟨l, rfl, inv.stay own⟩

end sections
end OsProject.Xv6.OpenFiles
