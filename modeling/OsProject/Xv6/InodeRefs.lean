import OsProject.Xv6.InodeTable

/-! # References and contents in the inode table

What holds in every state of the table, and what a step of one process on one entry has to
keep of it. -/
namespace OsProject.Xv6.InodeTable
open Lib Lib.Transition Lib.Count
open Inode (Dinode ninode)
open Function (update update_of_ne update_self)

variable {np : Nat}

/-- What is known of an entry in use, by what is done with its lock. -/
def Good (x : Node) (d : Dinode) (changed : Bool) : Option Work → Prop
  | none => x.valid = true → x.fields = d ∧ d.type ≠ 0
  | some .client =>
    x.valid = true ∧ x.fields.type ≠ 0 ∧ d.type ≠ 0 ∧ (changed = false → x.fields = d)
  | some .loading | some .written => True
  | some .trunc | some .truncated | some .cleared =>
    x.ref = 1 ∧ x.fields.type ≠ 0 ∧ x.fields.nlink = 0 ∧ d.type ≠ 0 ∧ d.nlink = 0
  | some .zeroed => x.ref = 1 ∧ x.fields.type = 0 ∧ x.fields.nlink = 0 ∧ d.type ≠ 0 ∧ d.nlink = 0

def role (s : Sys np) (i : Entry) : Option Work := (s.lock i).map fun p => workOn i (s.point p)

structure Inv (s : Sys np) : Prop where
  refs : ∀ i, (s.node i).ref = outstanding s i
  single : ∀ i j, 0 < (s.node i).ref → 0 < (s.node j).ref → (s.node i).key = (s.node j).key → i = j
  putter : ∀ p i, puts i (s.point p) = true → 1 ≤ s.holds p i
  locked : ∀ p i w, s.point p = .working i w → s.lock i = some p ∧ w ≠ .client
  used : ∀ i p, uses s i p = true → Kept s i
  content : ∀ i, 0 < (s.node i).ref →
    Good (s.node i) (s.disk (s.node i).key) (s.changed i) (role s i)

section facts
variable {s s' : Sys np} {p q : Fin np} {i j : Entry}

theorem one_le_outstanding (h : 1 ≤ s.holds p i) : 1 ≤ outstanding s i :=
  le_trans h (le_sum (fun p => s.holds p i) p)

theorem Inv.putters_pos (h : puts i (s.point p) = true) : 0 < putters s i := by
  unfold putters count
  exact Finset.card_pos.2 ⟨p, by simpa using h⟩

theorem workOn_client (h : ∀ w, s.point p ≠ .working i w) : workOn i (s.point p) = .client := by
  cases pt : s.point p with
  | working j w =>
    refine if_neg ?_
    rintro rfl
    exact h w pt
  | _ => rfl

/-- Whoever has a lock uses the inode or gives up a reference to it. -/
theorem Inv.lock_ref (inv : Inv s) (h : s.lock i = some p) : 0 < (s.node i).ref := by
  rw [inv.refs i]
  by_cases client : workOn i (s.point p) = .client ∨ workOn i (s.point p) = .loading
  · have used : uses s i p = true := by
      unfold uses
      rw [h]
      simpa using .inr client
    exact Nat.lt_of_le_of_lt zero_le (inv.used i p used)
  · have at_work : puts i (s.point p) = true := by
      rw [not_or] at client
      cases pt : s.point p with
      | working j w =>
        rw [pt] at client
        by_cases eq : j = i
        · subst eq
          simpa [workOn, puts] using client
        · simp [workOn, eq] at client
      | _ =>
        rw [pt] at client
        exact absurd rfl client.1
    exact one_le_outstanding (inv.putter p i at_work)

/-- A process that has the lock for its caller uses the inode. -/
theorem Inv.client_kept (inv : Inv s) (h : s.lock i = some p) (idle : s.point p = .idle) :
    Kept s i := by
  refine inv.used i p ?_
  unfold uses
  rw [h, idle]
  simp [workOn]

end facts

/-! ## One process moves -/

/-- The point has to do with no other inode. -/
def About (i : Entry) : Point → Prop
  | .locking j | .putting j | .dropping j | .working j _ => j = i
  | .idle | .scanning .. | .getting _ => True

structure Moves (s s' : Sys np) (p : Fin np) (i : Entry) : Prop where
  node : ∀ j, j ≠ i → s'.node j = s.node j
  lock : ∀ j q, j ≠ i ∨ q ≠ p → (s'.lock j = some q ↔ s.lock j = some q)
  changed : ∀ j, j ≠ i → s'.changed j = s.changed j
  holds : ∀ q j, j ≠ i ∨ q ≠ p → s'.holds q j = s.holds q j
  point : ∀ q, q ≠ p → s'.point q = s.point q
  old : About i (s.point p)
  new : About i (s'.point p)

section moves
variable {s s' : Sys np} {p q : Fin np} {i j : Entry}

theorem About.puts {pt} (h : About i pt) (ne : j ≠ i) : puts j pt = false := by
  cases pt with
  | putting | dropping | working =>
    obtain rfl := h
    simp [InodeTable.puts, ne.symm]
  | _ => rfl

theorem About.workOn {pt} (h : About i pt) (ne : j ≠ i) : workOn j pt = .client := by
  cases pt with
  | working k w =>
    obtain rfl := h
    exact if_neg ne.symm
  | _ => rfl

theorem About.locking {pt} (h : About i pt) (ne : j ≠ i) : pt ≠ .locking j := by
  rintro rfl
  exact ne h

namespace Moves
variable (m : Moves s s' p i)
include m

theorem lock_eq (ne : j ≠ i) : s'.lock j = s.lock j := Option.ext fun q => m.lock j q (.inl ne)

theorem outstanding_ne (ne : j ≠ i) : outstanding s' j = outstanding s j :=
  Finset.sum_congr rfl fun q _ => m.holds q j (.inl ne)

theorem outstanding_eq : outstanding s' i + s.holds p i = outstanding s i + s'.holds p i :=
  sum_change (fun q => s.holds q i) (fun q => s'.holds q i) p fun q ne => m.holds q i (.inr ne)

theorem putters_ne (ne : j ≠ i) : putters s' j = putters s j := by
  refine count_congr fun q => ?_
  by_cases eq : q = p
  · rw [eq, m.old.puts ne, m.new.puts ne]
  · rw [m.point q eq]

theorem putters_eq : putters s' i + (if puts i (s.point p) = true then 1 else 0) =
    putters s i + if puts i (s'.point p) = true then 1 else 0 := by
  have h := count_change (p := fun q => puts i (s.point q) = true)
    (q := fun q => puts i (s'.point q) = true) p fun q ne => by rw [m.point q ne]
  exact h

theorem uses_eq (ne : j ≠ i ∨ q ≠ p) : uses s' j q = uses s j q := by
  have lock : (s'.lock j = some q) = (s.lock j = some q) := propext (m.lock j q ne)
  unfold uses
  by_cases eq : q = p
  · have nj : j ≠ i := ne.resolve_right (not_not.2 eq)
    subst eq
    simp only [lock, m.old.workOn nj, m.new.workOn nj, m.old.locking nj, m.new.locking nj]
  · simp only [lock, m.point q eq]

theorem role_ne (ne : j ≠ i) : role s' j = role s j := by
  unfold role
  rw [m.lock_eq ne]
  cases h : s.lock j with
  | none => rfl
  | some q =>
    by_cases eq : q = p
    · simp only [Option.map_some, eq, m.old.workOn ne, m.new.workOn ne]
    · simp only [Option.map_some, m.point q eq]

theorem role_eq (lock : s'.lock i = s.lock i)
    (work : workOn i (s'.point p) = workOn i (s.point p)) : role s' i = role s i := by
  unfold role
  rw [lock]
  cases h : s.lock i with
  | none => rfl
  | some q =>
    by_cases eq : q = p
    · simp only [Option.map_some, eq, work]
    · simp only [Option.map_some, m.point q eq]

theorem kept_ne (ne : j ≠ i) (h : Kept s j) : Kept s' j := by
  unfold Kept at h ⊢
  rwa [m.putters_ne ne, m.outstanding_ne ne]

theorem kept (h : Kept s i) (le : (if puts i (s'.point p) = true then 1 else 0) + s.holds p i ≤
    (if puts i (s.point p) = true then 1 else 0) + s'.holds p i) : Kept s' i := by
  have putters := m.putters_eq
  have out := m.outstanding_eq
  unfold Kept at h ⊢
  omega

end Moves

/-- What has to be shown of a step of `p` on the entry `i`. -/
structure Obliged (s s' : Sys np) (p : Fin np) (i : Entry) : Prop where
  refs : (s'.node i).ref + s.holds p i = (s.node i).ref + s'.holds p i
  single : ∀ j, j ≠ i → 0 < (s'.node i).ref → 0 < (s.node j).ref → (s'.node i).key ≠ (s.node j).key
  putter : puts i (s'.point p) = true → 1 ≤ s'.holds p i
  locked : ∀ w, s'.point p = .working i w → s'.lock i = some p ∧ w ≠ .client
  used : (uses s' i p = true ∨ ∃ q, q ≠ p ∧ uses s i q = true) → Kept s' i
  content : 0 < (s'.node i).ref →
    Good (s'.node i) (s'.disk (s'.node i).key) (s'.changed i) (role s' i)

theorem Inv.move (inv : Inv s) (m : Moves s s' p i) (o : Obliged s s' p i)
    (content : ∀ j, j ≠ i → 0 < (s.node j).ref →
      Good (s.node j) (s'.disk (s.node j).key) (s.changed j) (role s j)) : Inv s' where
  refs := by
    intro j
    by_cases eq : j = i
    · subst eq
      have old := inv.refs j
      have sum := m.outstanding_eq
      have new := o.refs
      omega
    · rw [m.node j eq, m.outstanding_ne eq]
      exact inv.refs j
  single := by
    intro j k hj hk same
    by_cases ej : j = i <;> by_cases ek : k = i
    · rw [ej, ek]
    · subst ej
      rw [m.node k ek] at hk same
      exact absurd same (o.single k ek hj hk)
    · subst ek
      rw [m.node j ej] at hj same
      exact absurd same.symm (o.single j ej hk hj)
    · rw [m.node j ej] at hj same
      rw [m.node k ek] at hk same
      exact inv.single j k hj hk same
  putter := by
    intro q j h
    by_cases eq : q = p
    · subst eq
      by_cases ej : j = i
      · subst ej
        exact o.putter h
      · rw [m.new.puts ej] at h
        cases h
    · rw [m.point q eq] at h
      rw [m.holds q j (.inr eq)]
      exact inv.putter q j h
  locked := by
    intro q j w h
    by_cases eq : q = p
    · subst eq
      have new := m.new
      rw [h] at new
      obtain rfl : j = i := new
      exact o.locked w h
    · rw [m.point q eq] at h
      obtain ⟨lock, at_work⟩ := inv.locked q j w h
      exact ⟨(m.lock j q (.inr eq)).2 lock, at_work⟩
  used := by
    intro j q h
    by_cases ej : j = i
    · subst ej
      by_cases eq : q = p
      · subst eq
        exact o.used (.inl h)
      · rw [m.uses_eq (.inr eq)] at h
        exact o.used (.inr ⟨q, eq, h⟩)
    · rw [m.uses_eq (.inl ej)] at h
      exact m.kept_ne ej (inv.used j q h)
  content := by
    intro j hj
    by_cases ej : j = i
    · subst ej
      exact o.content hj
    · rw [m.node j ej] at hj ⊢
      rw [m.changed j ej, m.role_ne ej]
      exact content j ej hj

end moves

/-! ## The steps -/

section steps
variable {s s' : Sys np} {p q : Fin np} {i j : Entry} {k : Key}

@[simp] theorem goto_self {pt} : (s.goto p pt).point p = pt := update_self ..

@[simp] theorem setNode_self {x} : (s.setNode i x).node i = x := update_self ..

@[simp] theorem setHolds_self {n} : (s.setHolds p i n).holds p i = n := by
  show update s.holds p (update (s.holds p) i n) p i = n
  rw [update_self, update_self]

theorem setHolds_of_ne {n} (ne : j ≠ i ∨ q ≠ p) : (s.setHolds p i n).holds q j = s.holds q j := by
  show update s.holds p (update (s.holds p) i n) q j = _
  by_cases eq : q = p
  · subst eq
    rw [update_self, update_of_ne (ne.resolve_right (not_not.2 rfl))]
  · rw [update_of_ne eq]

theorem setLock_iff {x} (other : ∀ q, q ≠ p → (x = some q ↔ s.lock i = some q))
    (ne : j ≠ i ∨ q ≠ p) : (s.setLock i x).lock j = some q ↔ s.lock j = some q := by
  show update s.lock i x j = some q ↔ _
  by_cases eq : j = i
  · subst eq
    rw [update_self]
    exact other q (ne.resolve_left (not_not.2 rfl))
  · rw [update_of_ne eq]

/-- Another change of the entry at the same step. -/
theorem Moves.setNode {x} (m : Moves s s' p i) : Moves s (s'.setNode i x) p i :=
  { m with node := fun j ne => (update_of_ne ne ..).trans (m.node j ne) }

theorem Moves.stay (old : About i (s.point p)) : Moves s s p i where
  node _ _ := rfl
  lock _ _ _ := .rfl
  changed _ _ := rfl
  holds _ _ _ := rfl
  point _ _ := rfl
  old := old
  new := old

variable (m : Moves s s' p i)
include m

theorem Moves.setHolds {n} : Moves s (s'.setHolds p i n) p i :=
  { m with holds := fun q j ne => (setHolds_of_ne ne).trans (m.holds q j ne) }

theorem Moves.goes {pt} (new : About i pt) : Moves s (s'.goto p pt) p i :=
  { m with
    point := fun q ne => (update_of_ne ne ..).trans (m.point q ne)
    new := by rwa [goto_self] }

theorem Moves.setLock {x}
    (other : ∀ q, q ≠ p → (x = some q ↔ s'.lock i = some q)) : Moves s (s'.setLock i x) p i :=
  { m with lock := fun j q ne => (setLock_iff other ne).trans (m.lock j q ne) }

theorem Moves.setChanged {b} : Moves s (s'.setChanged i b) p i :=
  { m with changed := fun j ne => (update_of_ne ne ..).trans (m.changed j ne) }

theorem Moves.setDisk {d} : Moves s (s'.setDisk k d) p i := { m with }

theorem Moves.iupdate : Moves s (iupdate s' i) p i := m.setDisk.setChanged

omit m

/-- A step that leaves the disk alone. -/
theorem Inv.quiet (inv : Inv s) (m : Moves s s' p i) (o : Obliged s s' p i)
    (disk : s'.disk = s.disk) : Inv s' := by
  refine inv.move m o ?_
  intro j _ hj
  rw [disk]
  exact inv.content j hj

/-- A step that writes the inode of the entry `i`. -/
theorem Inv.write (inv : Inv s) (m : Moves s s' p i) (o : Obliged s s' p i)
    (pos : 0 < (s.node i).ref)
    (disk : ∀ k, k ≠ (s.node i).key → s'.disk k = s.disk k) : Inv s' := by
  refine inv.move m o ?_
  intro j ne hj
  have apart : (s.node j).key ≠ (s.node i).key := fun same => ne (inv.single j i hj pos same)
  rw [disk _ apart]
  exact inv.content j hj

/-- A step that changes no reference and makes the process no putter. -/
theorem Obliged.calm (inv : Inv s) (m : Moves s s' p i) (key : (s'.node i).key = (s.node i).key)
    (ref : (s'.node i).ref = (s.node i).ref) (holds : s'.holds p i = s.holds p i)
    (put : puts i (s'.point p) = true → puts i (s.point p) = true)
    (locked : ∀ w, s'.point p = .working i w → s'.lock i = some p ∧ w ≠ .client)
    (mine : uses s' i p = true → Kept s i) (content : 0 < (s.node i).ref →
      Good (s'.node i) (s'.disk (s.node i).key) (s'.changed i) (role s' i)) : Obliged s s' p i := by
  have kept : Kept s i → Kept s' i := by
    intro h
    refine m.kept h ?_
    rw [holds]
    by_cases hp : puts i (s'.point p) = true
    · rw [if_pos hp, if_pos (put hp)]
    · rw [if_neg hp]
      omega
  refine ⟨?_, ?_, ?_, locked, ?_, ?_⟩
  · rw [ref, holds]
  · intro j ne hi hj same
    rw [ref] at hi
    rw [key] at same
    exact ne (inv.single j i hj hi same.symm)
  · intro h
    rw [holds]
    exact inv.putter p i (put h)
  · rintro (h | ⟨q, _, h⟩)
    · exact kept (mine h)
    · exact kept (inv.used i q h)
  · rw [key, ref]
    exact content

/-- The process stays with what it has of the inode. -/
theorem uses_stay (lock : s'.lock i = s.lock i) (old : workOn i (s.point p) = .client)
    (new : s'.point p ≠ .locking i) (h : uses s' i p = true) : uses s i p = true := by
  unfold uses at h ⊢
  rw [lock] at h
  simp only [new, decide_false, Bool.false_or, Bool.and_eq_true] at h
  rw [old]
  simp only [h.1, Bool.true_and, decide_true, Bool.true_or, Bool.or_true]

/-- A step of a process that works on no inode, before or after. -/
theorem Obliged.client (inv : Inv s) (m : Moves s s' p i) (lock : s'.lock i = s.lock i)
    (old : workOn i (s.point p) = .client) (out : ∀ w, s'.point p ≠ .working i w)
    (away : s'.point p ≠ .locking i)
    (key : (s'.node i).key = (s.node i).key) (pos : 0 < (s'.node i).ref → 0 < (s.node i).ref)
    (refs : (s'.node i).ref + s.holds p i = (s.node i).ref + s'.holds p i)
    (putter : puts i (s'.point p) = true → 1 ≤ s'.holds p i)
    (kept : ∀ q, uses s i q = true → Kept s' i)
    (content : 0 < (s'.node i).ref →
      Good (s'.node i) (s'.disk (s.node i).key) (s'.changed i) (role s i)) :
    Obliged s s' p i := by
  refine ⟨refs, ?_, putter, fun w h => absurd h (out w), ?_, ?_⟩
  · intro j ne hi hj same
    exact ne (inv.single j i hj (pos hi) (same.symm.trans key))
  · rintro (h | ⟨q, _, h⟩)
    · exact kept p (uses_stay lock old away h)
    · exact kept q h
  · rw [key, m.role_eq lock ((workOn_client out).trans old.symm)]
    exact content

theorem role_none (h : s.lock i = none) : role s i = none := by
  unfold role
  rw [h]
  rfl

theorem role_some {pt} (h : s.lock i = some p) (eq : s.point p = pt) :
    role s i = some (workOn i pt) := by
  unfold role
  rw [h, ← eq]
  rfl

theorem workOn_working {w} : workOn i (.working i w) = w := if_pos rfl

theorem about_idle (h : s.point p = .idle) : About i (s.point p) := by
  rw [h]
  trivial

theorem about_working {w} (h : s.point p = .working i w) : About i (s.point p) := by
  rw [h]
  rfl

end steps
end OsProject.Xv6.InodeTable
