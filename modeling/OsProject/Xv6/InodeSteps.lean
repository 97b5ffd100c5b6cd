import OsProject.Lib.Outcome
import OsProject.Xv6.InodeRefs

/-! # The inode table over whole runs

`iput` tests `ref == 1` under `itable.lock` and lets go of it before it truncates and frees
the inode. The table keeps what it promises as long as no `iget` comes in between. -/
namespace OsProject.Xv6.InodeTable
open Lib Lib.Transition Lib.Count Lib.Outcome
open Inode (Dinode ninode)
open Function (update update_of_ne update_self update_eq_self)
open Option (ite_none_left_eq_some)

variable {np : Nat} {s s' : Sys np} {p q : Fin np} {i j : Entry} {k : Key}

/-! ## The lock and the fields -/

variable {pt : Point} {w v : Work} {x : Node} {d : Dinode} {c : Bool} {r : Option Work}
  {ninodes : UInt32} {a : Act np}

/-- A step on an inode that is kept, in which no reference changes hands. -/
theorem Inv.use (inv : Inv s) (kept : Kept s i) (m : Moves s s' p i) (point : s'.point p = pt)
    (put : puts i pt = false) (locked : ∀ w, pt = .working i w → s'.lock i = some p ∧ w ≠ .client)
    (key : (s'.node i).key = (s.node i).key) (ref : (s'.node i).ref = (s.node i).ref)
    (holds : s'.holds p i = s.holds p i) (disk : s'.disk = s.disk)
    (content : 0 < (s.node i).ref →
      Good (s'.node i) (s.disk (s.node i).key) (s'.changed i) (role s' i)) :
    Inv s' := by
  subst point
  refine inv.quiet m (.calm inv m key ref holds (by simp [put]) locked (fun _ => kept) ?_) disk
  rw [disk]
  exact content

theorem ilock_inv (inv : Inv s) (idle : s.point p = .idle) (kept : Kept s i) :
    Inv (s.goto p (.locking i)) := by
  have m : Moves s (s.goto p (.locking i)) p i := (Moves.stay (about_idle idle)).goes rfl
  refine inv.use kept m goto_self rfl (by simp) rfl rfl rfl rfl ?_
  intro pos
  rw [m.role_eq rfl (by rw [goto_self, idle]; rfl)]
  exact inv.content i pos

theorem free_setLock (free : s.lock i = none) :
    ∀ q, q ≠ p → (some p = some q ↔ s.lock i = some q) := by
  intro q ne
  rw [free]
  exact iff_of_false (fun h => ne (Option.some.inj h).symm) (by simp)

theorem held_setLock (held : s.lock i = some p) :
    ∀ q, q ≠ p → (none = some q ↔ s.lock i = some q) := by
  intro q ne
  rw [held]
  exact iff_of_false (by simp) fun h => ne (Option.some.inj h).symm

/-- `ilock` gets the lock of an inode that has been read. -/
theorem locked_inv (inv : Inv s) (pt : s.point p = .locking i) (free : s.lock i = none)
    (valid : (s.node i).valid = true) :
    Inv (((s.setLock i (some p)).setChanged i false).goto p .idle) := by
  have kept : Kept s i := inv.used i p (by simp [uses, pt])
  refine inv.use kept
    (((Moves.stay (by rw [pt]; rfl)).setLock (free_setLock free)).setChanged.goes trivial) goto_self
    rfl (by simp) rfl rfl rfl rfl ?_
  intro pos
  have old := inv.content i pos
  rw [role_none free] at old
  obtain ⟨same, type⟩ := old valid
  rw [role_some (update_self ..) goto_self]
  exact ⟨valid, same ▸ type, type, fun _ => same⟩

theorem working_locked (lock : s.lock i = some p) (work : w ≠ .client)
    (h : Point.working i w = .working i v) : s.lock i = some p ∧ v ≠ .client := by
  obtain ⟨_, rfl⟩ := Point.working.inj h
  exact ⟨lock, work⟩

/-- `ilock` gets the lock and has to read the inode. -/
theorem to_load_inv (inv : Inv s) (pt : s.point p = .locking i) (free : s.lock i = none) :
    Inv (((s.setLock i (some p)).setChanged i false).goto p (.working i .loading)) := by
  have kept : Kept s i := inv.used i p (by simp [uses, pt])
  have lock : (((s.setLock i (some p)).setChanged i false).goto p (.working i .loading)).lock i =
      some p := update_self ..
  refine inv.use kept
    (((Moves.stay (by rw [pt]; rfl)).setLock (free_setLock free)).setChanged.goes rfl) goto_self
    (by simp [puts]) (fun w => working_locked lock (by decide)) rfl rfl rfl rfl ?_
  intro _
  rw [role_some lock goto_self, workOn_working]
  trivial

/-- `ilock` reads the inode. -/
theorem loaded_inv (inv : Inv s) (pt : s.point p = .working i .loading)
    (type : (s.disk (s.node i).key).type ≠ 0)
    (eq : s' = ((s.setNode i { s.node i with
      fields := s.disk (s.node i).key, valid := true }).setChanged i false).goto p .idle) :
    Inv s' := by
  have lock : s.lock i = some p := (inv.locked p i _ pt).1
  have kept : Kept s i := inv.used i p (by simp [uses, pt, lock, workOn])
  have m : Moves s s' p i := eq ▸ (Moves.stay (about_working pt)).setNode.setChanged.goes trivial
  have node : s'.node i = { s.node i with fields := s.disk (s.node i).key, valid := true } :=
    eq ▸ setNode_self
  have point : s'.point p = .idle := eq ▸ goto_self
  have lock' : s'.lock i = some p := eq ▸ lock
  subst eq
  refine inv.use kept m point rfl (by simp) (by rw [node]) (by rw [node]) rfl rfl ?_
  intro _
  rw [node, role_some lock' point]
  exact ⟨rfl, type, type, fun _ => rfl⟩

theorem iunlock_inv (inv : Inv s) (idle : s.point p = .idle) (lock : s.lock i = some p)
    (same : s.changed i = false) : Inv (s.setLock i none) := by
  refine inv.use (inv.client_kept lock idle)
    ((Moves.stay (about_idle idle)).setLock (held_setLock lock)) idle rfl (by simp) rfl
    rfl rfl rfl ?_
  intro pos
  have old := inv.content i pos
  rw [role_some lock idle] at old
  rw [role_none (update_self ..)]
  exact fun _ => ⟨old.2.2.2 same, old.2.2.1⟩

/-- The holder of the lock changes the fields. -/
theorem change_inv (inv : Inv s) (idle : s.point p = .idle) (lock : s.lock i = some p) {x}
    (type : x.type ≠ 0) (eq : s' = (s.setFields i x).setChanged i true) : Inv s' := by
  have m : Moves s s' p i := eq ▸ (Moves.stay (about_idle idle)).setNode.setChanged
  have node : s'.node i = { s.node i with fields := x } := eq ▸ setNode_self
  have changed : s'.changed i = true := eq ▸ update_self ..
  have client : role s' i = some .client := eq ▸ role_some lock idle
  subst eq
  refine inv.use (inv.client_kept lock idle) m idle rfl (by simp) (by rw [node])
    (by rw [node]) rfl rfl ?_
  intro pos
  have old := inv.content i pos
  rw [role_some lock idle] at old
  rw [node, client, changed]
  exact ⟨old.1, type, old.2.2.1, fun h => by cases h⟩

/-! ## Freeing an inode -/

theorem iupdate_here : (iupdate s i).disk (s.node i).key = (s.node i).fields := update_self ..

theorem iupdate_else (ne : k ≠ (s.node i).key) : (iupdate s i).disk k = s.disk k :=
  update_of_ne ne ..

/-- The holder of the lock writes the inode back. -/
theorem iupdate_inv (inv : Inv s) (idle : s.point p = .idle) (lock : s.lock i = some p) :
    Inv (iupdate s i) := by
  have kept := inv.client_kept lock idle
  have pos := inv.lock_ref lock
  have m : Moves s (iupdate s i) p i := (Moves.stay (about_idle idle)).iupdate
  have point : (iupdate s i).point p = .idle := idle
  obtain ⟨valid, type, _⟩ : Good (s.node i) (s.disk (s.node i).key) (s.changed i)
      (some .client) := by
    have old := inv.content i pos
    rwa [role_some lock idle] at old
  refine inv.write m (.calm inv m rfl rfl rfl (by simp [point, puts]) (by simp [point])
    (fun _ => kept) ?_) pos (fun _ => iupdate_else)
  intro _
  rw [role_some (s := iupdate s i) lock point, iupdate_here]
  exact ⟨valid, type, type, fun _ => rfl⟩

/-- A stage of `iput` that has the inode to free in its hands. -/
theorem Inv.stage (inv : Inv s) (pt : s.point p = .working i w) :
    s.lock i = some p ∧ 0 < (s.node i).ref ∧
      Good (s.node i) (s.disk (s.node i).key) (s.changed i) (some w) := by
  have lock := (inv.locked p i w pt).1
  have pos := inv.lock_ref lock
  have old := inv.content i pos
  rw [role_some lock pt, workOn_working] at old
  exact ⟨lock, pos, old⟩

theorem not_uses (pt : s.point p = .working i w) (client : w ≠ .client) (load : w ≠ .loading) :
    uses s i p = false := by
  simp [uses, pt, workOn, client, load]

/-- The next stage of `iput`, when it changes the fields. -/
theorem stage_inv (inv : Inv s) {x} (pt : s.point p = .working i w)
    (old : puts i (.working i w) = true) (new : puts i (.working i v) = true)
    (content : Good { s.node i with fields := x } (s.disk (s.node i).key) (s.changed i) (some v))
    (eq : s' = (s.setFields i x).goto p (.working i v)) : Inv s' := by
  obtain ⟨lock, _, _⟩ := inv.stage pt
  have m : Moves s s' p i := eq ▸ (Moves.stay (about_working pt)).setNode.goes rfl
  have node : s'.node i = { s.node i with fields := x } := eq ▸ setNode_self
  have point : s'.point p = .working i v := eq ▸ goto_self
  have lock' : s'.lock i = some p := eq ▸ lock
  subst eq
  obtain ⟨client, load⟩ : v ≠ .client ∧ v ≠ .loading := by simpa [puts] using new
  refine inv.quiet m (.calm inv m (by rw [node]) (by rw [node]) rfl ?_ ?_ ?_ ?_) rfl
  · rw [pt]
    exact fun _ => old
  · rw [point]
    exact fun _ => working_locked lock client
  · rw [not_uses point client load]
    rintro ⟨⟩
  · intro _
    rw [node, role_some lock' point, workOn_working]
    exact content

/-- The next stage of `iput`, when it writes the inode. -/
theorem stage_write_inv (inv : Inv s) (pt : s.point p = .working i w)
    (old : puts i (.working i w) = true) (new : puts i (.working i v) = true)
    (content : Good (s.node i) (s.node i).fields false (some v)) :
    Inv ((iupdate s i).goto p (.working i v)) := by
  obtain ⟨lock, pos, _⟩ := inv.stage pt
  have m : Moves s ((iupdate s i).goto p (.working i v)) p i :=
    (Moves.stay (about_working pt)).iupdate.goes rfl
  obtain ⟨client, load⟩ : v ≠ .client ∧ v ≠ .loading := by simpa [puts] using new
  refine inv.write m (.calm inv m rfl rfl rfl ?_ ?_ ?_ ?_) pos fun _ => iupdate_else
  · rw [pt]
    exact fun _ => old
  · rw [goto_self]
    exact fun _ => working_locked lock client
  · rw [not_uses goto_self client load]
    exact fun h => by cases h
  · intro _
    rw [role_some (s := (iupdate s i).goto p (.working i v)) lock goto_self, workOn_working]
    show Good (s.node i) ((iupdate s i).disk (s.node i).key) (update s.changed i false i) _
    rw [iupdate_here, update_self]
    exact content

/-- `iput` finds that it has to free the inode. -/
theorem to_free_inv (inv : Inv s) (pt : s.point p = .putting i) (free : s.lock i = none)
    (one : (s.node i).ref = 1) (valid : (s.node i).valid = true)
    (nlink : (s.node i).fields.nlink = 0) :
    Inv ((s.setLock i (some p)).goto p (.working i .trunc)) := by
  have put : puts i (s.point p) = true := by simp [pt, puts]
  have m : Moves s ((s.setLock i (some p)).goto p (.working i .trunc)) p i :=
    ((Moves.stay (by rw [pt]; rfl)).setLock (free_setLock free)).goes rfl
  have lock : ((s.setLock i (some p)).goto p (.working i .trunc)).lock i = some p := update_self ..
  refine inv.quiet m (.calm inv m rfl rfl rfl (fun _ => put) ?_ ?_ ?_) rfl
  · rw [goto_self]
    exact fun _ => working_locked lock (by decide)
  · rw [not_uses goto_self (by decide) (by decide)]
    exact fun h => by cases h
  · intro pos
    have old := inv.content i pos
    rw [role_none free] at old
    obtain ⟨same, type⟩ := old valid
    rw [role_some lock goto_self, workOn_working]
    exact ⟨one, same ▸ type, nlink, type, same ▸ nlink⟩

/-- `iput` lets go of the lock of the inode it has freed. -/
theorem freed_inv (inv : Inv s) (pt : s.point p = .working i .written)
    (eq : s' = ((s.setNode i { s.node i with valid := false }).setLock i none).goto p
      (.dropping i)) :
    Inv s' := by
  obtain ⟨lock, _, _⟩ := inv.stage pt
  have m : Moves s s' p i :=
    eq ▸ ((Moves.stay (about_working pt)).setNode.setLock (held_setLock lock)).goes rfl
  have node : s'.node i = { s.node i with valid := false } := eq ▸ setNode_self
  have point : s'.point p = .dropping i := eq ▸ goto_self
  have lock' : s'.lock i = none := eq ▸ update_self ..
  subst eq
  refine inv.quiet m (.calm inv m (by rw [node]) (by rw [node]) rfl (by simp [pt, puts]) (by simp)
    (by simp [uses, lock']) ?_) rfl
  intro _
  rw [node, role_none lock']
  rintro ⟨⟩

/-! ## References -/

/-- `iput` has made its test and the inode is not free yet. -/
def freeing : Work → Bool
  | .trunc | .truncated | .cleared | .zeroed => true
  | .client | .loading | .written => false

def Freeing (r : Option Work) : Prop := r.any freeing = true

theorem Good.one (h : Good x d c r) (f : Freeing r) : x.ref = 1 := by
  cases r with
  | none => cases f
  | some w =>
    cases w with
    | client | loading | written => cases f
    | trunc | truncated | cleared | zeroed => exact h.1

/-- The count matters only to the `iput` that frees the inode. -/
theorem Good.recount (n : Nat) (h : Good x d c r) (f : ¬ Freeing r) :
    Good { x with ref := n } d c r := by
  cases r with
  | none => exact h
  | some w =>
    cases w with
    | client | loading | written => exact h
    | trunc | truncated | cleared | zeroed => exact absurd rfl f

theorem freeing_point (f : Freeing (role s i)) :
    ∃ q w, s.point q = .working i w ∧ freeing w = true := by
  cases lock : s.lock i with
  | none =>
    rw [role_none lock] at f
    cases f
  | some q =>
    rw [role_some lock rfl] at f
    refine ⟨q, ?_⟩
    cases pt : s.point q with
    | working j w =>
      rw [pt] at f
      by_cases eq : j = i
      · subst eq
        rw [workOn_working] at f
        exact ⟨w, rfl, f⟩
      · rw [show workOn i (.working j w) = .client from if_neg eq] at f
        cases f
    | _ =>
      rw [pt] at f
      cases f

theorem freeing_put (f : Freeing (role s i)) : ∃ q, puts i (s.point q) = true := by
  obtain ⟨q, w, pt, f⟩ := freeing_point f
  refine ⟨q, ?_⟩
  rw [pt]
  cases w with
  | trunc | truncated | cleared | zeroed => simp [puts]
  | client | loading | written => cases f

theorem Kept.not_freeing (inv : Inv s) (kept : Kept s i) : ¬ Freeing (role s i) := by
  intro f
  obtain ⟨q, put⟩ := freeing_put f
  have some_putter := Inv.putters_pos put
  unfold Kept at kept
  have one := (inv.content i (by rw [inv.refs i]; omega)).one f
  rw [inv.refs i] at one
  omega

/-- The point has to do with no entry. -/
def Apart : Point → Prop
  | .idle | .scanning .. | .getting _ => True
  | .locking _ | .putting _ | .dropping _ | .working .. => False

theorem Apart.outside (h : Apart pt) (i : Entry) :
    About i pt ∧ workOn i pt = .client ∧ puts i pt = false ∧ pt ≠ .locking i ∧
      ∀ w, pt ≠ .working i w := by
  cases pt with
  | idle | scanning | getting => exact ⟨trivial, rfl, rfl, by simp, by simp⟩
  | locking | putting | dropping | working => exact h.elim

/-- The process takes one more reference to an entry in use. -/
theorem take_inv (inv : Inv s) (old : Apart (s.point p)) (pos : 0 < (s.node i).ref)
    (freeing : ¬ Freeing (role s i))
    (eq : s' = ((s.setNode i { s.node i with ref := (s.node i).ref + 1 }).setHolds p i
      (s.holds p i + 1)).goto p .idle) : Inv s' := by
  obtain ⟨about, outside, put, _⟩ := old.outside i
  have m : Moves s s' p i := eq ▸ (Moves.stay about).setNode.setHolds.goes trivial
  have node : s'.node i = { s.node i with ref := (s.node i).ref + 1 } := eq ▸ setNode_self
  have point : s'.point p = .idle := eq ▸ goto_self
  have holds : s'.holds p i = s.holds p i + 1 := eq ▸ setHolds_self
  subst eq
  refine inv.quiet m (.client inv m rfl outside (by simp) (by simp) (by rw [node]) (fun _ => pos)
    ?_ (by simp [puts]) ?_ ?_) rfl
  · rw [node, holds]
    show (s.node i).ref + 1 + _ = _
    omega
  · intro q h
    refine m.kept (inv.used i q h) ?_
    rw [holds, point, put]
    exact Nat.le_succ _
  · intro _
    rw [node]
    exact (inv.content i pos).recount _ freeing

/-- An entry that is not in use has no lock and no user. -/
theorem Inv.unused (inv : Inv s) (zero : (s.node i).ref = 0) :
    s.lock i = none ∧ ∀ q, uses s i q = false := by
  have out : outstanding s i = 0 := by rw [← inv.refs i, zero]
  refine ⟨?_, ?_⟩
  · cases lock : s.lock i with
    | none => rfl
    | some q => exact absurd (inv.lock_ref lock) (by omega)
  · intro q
    by_contra h
    have kept := inv.used i q (by simpa using h)
    unfold Kept at kept
    omega

/-- `iget` recycles an entry. -/
theorem recycle_inv (inv : Inv s) (old : Apart (s.point p))
    (zero : (s.node i).ref = 0) (fresh : ∀ j, 0 < (s.node j).ref → (s.node j).key ≠ k)
    (eq : s' = ((s.setNode i { s.node i with key := k, ref := 1, valid := false }).setHolds p i
      (s.holds p i + 1)).goto p .idle) : Inv s' := by
  obtain ⟨lock, users⟩ := inv.unused zero
  have m : Moves s s' p i := eq ▸ (Moves.stay (old.outside i).1).setNode.setHolds.goes trivial
  have node : s'.node i = { s.node i with key := k, ref := 1, valid := false } := eq ▸ setNode_self
  have point : s'.point p = .idle := eq ▸ goto_self
  have holds : s'.holds p i = s.holds p i + 1 := eq ▸ setHolds_self
  have lock' : s'.lock i = none := eq ▸ lock
  subst eq
  refine inv.quiet m ⟨?_, ?_, by simp [puts], by simp, ?_, ?_⟩ rfl
  · rw [node, holds, zero]
    show 1 + _ = _
    omega
  · intro j _ _ hj same
    rw [node] at same
    exact fresh j hj same.symm
  · rintro (h | ⟨q, _, h⟩)
    · simp [uses, lock'] at h
    · rw [users q] at h
      cases h
  · intro _
    rw [node, role_none lock']
    rintro ⟨⟩

/-- `iput` gives the reference up. -/
theorem drop_inv (inv : Inv s) (pt : s.point p = .putting i ∨ s.point p = .dropping i)
    (eq : s' = (drop s p i).goto p .idle) : Inv s' := by
  obtain ⟨put, outside, about⟩ : puts i (s.point p) = true ∧ workOn i (s.point p) = .client ∧
      About i (s.point p) := by
    obtain pt | pt := pt
    · rw [pt]
      exact ⟨decide_eq_true rfl, rfl, rfl⟩
    · rw [pt]
      exact ⟨decide_eq_true rfl, rfl, rfl⟩
  have held := inv.putter p i put
  have pos : 0 < (s.node i).ref := by
    rw [inv.refs i]
    exact one_le_outstanding held
  have m : Moves s s' p i := eq ▸ (Moves.stay about).setNode.setHolds.goes trivial
  have node : s'.node i = { s.node i with ref := (s.node i).ref - 1 } := eq ▸ setNode_self
  have point : s'.point p = .idle := eq ▸ goto_self
  have holds : s'.holds p i = s.holds p i - 1 := eq ▸ setHolds_self
  subst eq
  refine inv.quiet m (.client inv m rfl outside (by simp) (by simp) (by rw [node]) (fun _ => pos)
    ?_ (by simp [puts]) ?_ ?_) rfl
  · rw [node, holds]
    show (s.node i).ref - 1 + _ = _
    omega
  · intro q h
    refine m.kept (inv.used i q h) ?_
    rw [holds, point, if_pos put, if_neg (by simp [puts])]
    omega
  · rw [node]
    intro two
    have old := inv.content i pos
    refine old.recount _ fun f => ?_
    rw [show Node.ref _ = _ from old.one f] at two
    cases two

/-- `iput` is called. -/
theorem iput_inv (inv : Inv s) (idle : s.point p = .idle) (may : MayPut s p i) :
    Inv (s.goto p (.putting i)) := by
  have m : Moves s (s.goto p (.putting i)) p i := (Moves.stay (about_idle idle)).goes rfl
  refine inv.quiet m (.client inv m rfl (by rw [idle]; rfl) (by simp) (by simp) rfl id rfl
    (fun _ => may.1) ?_ (inv.content i)) rfl
  intro q h
  have putters := m.putters_eq
  have out := m.outstanding_eq
  have kept := may.2 ⟨q, h⟩
  rw [goto_self, idle, if_neg (by simp [puts]), if_pos (by simp [puts])] at putters
  have same : (s.goto p (.putting i)).holds p i = s.holds p i := rfl
  unfold Kept
  omega

theorem outstanding_setHolds (s : Sys np) (p : Fin np) (i : Entry) (n : Nat) :
    outstanding (s.setHolds p i n) i + s.holds p i = outstanding s i + n := by
  have h := sum_change (fun q => s.holds q i) (fun q => (s.setHolds p i n).holds q i) p
    fun q ne => setHolds_of_ne (.inr ne)
  rw [setHolds_self] at h
  exact h

theorem outstanding_setHolds_ne {n} (ne : j ≠ i) :
    outstanding (s.setHolds p i n) j = outstanding s j :=
  Finset.sum_congr rfl fun _ _ => setHolds_of_ne (.inl ne)

/-- One process hands a reference to another. -/
theorem pass_inv (inv : Inv s) (idle : s.point p = .idle) (held : 1 ≤ s.holds p i) {t}
    (first : t = s.setHolds p i (s.holds p i - 1)) (eq : s' = t.setHolds q i (t.holds q i + 1)) :
    Inv s' := by
  have node : s'.node = s.node := by rw [eq, first]; rfl
  have point : s'.point = s.point := by rw [eq, first]; rfl
  have lock : s'.lock = s.lock := by rw [eq, first]; rfl
  have disk : s'.disk = s.disk := by rw [eq, first]; rfl
  have changed : s'.changed = s.changed := by rw [eq, first]; rfl
  have out : ∀ j, outstanding s' j = outstanding s j := by
    intro j
    by_cases ej : j = i
    · subst ej
      have taken := outstanding_setHolds s p j (s.holds p j - 1)
      have given := outstanding_setHolds t q j (t.holds q j + 1)
      rw [← first] at taken
      rw [← eq] at given
      omega
    · rw [eq, outstanding_setHolds_ne ej, first, outstanding_setHolds_ne ej]
  have more : ∀ r j, puts j (s.point r) = true → s.holds r j ≤ s'.holds r j := by
    intro r j put
    have ne : r ≠ p := by
      rintro rfl
      rw [idle] at put
      cases put
    have kept : t.holds r j = s.holds r j := by
      rw [first]
      exact setHolds_of_ne (.inr ne)
    rw [← kept, eq]
    by_cases both : j ≠ i ∨ r ≠ q
    · exact le_of_eq (setHolds_of_ne both).symm
    · obtain ⟨rfl, rfl⟩ : j = i ∧ r = q := by simpa using both
      rw [setHolds_self]
      omega
  have keeps : ∀ j, Kept s j → Kept s' j := by
    intro j h
    unfold Kept putters at h ⊢
    rw [out j, point]
    exact h
  have uses_eq : ∀ j r, uses s' j r = uses s j r := by
    intro j r
    unfold uses
    rw [point, lock]
  have role_eq : ∀ j, role s' j = role s j := by
    intro j
    unfold role
    rw [point, lock]
  refine ⟨?_, ?_, ?_, ?_, ?_, ?_⟩
  · intro j
    rw [node, out j]
    exact inv.refs j
  · rw [node]
    exact inv.single
  · intro r j put
    rw [point] at put
    exact le_trans (inv.putter r j put) (more r j put)
  · rw [point, lock]
    exact inv.locked
  · intro j r h
    rw [uses_eq] at h
    exact keeps j (inv.used j r h)
  · intro j
    rw [node, disk, changed, role_eq]
    exact inv.content j

/-! ## Finding a free inode -/

/-- A step that touches no entry. -/
theorem Inv.roam (inv : Inv s) {d} (old : Apart (s.point p)) (new : Apart pt)
    (content : ∀ j, 0 < (s.node j).ref →
      Good (s.node j) (d (s.node j).key) (s.changed j) (role s j))
    (eq : s' = { s with disk := d }.goto p pt) : Inv s' := by
  -- any entry will do
  obtain ⟨i⟩ : Nonempty Entry := ⟨⟨0, by decide⟩⟩
  obtain ⟨old_about, old_work, old_puts, _⟩ := old.outside i
  obtain ⟨new_about, _, new_puts, new_lock, new_working⟩ := new.outside i
  have m : Moves s s' p i :=
    eq ▸ (⟨fun _ _ => rfl, fun _ _ _ => .rfl, fun _ _ => rfl, fun _ _ _ => rfl, fun _ _ => rfl,
      old_about, old_about⟩ : Moves s { s with disk := d } p i).goes new_about
  have point : s'.point p = pt := eq ▸ goto_self
  rw [← point] at new_puts new_lock new_working
  subst eq
  refine inv.move m (.client inv m rfl old_work new_working new_lock rfl id rfl ?_ ?_ (content i))
    fun j _ => content j
  · rw [new_puts]
    rintro ⟨⟩
  · intro q h
    refine m.kept (inv.used i q h) ?_
    rw [old_puts, new_puts]
    exact le_refl _

/-- An inode that is free on disk is not to be read out of the table. -/
theorem Good.mark {d'} (h : Good x d c r) (free : d.type = 0) : Good x d' c r := by
  cases r with
  | none => exact fun valid => absurd free (h valid).2
  | some w =>
    cases w with
    | loading | written => trivial
    | client => exact absurd free h.2.2.1
    | trunc | truncated | cleared | zeroed => exact absurd free h.2.2.2.1

theorem scan_inv (inv : Inv s) {dev inum type}
    (pt : s.point p = .scanning dev type inum) : Inv (scan s p ninodes dev type inum) := by
  have old : Apart (s.point p) := by
    rw [pt]
    trivial
  unfold scan
  split
  · split
    · rename_i free
      refine inv.roam old (show Apart (.getting ⟨dev, inum⟩) from trivial) ?_ rfl
      intro j pos
      by_cases eq : (s.node j).key = ⟨dev, inum⟩
      · exact (inv.content j pos).mark (by rw [eq]; exact free)
      · rw [update_of_ne eq]
        exact inv.content j pos
    · exact inv.roam old (show Apart (.scanning dev type (inum + 1)) from trivial) inv.content rfl
  · exact inv.roam old (show Apart .idle from trivial) inv.content rfl

/-! ## Runs -/

def freeingAt (s : Sys np) (k : Key) : Point → Bool
  | .working i w => freeing w && (s.node i).key = k
  | _ => false

/-- An `iput` has found the last reference to the inode and has not freed it yet. -/
def BeingFreed (s : Sys np) (k : Key) : Prop := ∃ q, freeingAt s k (s.point q) = true
  deriving Decidable

/-- The step is not the section of an `iget`, called or in `ialloc`, of an inode that is
being freed. -/
def Undisturbed (s : Sys np) : Act np → Prop
  | .iget _ k => ¬ BeingFreed s k
  | .go p =>
    match s.point p with
    | .getting k => ¬ BeingFreed s k
    | _ => True
  | _ => True

instance (s : Sys np) (a : Act np) : Decidable (Undisturbed s a) :=
  decidable_of_iff ((match a with
    | .iget _ k => !decide (BeingFreed s k)
    | .go p =>
      match s.point p with
      | .getting k => !decide (BeingFreed s k)
      | _ => true
    | _ => true) = true) (by
      unfold Undisturbed
      split
      · simp
      · split <;> simp
      · simp)

theorem not_freeing (h : ¬ BeingFreed s k) (key : (s.node i).key = k) : ¬ Freeing (role s i) := by
  intro f
  obtain ⟨q, w, pt, f⟩ := freeing_point f
  refine h ⟨q, ?_⟩
  rw [pt]
  simp [freeingAt, f, key]

theorem goto_idle (idle : s.point p = .idle) : s.goto p .idle = s := by
  show { s with point := update s.point p .idle } = s
  rw [← idle, update_eq_self]

theorem iget_frame : Yields (iget s p k) fun s' => s'.point = s.point ∧ s'.disk = s.disk := by
  unfold iget
  split
  · exact .some ⟨rfl, rfl⟩
  split
  · exact .some ⟨rfl, rfl⟩
  · exact .none

theorem iget_inv (inv : Inv s) (old : Apart (s.point p)) (free : ¬ BeingFreed s k) :
    Yields (iget s p k) fun s' => Inv (s'.goto p .idle) := by
  unfold iget
  split
  · rename_i i found
    obtain ⟨pos, key⟩ : 0 < (s.node i).ref ∧ (s.node i).key = k := by
      simpa using List.find?_some found
    exact .some (take_inv inv old pos (not_freeing free key) rfl)
  · rename_i missing
    have fresh : ∀ j, 0 < (s.node j).ref → (s.node j).key ≠ k := by
      intro j pos same
      have := List.find?_eq_none.1 missing j (List.mem_finRange j)
      simp [pos, same] at this
    split
    · rename_i i found
      have zero : (s.node i).ref = 0 := by simpa using List.find?_some found
      exact .some (recycle_inv inv old zero fresh rfl)
    · exact .none

theorem iput_step_inv (inv : Inv s) (pt : s.point p = .putting i) : Yields (iput s p i) Inv := by
  unfold iput
  dsimp only
  split
  · rename_i last
    split
    · exact .some (to_free_inv inv pt ‹_› last.1 last.2.1 last.2.2)
    · exact .none
  · exact .some (drop_inv inv (.inl pt) rfl)

theorem work_inv (inv : Inv s) (pt : s.point p = .working i w) : Yields (work s p i w) Inv := by
  obtain ⟨_, _, good⟩ := inv.stage pt
  cases w with
  | client => exact .none
  | loading => exact .whenNot fun type => .some (loaded_inv inv pt type rfl)
  | trunc =>
    refine .some (stage_inv inv pt (by simp [puts]) (by simp [puts]) ?_ rfl)
    exact good
  | truncated =>
    exact .some (stage_write_inv inv pt (by simp [puts]) (by simp [puts])
      ⟨good.1, good.2.1, good.2.2.1, good.2.1, good.2.2.1⟩)
  | cleared =>
    refine .some (stage_inv inv pt (by simp [puts]) (by simp [puts]) ?_ rfl)
    exact ⟨good.1, rfl, good.2.2⟩
  | zeroed => exact .some (stage_write_inv inv pt (by simp [puts]) (by simp [puts]) trivial)
  | written => exact .some (freed_inv inv pt rfl)

theorem go_inv (inv : Inv s) (cond : Undisturbed s (.go p)) : Yields (go ninodes s p) Inv := by
  unfold go
  unfold Undisturbed at cond
  dsimp only at cond
  split
  · exact .none
  · rename_i i pt
    split
    · rename_i free
      refine .some ?_
      split
      · rename_i valid
        exact locked_inv inv pt free valid
      · exact to_load_inv inv pt free
    · exact .none
  · rename_i i w pt
    exact work_inv inv pt
  · rename_i i pt
    exact iput_step_inv inv pt
  · rename_i i pt
    exact .some (drop_inv inv (.inr pt) rfl)
  · rename_i dev type inum pt
    exact .some (scan_inv inv pt)
  · rename_i k pt
    rw [pt] at cond
    exact .map (iget_inv inv (by rw [pt]; trivial) cond)

theorem call_inv (inv : Inv s) (cond : Undisturbed s a) (idle : s.point a.actor = .idle) :
    Yields (call s a) Inv := by
  have apart : Apart (s.point a.actor) := by
    rw [idle]
    trivial
  cases a with
  | iget p k =>
    intro s' got
    rw [← goto_idle ((congrFun (iget_frame s' got).1 p).trans idle)]
    exact iget_inv inv apart cond s' got
  | idup p i =>
    refine .when fun kept => .some ?_
    have pos : 0 < (s.node i).ref := by
      rw [inv.refs i]
      exact Nat.lt_of_le_of_lt zero_le kept
    refine take_inv inv apart pos (kept.not_freeing inv) (Eq.symm ?_)
    refine goto_idle ?_
    exact idle
  | ilock p i => exact .when fun may => .some (ilock_inv inv idle may.1)
  | iunlock p i => exact .when fun may => .some (iunlock_inv inv idle may.1 may.2.1)
  | iput p i => exact .when fun may => .some (iput_inv inv idle may)
  | change p i x => exact .when fun may => .some (change_inv inv idle may.1 may.2 rfl)
  | iupdate p i => exact .when fun lock => .some (iupdate_inv inv idle lock)
  | ialloc p dev type =>
    refine .when fun _ => .some ?_
    exact inv.roam apart (show Apart (.scanning dev type 1) from trivial) inv.content rfl
  | pass p q i => exact .when fun held => .some (pass_inv inv idle held rfl rfl)
  | go p => exact .none

theorem step_inv (inv : Inv s) (cond : Undisturbed s a) : Yields (step ninodes s a) Inv := by
  unfold step
  split
  · exact go_inv inv cond
  · exact .when fun idle => call_inv inv cond idle

theorem iinit_inv (disk : Key → Dinode) : Inv (iinit disk : Sys np) where
  refs _ := Finset.sum_const_zero.symm
  single _ _ pos := absurd pos (lt_irrefl 0)
  putter _ _ h := by cases h
  locked _ _ _ h := by cases h
  used _ _ h := by
    unfold uses iinit at h
    simp at h
  content _ pos := absurd pos (lt_irrefl 0)

theorem run_inv {disk t}
    (run : Run (When (ByStep (step ninodes)) Undisturbed) (iinit disk) t s) : Inv s :=
  run.keeps (iinit_inv disk) fun _ _ _ inv st => step_inv inv st.2 _ st.1

/-- The step puts an inode that is in use back among the free ones. -/
def Frees (s s' : Sys np) (k : Key) : Prop := (s.disk k).type ≠ 0 ∧ (s'.disk k).type = 0

theorem Frees.not_same (h : Frees s s' k) (same : s'.disk = s.disk) : False := by
  unfold Frees at h
  rw [same] at h
  exact h.1 h.2

theorem iput_disk : Yields (iput s p i) fun s' => s'.disk = s.disk := by
  unfold iput
  dsimp only
  split
  · split
    · exact .some rfl
    · exact .none
  · exact .some rfl

/-- `iupdate` frees an inode only when it writes type 0. -/
theorem iupdate_frees (disk : s'.disk = (iupdate s i).disk) (h : Frees s s' k) :
    (s.node i).key = k ∧ (s.node i).fields.type = 0 := by
  unfold Frees at h
  rw [disk] at h
  by_cases eq : k = (s.node i).key
  · subst eq
    rw [iupdate_here] at h
    exact ⟨rfl, h.2⟩
  · rw [iupdate_else eq] at h
    exact absurd h.2 h.1

/-- What a step that frees an inode finds. -/
def Alone (s : Sys np) (p : Fin np) (k : Key) : Prop :=
  (s.disk k).nlink = 0 ∧ ∃ i, (s.node i).key = k ∧ outstanding s i = 1 ∧ s.holds p i = 1

def FreesAlone (s : Sys np) (p : Fin np) (s' : Sys np) : Prop := ∀ k, Frees s s' k → Alone s p k

theorem FreesAlone.same (same : s'.disk = s.disk) : FreesAlone s p s' :=
  fun _ f => (f.not_same same).elim

theorem work_frees (inv : Inv s) (pt : s.point p = .working i w) :
    Yields (work s p i w) (FreesAlone s p) := by
  obtain ⟨_, _, good⟩ := inv.stage pt
  cases w with
  | client => exact .none
  | loading => exact .whenNot fun _ => .some (.same rfl)
  | trunc | cleared | written => exact .some (.same rfl)
  | truncated => exact .some fun k f => absurd (iupdate_frees rfl f).2 good.2.1
  | zeroed =>
    refine .some fun k f => ?_
    obtain ⟨one, _, _, _, nlink⟩ := good
    obtain ⟨rfl, _⟩ := iupdate_frees rfl f
    have mine := inv.putter p i (by simp [pt, puts])
    rw [inv.refs i] at one
    have most := le_sum (fun q => s.holds q i) p
    refine ⟨nlink, i, rfl, one, ?_⟩
    unfold outstanding at one
    omega

theorem scan_frees {dev inum type} (f : Frees s (scan s p ninodes dev type inum) k) : False := by
  unfold scan at f
  split at f
  · split at f
    · rename_i free
      by_cases eq : k = ⟨dev, inum⟩
      · exact f.1 (eq ▸ free)
      · refine f.1 ?_
        rw [← f.2]
        exact congrArg Dinode.type (update_of_ne eq ..).symm
    · exact f.not_same rfl
  · exact f.not_same rfl

theorem go_frees (inv : Inv s) : Yields (go ninodes s p) (FreesAlone s p) := by
  unfold go
  split
  · exact .none
  · split
    · exact .some (.same rfl)
    · exact .none
  · exact work_frees inv ‹_›
  · exact fun s' put => .same (iput_disk s' put)
  · exact .some (.same rfl)
  · exact .some fun k f => (scan_frees f).elim
  · exact .map fun t got => .same (iget_frame t got).2

/-- The calls free nothing: `iupdate` has no type 0 to write. -/
theorem call_frees (inv : Inv s) (idle : s.point a.actor = .idle) :
    Yields (call s a) (FreesAlone s a.actor) := by
  cases a with
  | iget p k => exact fun s' got => .same (iget_frame s' got).2
  | go p => exact .none
  | iupdate p i =>
    refine .when fun lock => .some fun k f => ?_
    have good := inv.content i (inv.lock_ref lock)
    rw [role_some lock idle] at good
    exact absurd (iupdate_frees rfl f).2 good.2.1
  | idup | ilock | iunlock | iput | change | ialloc | pass => exact .when fun _ => .some (.same rfl)

theorem step_frees (inv : Inv s) : Yields (step ninodes s a) (FreesAlone s a.actor) := by
  unfold step
  split
  · exact go_frees inv
  · exact .when (call_frees inv)

/-- The process is in `ilock`. -/
def Locking (i : Entry) (pt : Point) : Prop := pt = .locking i ∨ pt = .working i .loading

/-- What `ilock` gives to its caller. -/
structure Locked (s : Sys np) (p : Fin np) (i : Entry) : Prop where
  lock : s.lock i = some p
  clean : s.changed i = false
  valid : (s.node i).valid = true
  fields : (s.node i).fields = s.disk (s.node i).key

theorem ilock_returns (inv : Inv s) (pt : Locking i (s.point p))
    (h : step ninodes s (.go p) = some s') (back : s'.point p = .idle) : Locked s' p i := by
  obtain pt | pt := pt
  · unfold step go at h
    dsimp only at h
    rw [pt] at h
    dsimp only at h
    split at h
    · rename_i free
      have good := inv.content i (by
        rw [inv.refs i]
        exact Nat.lt_of_le_of_lt zero_le (inv.used i p (by simp [uses, pt])))
      rw [role_none free] at good
      cases h
      rw [goto_self] at back
      have valid : (s.node i).valid = true := by
        by_contra novalid
        exact absurd ((if_neg novalid).symm.trans back) (by simp)
      exact ⟨update_self .., update_self .., valid, (good valid).1⟩
    · cases h
  · have lock := (inv.locked p i _ pt).1
    unfold step go at h
    dsimp only at h
    rw [pt] at h
    obtain ⟨_, ⟨⟩⟩ := ite_none_left_eq_some.1 h
    have node := setNode_self (s := s) (i := i)
      (x := { s.node i with fields := s.disk (s.node i).key, valid := true })
    exact ⟨lock, update_self .., congrArg Node.valid node,
      (congrArg Node.fields node).trans (congrArg (s.disk ·.key) node).symm⟩

/-- In every run in which no `iget` meets an inode that an `iput` is about to free, each inode
has one entry, its count is that of the references there are, `ilock` gives its caller the
fields as they were logged last and they stay so until the caller changes them, and an inode
is freed when it has no link and the reference given up is the only one. -/
theorem inodes_counted_and_fresh (ninodes : UInt32) (disk : Key → Dinode) (t : List (Act np))
    (s : Sys np) (run : Run (When (ByStep (step ninodes)) Undisturbed) (iinit disk) t s) :
    (∀ i j, 0 < (s.node i).ref → 0 < (s.node j).ref → (s.node i).key = (s.node j).key → i = j) ∧
    (∀ i, (s.node i).ref = outstanding s i) ∧
    (∀ p i s', Locking i (s.point p) → step ninodes s (.go p) = some s' → s'.point p = .idle →
      Locked s' p i) ∧
    (∀ p i, s.lock i = some p → (∀ w, s.point p ≠ .working i w) → s.changed i = false →
      Locked s p i) ∧
    ∀ a s' k, step ninodes s a = some s' → Frees s s' k → Alone s a.actor k := by
  have inv := run_inv run
  refine ⟨inv.single, inv.refs, fun p i s' => ilock_returns inv, ?_,
    fun a s' k st => step_frees inv s' st k⟩
  intro p i lock client clean
  have good := inv.content i (inv.lock_ref lock)
  rw [role_some lock rfl, workOn_client client] at good
  exact ⟨lock, clean, good.1, good.2.2.2 clean⟩

/-- A disk whose inodes are files without a link. -/
def unlinked : Key → Dinode := fun _ => { Dinode.zero with type := 2 }

def closer : Fin 2 := ⟨0, Nat.zero_lt_two⟩

def opener : Fin 2 := ⟨1, Nat.one_lt_two⟩

/-- `iget`, and all of `ilock`. -/
def openAndLock (p : Fin 2) (k : Key) : List (Act 2) := [.iget p k, .ilock p 0, .go p, .go p]

theorem inodes_counted_and_fresh_locked :
    ∃ t s, Run (When (ByStep (step 200)) Undisturbed) (iinit unlinked) t s ∧ (s.node 0).ref = 1 ∧
      outstanding s 0 = 1 ∧ Locked s closer 0 := by
  obtain ⟨s, run, ref, lock, point, clean⟩ :=
    foldlM_reaches_when (step 200) (iinit unlinked) Undisturbed (openAndLock closer ⟨1, 7⟩)
    (P := fun s => (s.node 0).ref = 1 ∧ s.lock 0 = some closer ∧ s.point closer = .idle ∧
      s.changed 0 = false) (by decide +kernel)
  obtain ⟨_, refs, _, client, _⟩ := inodes_counted_and_fresh 200 unlinked _ s run
  exact ⟨_, s, run, ref, refs 0 ▸ ref, client closer 0 lock (by simp [point]) clean⟩

/-- One process gives up the last reference to an inode without links, and another gets a
reference between the test in `iput` and the write that frees the inode. -/
theorem freed_while_referenced :
    ∃ t s s', Run (ByStep (step 200)) (iinit unlinked) t s ∧ step 200 s (.go closer) = some s' ∧
      Frees s s' ⟨1, 7⟩ ∧ (s.node 0).key = ⟨1, 7⟩ ∧ outstanding s 0 = 2 ∧ s.holds opener 0 = 1 := by
  obtain ⟨s, run, frees, key, refs, other⟩ := foldlM_reaches (step 200) (iinit unlinked)
    (openAndLock closer ⟨1, 7⟩ ++ [.iunlock closer 0, .iput closer 0, .go closer,
    .iget opener ⟨1, 7⟩,
      .go closer, .go closer, .go closer])
    (P := fun s => ((step 200 s (.go closer)).any fun s' =>
        (s.disk ⟨1, 7⟩).type ≠ 0 && (s'.disk ⟨1, 7⟩).type = 0) = true ∧
      (s.node 0).key = ⟨1, 7⟩ ∧ outstanding s 0 = 2 ∧ s.holds opener 0 = 1) (by decide +kernel)
  rw [Option.any_eq_true] at frees
  obtain ⟨s', st, frees⟩ := frees
  exact ⟨_, s, s', run, st, by simpa [Frees] using frees, key, refs, other⟩

end OsProject.Xv6.InodeTable
