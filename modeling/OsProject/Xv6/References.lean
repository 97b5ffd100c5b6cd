import OsProject.Lib.Count
import OsProject.Lib.Outcome
import OsProject.Xv6.Files
import Mathlib.Data.Fintype.Sum
import Mathlib.Logic.Relation

/-! # References to inodes

References to inodes in memory are those of current directories and of open
files, and those that a call has at the moment: a list that every function of
the inode layer changes by one. The last reference to an inode without links
frees it. -/
namespace OsProject.Xv6.References
open Lib Lib.Outcome Files
open List hiding lookup
open Function (update update_of_ne update_self)

variable {n : Nat} {s s' : Sys n} {tmp : List (Fin n)} {i j dp : Fin n} {x : Node n}

/-! ## References -/

/-- The inodes of current directories and open files. -/
def holder (s : Sys n) : Fin nproc ⊕ Fin nfile → Option (Fin n)
  | .inl p => (s.proc p).map (·.cwd)
  | .inr f =>
    if 0 < (s.ftable f).ref ∧ (s.ftable f).type ≠ .none then some (s.ftable f).ip else none

def held (s : Sys n) (i : Fin n) : Nat := ∑ k, if holder s k = some i then 1 else 0

/-- The table, while a call has the references `tmp`. -/
structure Acc (s : Sys n) (tmp : List (Fin n)) : Prop where
  refs : ∀ i, s.ref i = held s i + tmp.count i
  kept : ∀ i, (s.ino i).type ≠ .free → (s.ino i).nlink = 0 → 0 < s.ref i ∧ s.valid i = true
  valid : ∀ i, 0 < s.ref i → s.valid i = true → (s.ino i).type ≠ .free
  live : ∀ i, 0 < held s i → (s.ino i).type ≠ .free

/-- Inodes without links are in use, not only by the call. -/
def Anchored (s : Sys n) : Prop :=
  ∀ i, (s.ino i).type ≠ .free → (s.ino i).nlink = 0 → 0 < held s i

/-- Inodes without links are in use, also without one of the references of the call. -/
def Backed (tmp : List (Fin n)) (s : Sys n) : Prop :=
  ∀ i, (s.ino i).type ≠ .free → (s.ino i).nlink = 0 → 0 < held s i + tmp.count i

theorem Backed.cons (h : Backed tmp s) : Backed (j :: tmp) s := fun i used zero =>
  lt_of_lt_of_le (h i used zero) (Nat.add_le_add_left (count_le_count_cons ..) _)

theorem Anchored.backed (h : Anchored s) : Backed tmp s := fun i used zero =>
  lt_of_lt_of_le (h i used zero) (Nat.le_add_right _ _)

/-- Nothing but reference counts changed, and copies that the call has stay. -/
structure Same (tmp : List (Fin n)) (s s' : Sys n) : Prop where
  ino : s'.ino = s.ino
  ftable : s'.ftable = s.ftable
  proc : s'.proc = s.proc
  valid : ∀ i ∈ tmp, s.valid i = true → s'.valid i = true

theorem Same.refl : Same tmp s s := ⟨rfl, rfl, rfl, fun _ _ => id⟩

theorem Same.trans {s''} (h : Same tmp s s') (h' : Same tmp s' s'') : Same tmp s s'' where
  ino := h'.ino.trans h.ino
  ftable := h'.ftable.trans h.ftable
  proc := h'.proc.trans h.proc
  valid i hi v := h'.valid i hi (h.valid i hi v)

theorem Same.mono {tmp'} (h : Same tmp s s') (sub : tmp' ⊆ tmp) : Same tmp' s s' :=
  ⟨h.ino, h.ftable, h.proc, fun i hi => h.valid i (sub hi)⟩

theorem held_congr (ftable : s'.ftable = s.ftable) (proc : s'.proc = s.proc) :
    held s' i = held s i := by
  have same : holder s' = holder s := by
    funext k
    cases k <;> simp only [holder, ftable, proc]
  simp only [held, same]

theorem Same.anchored (h : Same tmp s s') (anchored : Anchored s) : Anchored s' := by
  intro i used zero
  rw [h.ino] at used zero
  rw [held_congr h.ftable h.proc]
  exact anchored i used zero

theorem Same.backed {tmp'} (h : Same tmp s s') (backed : Backed tmp' s) : Backed tmp' s' := by
  intro i used zero
  rw [h.ino] at used zero
  rw [held_congr h.ftable h.proc]
  exact backed i used zero

namespace Acc

theorem anchored (h : Acc s []) : Anchored s := by
  intro i used zero
  have pos := (h.kept i used zero).1
  rw [h.refs i, count_nil, add_zero] at pos
  exact pos

theorem pos (h : Acc s tmp) (mem : i ∈ tmp) : 0 < s.ref i := by
  rw [h.refs i]
  have := count_pos_iff.2 mem
  omega

theorem used (h : Acc s tmp) (user : 0 < held s i) : 0 < s.ref i := by
  rw [h.refs i]
  omega

theorem swap {a b} (h : Acc s (a :: b :: tmp)) : Acc s (b :: a :: tmp) :=
  ⟨fun i => by rw [h.refs i, List.Perm.count_eq (List.Perm.swap ..)], h.kept, h.valid, h.live⟩

/-- One inode changes, or the references to it that the call has. -/
theorem change {tmp' r v y} (h : Acc s tmp) (frame : s'.ftable = s.ftable ∧ s'.proc = s.proc)
    (others : ∀ j, j ≠ i → s'.ref j = s.ref j ∧ s'.valid j = s.valid j ∧ s'.ino j = s.ino j ∧
      tmp'.count j = tmp.count j)
    (here : s'.ref i = r ∧ s'.valid i = v ∧ s'.ino i = y) (refs : r = held s i + tmp'.count i)
    (kept : y.type ≠ .free → y.nlink = 0 → 0 < r ∧ v = true)
    (valid : 0 < r → v = true → y.type ≠ .free) (live : 0 < held s i → y.type ≠ .free) :
    Acc s' tmp' := by
  suffices all : ∀ j, s'.ref j = held s' j + tmp'.count j ∧
      ((s'.ino j).type ≠ .free → (s'.ino j).nlink = 0 → 0 < s'.ref j ∧ s'.valid j = true) ∧
      (0 < s'.ref j → s'.valid j = true → (s'.ino j).type ≠ .free) ∧
      (0 < held s' j → (s'.ino j).type ≠ .free) from
    ⟨fun j => (all j).1, fun j => (all j).2.1, fun j => (all j).2.2.1, fun j => (all j).2.2.2⟩
  intro j
  rw [held_congr frame.1 frame.2]
  by_cases eq : j = i
  · rw [eq, here.1, here.2.1, here.2.2]
    exact ⟨refs, kept, valid, live⟩
  · obtain ⟨ref, flag, ino, count⟩ := others j eq
    rw [ref, flag, ino, count]
    exact ⟨h.refs j, h.kept j, h.valid j, h.live j⟩

/-- One more reference to an inode that has some. -/
theorem dup (h : Acc s tmp) (pos : 0 < s.ref i) : Acc (idup s i) (i :: tmp) := by
  refine h.change ⟨rfl, rfl⟩ (fun j ne => ⟨update_of_ne ne .., rfl, rfl, count_cons_of_ne ne.symm⟩)
    ⟨update_self .., rfl, rfl⟩ ?_ (fun used zero => ⟨Nat.succ_pos _, (h.kept i used zero).2⟩)
    (fun _ => h.valid i pos) (h.live i)
  rw [count_cons_self, h.refs i, add_assoc]

/-- A locked inode changes. -/
theorem setNode (h : Acc s tmp) (used : x.type ≠ .free)
    (kept : x.nlink = 0 → 0 < s.ref i ∧ s.valid i = true) : Acc (s.setNode i x) tmp :=
  h.change ⟨rfl, rfl⟩ (fun _ ne => ⟨rfl, rfl, update_of_ne ne .., rfl⟩)
    ⟨rfl, rfl, update_self ..⟩ (h.refs i) (fun _ => kept) (fun _ _ => used) fun _ => used

end Acc

/-! ## Processes and the file table -/

theorem held_pos {k} (h : holder s k = some i) : 0 < held s i := by
  refine Nat.lt_of_lt_of_le ?_ (Finset.single_le_sum (fun _ _ => zero_le) (Finset.mem_univ k))
  rw [if_pos h]
  exact Nat.one_pos

theorem holder_cwd {p pr} (caller : s.proc p = some pr) : holder s (.inl p) = some pr.cwd := by
  rw [holder, caller, Option.map_some]

theorem holder_of_held (h : 0 < held s i) : ∃ k, holder s k = some i := by
  obtain ⟨k, -, ne⟩ := Finset.exists_ne_zero_of_sum_ne_zero (Nat.ne_of_gt h)
  exact ⟨k, by_contra fun none => ne (if_neg none)⟩

theorem count_toList (o : Option (Fin n)) : o.toList.count j = if o = some j then 1 else 0 := by
  cases o with
  | none => rfl
  | some i => simp only [Option.toList_some, count_singleton, beq_iff_eq, Option.some.injEq]

/-- A reference goes from the call to the holder `k`, or back. -/
theorem Acc.move {k tmp'} (h : Acc s tmp)
    (ino : s'.ino = s.ino) (ref : s'.ref = s.ref) (valid : s'.valid = s.valid)
    (others : ∀ k', k' ≠ k → holder s' k' = holder s k')
    (moved : ((holder s' k).toList ++ tmp').Perm ((holder s k).toList ++ tmp))
    (used : ∀ j, holder s' k = some j → (s.ino j).type ≠ .free) : Acc s' tmp' := by
  have change : ∀ j, held s' j + (if holder s k = some j then 1 else 0) =
      held s j + if holder s' k = some j then 1 else 0 := by
    intro j
    refine Count.sum_change (fun k => if holder s k = some j then 1 else 0)
      (fun k => if holder s' k = some j then 1 else 0) k fun k' ne => ?_
    rw [others k' ne]
  refine ⟨fun j => ?_, ?_, ?_, fun j pos => ?_⟩
  · have count := moved.count_eq j
    rw [count_append, count_append, count_toList, count_toList] at count
    rw [ref, h.refs j]
    have := change j
    omega
  · rw [ino, ref, valid]
    exact h.kept
  · rw [ino, ref, valid]
    exact h.valid
  · rw [ino]
    by_cases new : holder s' k = some j
    · exact used j new
    · have := change j
      rw [if_neg new] at this
      exact h.live j (by omega)

theorem Acc.still (h : Acc s tmp) (ino : s'.ino = s.ino) (ref : s'.ref = s.ref)
    (valid : s'.valid = s.valid) (same : ∀ k, holder s' k = holder s k) : Acc s' tmp := by
  have held : ∀ j, held s' j = References.held s j := fun j => by simp only [References.held, same]
  refine ⟨fun j => ?_, ?_, ?_, fun j pos => ?_⟩
  · rw [ref, held, h.refs j]
  · rw [ino, ref, valid]
    exact h.kept
  · rw [ino, ref, valid]
    exact h.valid
  · rw [held] at pos
    rw [ino]
    exact h.live j pos

theorem holder_file_ne {f x k} (ne : k ≠ .inr f) :
    holder { s with ftable := update s.ftable f x } k = holder s k := by
  cases k with
  | inl p => rfl
  | inr g =>
    have hg : g ≠ f := fun eq => ne (congrArg _ eq)
    simp only [holder, update_of_ne hg]

theorem holder_proc_ne {p pr k} (ne : k ≠ .inl p) : holder (s.setProc p pr) k = holder s k := by
  cases k with
  | inl q =>
    have hq : q ≠ p := fun eq => ne (congrArg _ eq)
    simp only [holder, Sys.setProc, update_of_ne hq]
  | inr f => rfl

theorem holder_file {f x} : holder { s with ftable := update s.ftable f x } (.inr f) =
      if 0 < x.ref ∧ x.type ≠ .none then some x.ip else none := by
  simp only [holder, update_self]

/-- A process whose current directory stays. -/
theorem holder_proc {p pr pr'} (caller : s.proc p = some pr)
    (cwd : pr'.cwd = pr.cwd) (k : Fin nproc ⊕ Fin nfile) :
    holder (s.setProc p (some pr')) k = holder s k := by
  by_cases hk : k = .inl p
  · simp only [hk, holder, Sys.setProc, update_self, caller, Option.map_some, cwd]
  · exact holder_proc_ne hk

section
variable {ip : Fin n} {f : Fin nfile} {y : File n}

/-- An entry of the file table changes, with the reference that it has. -/
theorem Acc.still_file (h : Acc s tmp)
    (same : (if 0 < y.ref ∧ y.type ≠ .none then some y.ip else none) = holder s (.inr f)) :
    Acc { s with ftable := update s.ftable f y } tmp := by
  refine h.still rfl rfl rfl fun k => ?_
  by_cases hk : k = .inr f
  · rw [hk, holder_file, same]
  · exact holder_file_ne hk

/-- The call's reference goes to an entry of the file table. -/
theorem Acc.open_file (h : Acc s (ip :: tmp)) (used : (s.ino ip).type ≠ .free)
    (before : holder s (.inr f) = none) (opened : 0 < y.ref ∧ y.type ≠ .none)
    (hip : y.ip = ip) : Acc { s with ftable := update s.ftable f y } tmp := by
  have after : holder { s with ftable := update s.ftable f y } (.inr f) = some ip := by
    rw [holder_file, if_pos opened, hip]
  refine h.move (k := .inr f) rfl rfl rfl (fun k hk => holder_file_ne hk) ?_ ?_
  · rw [after, before]
    rfl
  · intro j eq
    rw [after] at eq
    rw [← Option.some.inj eq]
    exact used

/-- The reference of an entry of the file table goes to the call. -/
theorem Acc.close_file (h : Acc s tmp) (before : holder s (.inr f) = some ip)
    (closed : y.type = .none) : Acc { s with ftable := update s.ftable f y } (ip :: tmp) := by
  have after : holder { s with ftable := update s.ftable f y } (.inr f) = none := by
    rw [holder_file, if_neg fun both => both.2 closed]
  refine h.move (k := .inr f) rfl rfl rfl (fun k hk => holder_file_ne hk) ?_ ?_
  · rw [after, before]
    rfl
  · rw [after]
    exact nofun

theorem Acc.setProc {p pr pr'} (h : Acc s tmp) (caller : s.proc p = some pr)
    (cwd : pr'.cwd = pr.cwd) : Acc (s.setProc p (some pr')) tmp :=
  h.still rfl rfl rfl (holder_proc caller cwd)

/-- A process changes, and with it the reference that is its current directory. -/
theorem Acc.move_proc {tmp' p pr} (h : Acc s tmp)
    (moved : ((pr.map (·.cwd)).toList ++ tmp').Perm (((s.proc p).map (·.cwd)).toList ++ tmp))
    (used : ∀ pr', pr = some pr' → (s.ino pr'.cwd).type ≠ .free) : Acc (s.setProc p pr) tmp' := by
  have after : holder (s.setProc p pr) (.inl p) = pr.map (·.cwd) := by
    simp only [holder, Sys.setProc, update_self]
  refine h.move (k := .inl p) rfl rfl rfl (fun k hk => holder_proc_ne hk) ?_ fun j eq => ?_
  · rw [after]
    exact moved
  · rw [after] at eq
    obtain ⟨pr', is, rfl⟩ := Option.map_eq_some_iff.1 eq
    exact used pr' is

end

/-- The panics that the invariant does not exclude. -/
def Spared (e : Panic) : Prop := e ≠ .unlinkNlink

theorem iget_spec (h : Acc s tmp) :
    Ends Spared (iget s i) fun s' => Acc s' (i :: tmp) ∧ Same tmp s s' := by
  unfold iget
  split
  · rename_i pos
    exact .ok ⟨h.dup pos, rfl, rfl, rfl, fun _ _ => id⟩
  split
  · exact fun eq => Panic.noConfusion eq
  have notin : i ∉ tmp := fun mem => absurd (h.pos mem) (by omega)
  refine .ok ⟨h.change ⟨rfl, rfl⟩ (fun j ne => ⟨update_of_ne ne .., update_of_ne ne .., rfl,
      count_cons_of_ne ne.symm⟩) ⟨update_self .., update_self .., rfl⟩ ?_
      (fun used zero => absurd (h.kept i used zero).1 ‹_›)
      (fun _ invalid => Bool.noConfusion invalid) (h.live i),
    rfl, rfl, rfl, fun j hj valid => ?_⟩
  · rw [count_cons_self]
    have := h.refs i
    omega
  · have ne : j ≠ i := by
      rintro rfl
      exact notin hj
    dsimp only
    rw [update_of_ne ne]
    exact valid

theorem ilock_spec (h : Acc s tmp) : Ends Spared (ilock s i) fun s' =>
    Acc s' tmp ∧ Same tmp s s' ∧ (s.ino i).type ≠ .free ∧ s'.valid i = true := by
  unfold ilock
  split
  · exact fun eq => Panic.noConfusion eq
  rename_i pos
  replace pos : 0 < s.ref i := not_lt.1 pos
  split
  · rename_i valid
    exact .ok ⟨h, .refl, h.valid i pos valid, valid⟩
  split
  · exact fun eq => Panic.noConfusion eq
  rename_i used
  have more : ∀ j, s.valid j = true → update s.valid i true j = true := by
    intro j valid
    by_cases hj : j = i
    · rw [hj, update_self]
    · rw [update_of_ne hj]
      exact valid
  refine .ok ⟨h.change ⟨rfl, rfl⟩ (fun j ne => ⟨rfl, update_of_ne ne .., rfl, rfl⟩)
      ⟨rfl, update_self .., rfl⟩ (h.refs i) (fun _ _ => ⟨pos, rfl⟩) (fun _ _ => used) (h.live i),
    ⟨rfl, rfl, rfl, fun j _ => more j⟩, used, update_self ..⟩

/-! ## `iput` -/

theorem iput_setProc {p pr} : (iput s i).setProc p pr = iput (s.setProc p pr) i := by
  simp only [iput, apply_ite (fun s => Sys.setProc s p pr)]
  rfl

theorem iput_frame : (iput s i).ftable = s.ftable ∧ (iput s i).proc = s.proc := by
  unfold iput
  split <;> exact ⟨rfl, rfl⟩

theorem iput_ne (ne : j ≠ i) : (iput s i).ino j = s.ino j ∧ (iput s i).valid j = s.valid j := by
  unfold iput
  split
  · exact ⟨update_of_ne ne .., update_of_ne ne ..⟩
  · exact ⟨rfl, rfl⟩

theorem iput_acc (h : Acc s (i :: tmp)) : Acc (iput s i) tmp := by
  have refs_i := h.refs i
  rw [count_cons_self] at refs_i
  unfold iput
  split
  · exact h.change ⟨rfl, rfl⟩ (fun j ne => ⟨update_of_ne ne .., update_of_ne ne ..,
        update_of_ne ne .., (count_cons_of_ne ne.symm).symm⟩)
      ⟨update_self .., update_self .., update_self ..⟩ (by omega) (absurd rfl)
      (fun none => absurd none (lt_irrefl 0)) (by omega)
  · rename_i last
    refine h.change ⟨rfl, rfl⟩ (fun j ne => ⟨update_of_ne ne .., rfl, rfl,
        (count_cons_of_ne ne.symm).symm⟩)
      ⟨update_self .., rfl, rfl⟩ (by omega) (fun used zero => ?_)
      (fun _ => h.valid i (h.pos mem_cons_self)) (h.live i)
    obtain ⟨pos, valid⟩ := h.kept i used zero
    -- the last reference would have freed it
    have : s.ref i ≠ 1 := fun one => last ⟨one, valid, zero⟩
    exact ⟨by omega, valid⟩

/-- References of a call are not the last ones. -/
theorem iput_same (h : Acc s (i :: tmp)) (backed : Backed tmp s) : Same tmp s (iput s i) := by
  unfold iput
  split
  · rename_i last
    obtain ⟨one, valid, zero⟩ := last
    have pos := backed i (h.valid i (by omega) valid) zero
    have refs_i := h.refs i
    rw [count_cons_self] at refs_i
    omega
  · exact ⟨rfl, rfl, rfl, fun _ _ => id⟩

/-- What else the call has stays as it is. -/
theorem iput_kept (h : Acc s (i :: tmp)) (mem : j ∈ tmp) :
    (iput s i).ino j = s.ino j ∧ (iput s i).valid j = s.valid j := by
  unfold iput
  split
  · have ne : j ≠ i := by
      rintro rfl
      have refs := h.refs j
      have more := count_pos_iff.2 mem
      rw [count_cons_self] at refs
      omega
    exact ⟨update_of_ne ne .., update_of_ne ne ..⟩
  · exact ⟨rfl, rfl⟩

/-- An inode without links is freed. -/
def Freed (ino ino' : Fin n → Node n) : Prop :=
  ∃ i, (ino i).type ≠ .free ∧ (ino i).nlink = 0 ∧ ino' = update ino i (ino i).freed

/-- Some inodes without links are freed, one after the other. -/
def Drops : (Fin n → Node n) → (Fin n → Node n) → Prop := Relation.ReflTransGen Freed

theorem Drops.refl {ino : Fin n → Node n} : Drops ino ino := Relation.ReflTransGen.refl

theorem Drops.trans {ino ino' ino'' : Fin n → Node n} (h : Drops ino ino') (h' : Drops ino' ino'') :
    Drops ino ino'' := Relation.ReflTransGen.trans h h'

theorem iput_drops (h : Acc s (i :: tmp)) : Drops s.ino (iput s i).ino := by
  unfold iput
  split
  · rename_i last
    exact .single ⟨i, h.valid i (h.pos mem_cons_self) last.2.1, last.2.2, rfl⟩
  · exact .refl

/-- Processes and open files stay. -/
def Frame (s s' : Sys n) : Prop := s'.ftable = s.ftable ∧ s'.proc = s.proc

theorem Frame.trans {s''} (h : Frame s s') (h' : Frame s' s'') : Frame s s'' :=
  ⟨h'.1.trans h.1, h'.2.trans h.2⟩

theorem Frame.iput (h : Frame s s') : Frame s (iput s' i) :=
  ⟨iput_frame.1.trans h.1, iput_frame.2.trans h.2⟩

theorem Same.frame (h : Same tmp s s') : Frame s s' := ⟨h.ftable, h.proc⟩

theorem Frame.held (h : Frame s s') : held s' i = References.held s i := held_congr h.1 h.2

/-- Entries of the file table that are not in use have no type. -/
def Closed (s : Sys n) : Prop := ∀ f, (s.ftable f).ref = 0 → (s.ftable f).type = .none

theorem Frame.closed (h : Frame s s') (closed : Closed s) : Closed s' := by
  intro f
  rw [h.1]
  exact closed f

theorem Closed.update {f x} (h : Closed s) (hx : x.ref = 0 → x.type = .none) :
    Closed { s with ftable := update s.ftable f x } := by
  intro g
  by_cases hg : g = f
  · simp only [hg, update_self]
    exact hx
  · simp only [update_of_ne hg]
    exact h g

/-! ## Directories and paths -/

variable [NeZero n]

theorem dirlookup_spec (h : Acc s tmp) (name : List UInt8) :
    Ends Spared (dirlookup s dp name) fun r => (s.ino dp).type = .dir ∧
      r.1 = lookup name (s.ino dp).slots 0 ∧ Same tmp s r.2 ∧ match r.1 with
      | some (i, _) => Acc r.2 (i :: tmp) | none => r.2 = s := by
  unfold dirlookup
  split
  · exact fun eq => Panic.noConfusion eq
  rename_i dir
  replace dir : (s.ino dp).type = .dir := not_not.1 dir
  split
  · rename_i i off found
    exact (iget_spec h).bind fun s' ⟨acc, same⟩ => .ok ⟨dir, found.symm, same, acc⟩
  · rename_i none
    exact .ok ⟨dir, none.symm, .refl, rfl⟩

theorem dirlink_spec (h : Acc s tmp) (backed : Backed tmp s) (name : List UInt8) (room : Bool) :
    Ends Spared (dirlink s dp name i room) fun r =>
      if r.1 then ∃ l, addSlot room ⟨i, name.take dirsiz⟩ (s.ino dp).slots = some l ∧
        r.2 = s.setNode dp { s.ino dp with slots := l } ∧ lookup name (s.ino dp).slots 0 = none
      else Same tmp s r.2 ∧ Acc r.2 tmp ∧ (lookup name (s.ino dp).slots 0 = none →
        addSlot room ⟨i, name.take dirsiz⟩ (s.ino dp).slots = none) := by
  refine (dirlookup_spec h name).bind fun ⟨r, s1⟩ ⟨_, found, same, acc⟩ => ?_
  cases r with
  | some r =>
    refine .ok ⟨same.trans (iput_same acc (same.backed backed)), iput_acc acc, fun absent => ?_⟩
    rw [absent] at found
    cases found
  | none =>
    obtain rfl : s1 = s := acc
    dsimp only
    split
    · rename_i l add
      exact .ok ⟨l, add, rfl, found.symm⟩
    · rename_i full
      exact .ok ⟨.refl, h, fun _ => full⟩

/-- Where a path leads, by the entries alone. -/
def resolve (ino : Fin n → Node n) (parent : Bool) :
    List (List UInt8) → Fin n → Option (Fin n × List UInt8)
  | [], ip => if parent then none else some (ip, [])
  | name :: rest, ip =>
    if (ino ip).type ≠ .dir then none
    else if parent ∧ rest = [] then some (ip, name)
    else (lookup name (ino ip).slots 0).bind fun next => resolve ino parent rest next.1

def resolvePath (ino : Fin n → Node n) (cwd : Fin n) (path : List UInt8) (parent : Bool) :
    Option (Fin n × List UInt8) :=
  resolve ino parent (elements path) (if path.head? = some slash then rootino else cwd)

theorem resolve_congr {ino ino' parent}
    (same : ∀ i, (ino' i).type = (ino i).type ∧ (ino' i).slots = (ino i).slots) :
    ∀ (names : List (List UInt8)) (ip : Fin n), resolve ino' parent names ip =
      resolve ino parent names ip
  | [], ip => rfl
  | name :: rest, ip => by
    simp only [resolve, (same ip).1, (same ip).2, resolve_congr same rest]

/-- The directory of a name is a directory. -/
theorem resolve_dir {ino name} : ∀ {names : List (List UInt8)} {ip : Fin n},
    resolve ino true names ip = some (dp, name) → (ino dp).type = .dir
  | [], ip, h => by cases h
  | nm :: rest, ip, h => by
    unfold resolve at h
    split at h
    · cases h
    rename_i dir
    split at h
    · cases h
      exact not_not.1 dir
    · obtain ⟨next, -, h⟩ := Option.bind_eq_some_iff.1 h
      exact resolve_dir h

theorem walk_spec (parent : Bool) : ∀ (names : List (List UInt8)) {s : Sys n} {ip : Fin n},
    Acc s (ip :: tmp) → Backed tmp s → Ends Spared (walk parent names s ip) fun r =>
      r.1 = resolve s.ino parent names ip ∧ Same tmp s r.2 ∧ match r.1 with
      | some (i, _) => Acc r.2 (i :: tmp) | none => Acc r.2 tmp
  | [], s, ip, h, backed => by
    unfold walk resolve
    split
    · exact .ok ⟨rfl, iput_same h backed, iput_acc h⟩
    · exact .ok ⟨rfl, .refl, h⟩
  | name :: rest, s, ip, h, backed => by
    unfold walk resolve
    refine (ilock_spec h).bind fun s1 ⟨h1, same1, _, _⟩ => ?_
    have sub : tmp ⊆ ip :: tmp := subset_cons_self ..
    have backed1 := same1.backed backed
    rw [same1.ino]
    split
    · exact .ok ⟨rfl, (same1.mono sub).trans (iput_same h1 backed1), iput_acc h1⟩
    split
    · exact .ok ⟨rfl, same1.mono sub, h1⟩
    refine (dirlookup_spec h1 name).bind fun ⟨r, s2⟩ ⟨_, found, same2, h2⟩ => ?_
    have same := (same1.trans same2).mono sub
    have backed2 := same2.backed backed1
    rw [same1.ino] at found
    rw [← found]
    cases r with
    | none =>
      obtain rfl : s2 = s1 := h2
      exact .ok ⟨rfl, same.trans (iput_same h1 backed2), iput_acc h1⟩
    | some next =>
      obtain ⟨next, off⟩ := next
      dsimp only at h2 ⊢
      have put := iput_same h2.swap backed2.cons
      have rest := walk_spec parent rest (iput_acc h2.swap) (put.backed backed2)
      rw [put.ino, same2.ino, same1.ino] at rest
      refine rest.mono fun r ⟨eq, same3, h3⟩ => ⟨eq, ?_, h3⟩
      exact (same.trans (put.mono (subset_cons_self ..))).trans same3

theorem namex_spec {cwd} (h : Acc s tmp) (backed : Backed tmp s) (pos : 0 < s.ref cwd)
    (path : List UInt8) (parent : Bool) : Ends Spared (namex s cwd path parent) fun r =>
      r.1 = resolvePath s.ino cwd path parent ∧ Same tmp s r.2 ∧ match r.1 with
      | some (i, _) => Acc r.2 (i :: tmp) | none => Acc r.2 tmp := by
  unfold namex resolvePath
  split
  · refine (iget_spec h).bind fun s1 ⟨h1, same1⟩ => ?_
    have rest := walk_spec parent (elements path) h1 (same1.backed backed)
    rw [same1.ino] at rest
    exact rest.mono fun r ⟨eq, same2, h2⟩ => ⟨eq, same1.trans same2, h2⟩
  · have same1 : Same tmp s (idup s cwd) := ⟨rfl, rfl, rfl, fun _ _ => id⟩
    exact (walk_spec parent (elements path) (h.dup pos) (same1.backed backed)).mono
      fun r ⟨eq, same2, h2⟩ => ⟨eq, same1.trans same2, h2⟩

end OsProject.Xv6.References
