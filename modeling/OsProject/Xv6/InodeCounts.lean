import OsProject.Xv6.Files
import OsProject.Xv6.Reclaim

/-! # The counts of the inode table

`Files` has a reference count and a flag for every inode. They are those of the entries of
`itable`, and the functions on the table change both alike. -/
namespace OsProject.Xv6.InodeCounts
open Inode BlockOwnership List
open Files (Kind Node Sys)
open Function (update update_of_ne update_self update_eq_self)

variable {n : Nat} {g : Super} {fs fs' : Fs n} {s s' : Sys n} {e : Fin ninode} {i : Fin n}
  {x : Entry n} {ip : Dinode} {v : Node n}

/-- `T_DIR`, `T_FILE` and `T_DEVICE`. -/
def code : Kind → Int16
  | .free => 0
  | .dir => 1
  | .file => 2
  | .device => 3

theorem code_zero {k : Kind} : code k = 0 ↔ k = .free := by
  cases k <;> decide

def Like (ip : Dinode) (v : Node n) : Prop :=
  ip.type = code v.type ∧ (ip.type ≠ 0 → ip.nlink = v.nlink)

/-- The entries in use have the counts, and the inodes on the disk the types and links. -/
structure Counted (fs : Fs n) (s : Sys n) : Prop where
  live : ∀ e, 0 < (fs.itable e).ref → s.ref (fs.itable e).inum = (fs.itable e).ref ∧
    s.valid (fs.itable e).inum = (fs.itable e).valid
  held : ∀ i, 0 < s.ref i → ∃ e, 0 < (fs.itable e).ref ∧ (fs.itable e).inum = i
  like : ∀ i, Like (fs.dinode i) (s.ino i)

/-- Both calls succeed, with results in `P`, or both panic alike. -/
inductive Agree {α β : Type} (P : α → β → Prop) : Except Panic α → Except Files.Panic β → Prop
  | ok {a b} : P a b → Agree P (.ok a) (.ok b)
  | full : Agree P (.error .noInodes) (.error .igetFull)
  | noType : Agree P (.error .noType) (.error .noType)

theorem Agree.bind {α β γ δ : Type} {P : α → β → Prop} {Q : γ → δ → Prop} {r r' f f'}
    (h : Agree P r r') (next : ∀ a b, P a b → Agree Q (f a) (f' b)) :
    Agree Q (r >>= f) (r' >>= f') := by
  cases h with
  | ok p => exact next _ _ p
  | full => exact .full
  | noType => exact .noType

namespace Counted

theorem store (h : Counted fs s) (like : Like ip v) (j : Fin n) :
    Like (update fs.dinode i ip j) (update s.ino i v j) := by
  by_cases eq : j = i
  · rw [eq, update_self, update_self]
    exact like
  · rw [update_of_ne eq, update_of_ne eq]
    exact h.like j

/-- One entry changes, the only one of its inode before and after. -/
theorem set (h : Counted fs s) (table : fs'.itable = update fs.itable e x)
    (old : 0 < (fs.itable e).ref → (fs.itable e).inum = x.inum)
    (alone : ∀ e', e' ≠ e → 0 < (fs.itable e').ref → (fs.itable e').inum ≠ x.inum)
    (ref : s'.ref = update s.ref x.inum x.ref) (valid : s'.valid = update s.valid x.inum x.valid)
    (like : ∀ j, Like (fs'.dinode j) (s'.ino j)) : Counted fs' s' := by
  refine ⟨fun e' used => ?_, fun j used => ?_, like⟩
  · rw [table] at used ⊢
    rw [ref, valid]
    by_cases eq : e' = e
    · rw [eq, update_self, update_self, update_self]
      exact ⟨rfl, rfl⟩
    · rw [update_of_ne eq] at used ⊢
      have other := alone e' eq used
      rw [update_of_ne other, update_of_ne other]
      exact h.live e' used
  · rw [table]
    rw [ref] at used
    by_cases eq : j = x.inum
    · rw [eq, update_self] at used
      exact ⟨e, by rwa [update_self], by rw [update_self, eq]⟩
    · rw [update_of_ne eq] at used
      obtain ⟨e', used', rfl⟩ := h.held j used
      have other : e' ≠ e := by
        rintro rfl
        exact eq (old used')
      exact ⟨e', by rwa [update_of_ne other], by rw [update_of_ne other]⟩

variable (h : Counted fs s) (single : Single fs.itable)
include h single

/-- An entry in use stays with its inode. -/
theorem keep (used : 0 < (fs.itable e).ref) (table : fs'.itable = update fs.itable e x)
    (inum : x.inum = (fs.itable e).inum) (ref : s'.ref = update s.ref x.inum x.ref)
    (valid : s'.valid = update s.valid x.inum x.valid)
    (like : ∀ j, Like (fs'.dinode j) (s'.ino j)) : Counted fs' s' := by
  refine h.set table (fun _ => inum.symm) (fun e' ne used' same => ?_) ref valid like
  exact ne (single e' e used' used (same.trans inum))

/-- The table is full when as many inodes are in use as it has entries. -/
theorem full_iff : Files.ninode ≤ (Finset.univ.filter fun j => 0 < s.ref j).card ↔
    ∀ e, 0 < (fs.itable e).ref := by
  have entries : (Finset.univ.filter fun j => 0 < s.ref j) =
      (Finset.univ.filter fun e => 0 < (fs.itable e).ref).image fun e => (fs.itable e).inum := by
    ext i
    simp only [Finset.mem_filter, Finset.mem_univ, true_and, Finset.mem_image]
    refine ⟨h.held i, fun ⟨e, used, eq⟩ => ?_⟩
    rw [← eq, (h.live e used).1]
    exact used
  rw [entries, Finset.card_image_of_injOn]
  · rw [show Files.ninode = (Finset.univ : Finset (Fin ninode)).card from rfl,
      (Finset.card_filter_le ..).ge_iff_eq, Finset.card_filter_eq_iff]
    simp
  · intro e used e' used'
    exact single e e' (by simpa using used) (by simpa using used')

theorem iget (i : Fin n) :
    Agree (fun r s' => (r.2.itable r.1).inum = i ∧ Counted r.2 s') (iget fs i)
      (Files.iget s i) := by
  unfold Inode.iget Files.iget
  split
  · rename_i e found
    obtain ⟨used, rfl⟩ : 0 < (fs.itable e).ref ∧ (fs.itable e).inum = i := by
      simpa using find?_some found
    obtain ⟨ref, valid⟩ := h.live e used
    rw [if_pos (ref ▸ used), ref]
    refine .ok ⟨by simp [Fs.setEntry], h.keep single used rfl rfl rfl ?_ h.like⟩
    rw [← valid, update_eq_self]
  · rename_i absent
    have unused : ∀ e', 0 < (fs.itable e').ref → (fs.itable e').inum ≠ i := by
      intro e' used same
      have := find?_eq_none.1 absent e' (mem_finRange e')
      simp [used, same] at this
    rw [if_neg fun pos => (h.held i pos).elim fun e' used => unused e' used.1 used.2]
    split
    · rename_i e found
      have free : (fs.itable e).ref = 0 := by simpa using find?_some found
      rw [if_neg fun full => ((h.full_iff single).1 full e).ne' free]
      exact .ok ⟨by simp [Fs.setEntry], h.set rfl (fun used => absurd free used.ne')
        (fun e' _ => unused e') rfl rfl h.like⟩
    · rename_i none
      rw [if_pos ((h.full_iff single).2 fun e => Nat.pos_of_ne_zero (by
        simpa using find?_eq_none.1 none e (mem_finRange e)))]
      exact .full

theorem ialloc (type : Kind) :
    Agree (fun r r' => r.1.map (fun e => (r.2.itable e).inum) = r'.1 ∧ Counted r.2 r'.2)
      (ialloc fs (code type)) (Files.ialloc s type) := by
  have same : (fun i : Fin n => decide (1 ≤ i.val ∧ (fs.dinode i).type = 0)) =
      fun i => decide (1 ≤ i.val ∧ (s.ino i).type = .free) := by
    funext i
    simp only [(h.like i).1, code_zero]
  unfold Inode.ialloc Files.ialloc
  rw [same]
  cases (List.finRange n).find? fun i => decide (1 ≤ i.val ∧ (s.ino i).type = .free) with
  | none => exact .ok ⟨rfl, h⟩
  | some i =>
    have new : Counted
        { fs with dinode := update fs.dinode i { Dinode.zero with type := code type } }
        (s.setNode i ⟨type, 0, 0, 0, [], []⟩) :=
      ⟨h.live, h.held, h.store ⟨rfl, fun _ => rfl⟩⟩
    exact (new.iget single i).bind fun r s' ⟨inum, h'⟩ => .ok ⟨congrArg some inum, h'⟩

theorem ilock (used : 0 < (fs.itable e).ref) :
    Agree Counted (ilock fs e) (Files.ilock s (fs.itable e).inum) := by
  obtain ⟨ref, valid⟩ := h.live e used
  unfold Inode.ilock Files.ilock
  rw [ref, valid]
  dsimp only
  rw [if_neg (not_lt.2 used), if_neg (not_lt.2 used)]
  split
  · exact .ok h
  · simp only [(h.like _).1, code_zero]
    split
    · exact .noType
    · refine .ok (h.keep single used rfl rfl ?_ rfl h.like)
      rw [← ref, update_eq_self]

omit single

/-- `iput` does not panic. -/
theorem iput (c : Consistent g fs) (used : 0 < (fs.itable e).ref) :
    ∃ fs', iput fs e = .ok fs' ∧ Counted fs' (Files.iput s (fs.itable e).inum) := by
  obtain ⟨ref, valid⟩ := h.live e used
  have last : ((fs.itable e).ref = 1 ∧ (fs.itable e).valid = true ∧
      (s.ino (fs.itable e).inum).nlink = 0) ↔
      (fs.itable e).ref = 1 ∧ (fs.itable e).valid = true ∧ (fs.itable e).ip.nlink = 0 := by
    refine and_congr_right fun _ => and_congr_right fun loaded => ?_
    obtain ⟨copy, typed⟩ := c.synced e used loaded
    rw [copy, (h.like _).2 typed]
  unfold Inode.iput Files.iput
  rw [ref, valid]
  dsimp only
  simp only [last]
  split
  · rename_i freed
    obtain ⟨copy, typed⟩ := c.synced e used freed.2.1
    obtain ⟨d, ip, cut, -⟩ := Reclaim.itrunc_ok c.owns typed
    unfold iputFree
    rw [copy, cut]
    refine ⟨_, rfl, ?_⟩
    simp only [iupdate_setIp, Fs.setEntry, update_self, Function.update_idem]
    refine h.keep c.single used rfl rfl ?_ rfl (h.store ⟨rfl, absurd rfl⟩)
    rw [freed.1]
  · refine ⟨_, rfl, h.keep c.single used rfl rfl rfl ?_ h.like⟩
    rw [← valid, update_eq_self]

end Counted
end OsProject.Xv6.InodeCounts
