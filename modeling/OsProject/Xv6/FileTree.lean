import OsProject.Xv6.LinkCounts

/-! # The tree of files

What the link counts and the entries of directories say of each other in every
state between system calls, from an image whose only directory is the root. -/
namespace OsProject.Xv6.FileTree
open Lib.Outcome Lib.Transition Lib List
open Files LinkGraph References LinkCounts
open Function (update update_of_ne update_self)

variable {n : Nat} [NeZero n] {s s0 s' : Sys n} {ino : Fin n → Node n} {i d : Fin n}

/-- Open in some process, or its current directory. -/
def InUse (s : Sys n) (i : Fin n) : Prop := ∃ k, holder s k = some i

inductive Reachable (ino : Fin n → Node n) : Fin n → Prop
  | root : Reachable ino rootino
  | entry {d : Fin n} {e : Dirent n} : Reachable ino d → (ino d).type = .dir → e ∈ (ino d).slots →
      e.inum ≠ 0 → Reachable ino e.inum

/-- The entries of all directories that name `i`. -/
def entries (ino : Fin n → Node n) (i : Fin n) : Nat :=
  ∑ d, if (ino d).type = .dir then (ino d).slots.countP fun e => e.inum = i else 0

/-- The entries of `d` for directories, without `.` and `..`. -/
def subdirectories (ino : Fin n → Node n) (d : Fin n) : Nat :=
  ∑ i, if (ino i).type = .dir then names (ino d) i else 0

/-- No entry other than `.` and `..` names the directory `d`. -/
def Removed (ino : Fin n → Node n) (d : Fin n) : Prop := d ≠ rootino ∧ ∀ p, names (ino p) d = 0
  deriving Decidable

structure Holds (s : Sys n) : Prop where
  reachable : ∀ i, (s.ino i).type ≠ .free → Reachable s.ino i ∨ (s.ino i).nlink = 0 ∧ InUse s i
  files : ∀ i, (s.ino i).type ≠ .free → (s.ino i).type ≠ .dir →
    (s.ino i).nlink.toInt = entries s.ino i
  dirs : ∀ d, (s.ino d).type = .dir → if Removed s.ino d then (s.ino d).nlink = 0
    else (s.ino d).nlink.toInt = 1 + subdirectories s.ino d

/-! ## From the hierarchy -/

theorem mem_of_names {x} (h : names x i ≠ 0) : ∃ e ∈ x.slots, e.inum = i ∧ i ≠ 0 := by
  unfold names at h
  split at h
  · exact absurd rfl h
  rename_i hi
  obtain ⟨e, mem, eq⟩ := countP_pos_iff.1 (Nat.pos_of_ne_zero h)
  exact ⟨e, mem_of_mem_drop mem, of_decide_eq_true eq, hi⟩

theorem reachable_of_reach (graph : Graph ino) (h : Hierarchy.Reach (view ino).edge rootino i) :
    Reachable ino i := by
  induction h with
  | root => exact .root
  | step _ edge ih =>
    obtain ⟨dir, -, -⟩ := graph.sound.edge _ _ edge
    obtain ⟨e, mem, rfl, hi⟩ := mem_of_names edge
    exact .entry ih (kindOf_dir.1 dir) mem hi

/-- The entries for a file that no `..` names. -/
theorem entries_eq_links (formed : ∀ d, Formed d (ino d)) (hi : i ≠ 0) (plain : (ino i).type ≠ .dir)
    (above : ∀ d, (ino d).type = .dir → up (ino d) ≠ i) :
    entries ino i = Hierarchy.links (view ino).edge i := by
  refine Finset.sum_congr rfl fun d _ => ?_
  show _ = names (ino d) i
  split
  · rename_i dir
    have self : d ≠ i := by
      rintro rfl
      exact plain dir
    obtain ⟨rest, dots⟩ := (formed d).dots dir
    have other := above d dir
    unfold names
    rw [if_neg hi, dots]
    simp only [drop_succ_cons, drop_zero, countP_cons, self, other, decide_false,
      Bool.false_eq_true, if_false, add_zero]
  · rename_i notdir
    exact (names_nil ((formed d).plain notdir)).symm

/-- No `..` names a file. -/
theorem up_ne_file (graph : Graph ino) (used : (ino i).type ≠ .free) (plain : (ino i).type ≠ .dir)
    (dir : (ino d).type = .dir) : up (ino d) ≠ i := by
  intro eq
  by_cases zero : (ino d).nlink = 0
  · refine graph.sound.lost d (kindOf_dir.2 dir) (toInt_eq_zero.2 zero) ?_
    rw [show (view ino).up d = i from eq]
    exact kindOf_leaf used plain
  · obtain ⟨isdir, -, -⟩ := graph.sound.up d (kindOf_dir.2 dir) fun eq => zero (toInt_eq_zero.1 eq)
    rw [show (view ino).up d = i from eq] at isdir
    exact plain (kindOf_dir.1 isdir)

theorem removed_iff (graph : Graph ino) (dir : (ino d).type = .dir) :
    Removed ino d ↔ (ino d).nlink = 0 := by
  have once := graph.sound.once d (kindOf_dir.2 dir)
  have count : (view ino).count d = 0 ↔ (ino d).nlink = 0 := toInt_eq_zero
  constructor
  · rintro ⟨nonroot, none⟩
    by_contra linked
    rw [if_neg (not_or.2 ⟨nonroot, fun eq => linked (count.1 eq)⟩)] at once
    have zero : Hierarchy.links (view ino).edge d = 0 := Finset.sum_eq_zero fun p _ => none p
    omega
  · intro zero
    rw [if_pos (.inr (count.2 zero))] at once
    refine ⟨?_, fun p => Finset.sum_eq_zero_iff.1 once p (Finset.mem_univ p)⟩
    rintro rfl
    exact graph.sound.base.2.1 (toInt_eq_zero.2 zero)

theorem subdirectories_eq : subdirectories ino d = Hierarchy.subdirs (view ino) d := by
  refine Finset.sum_congr rfl fun i _ => ?_
  exact if_congr kindOf_dir.symm rfl rfl

/-- A file has its links from directories that have links. -/
theorem file_reach (graph : Graph ino) (used : (ino i).type ≠ .free) (plain : (ino i).type ≠ .dir)
    (linked : (ino i).nlink ≠ 0) : Hierarchy.Reach (view ino).edge rootino i := by
  have count := graph.sound.leaf i (kindOf_leaf used plain)
  have some_link : Hierarchy.links (view ino).edge i ≠ 0 := by
    intro zero
    rw [zero] at count
    exact linked (toInt_eq_zero.1 count)
  obtain ⟨d, -, edge⟩ := Finset.exists_ne_zero_of_sum_ne_zero some_link
  obtain ⟨dir, present, -⟩ := graph.sound.edge d i edge
  exact .step (graph.sound.reach d dir present) edge

theorem holds_of_inv (h : Inv s) : Holds s where
  reachable i used := by
    have graph := h.good.graph
    by_cases zero : (s.ino i).nlink = 0
    · exact .inr ⟨zero, holder_of_held (h.good.acc.anchored i used zero)⟩
    refine .inl (reachable_of_reach graph ?_)
    by_cases dir : (s.ino i).type = .dir
    · exact graph.sound.reach i (kindOf_dir.2 dir) fun eq => zero (toInt_eq_zero.1 eq)
    · exact file_reach graph used dir zero
  files i used plain := by
    have graph := h.good.graph
    rw [entries_eq_links graph.formed (ne_zero_of_used (graph.formed i) used) plain
      fun d => up_ne_file graph used plain]
    exact graph.sound.leaf i (kindOf_leaf used plain)
  dirs d dir := by
    have graph := h.good.graph
    rw [subdirectories_eq]
    split
    · rename_i removed
      exact (removed_iff graph dir).1 removed
    · rename_i present
      rw [removed_iff graph dir] at present
      exact graph.sound.dir d (kindOf_dir.2 dir) fun eq => present (toInt_eq_zero.1 eq)

/-! ## The start -/

/-- A file system whose only directory is the root, and the kernel when it has started
the first process. -/
structure Image (s : Sys n) : Prop where
  formed : ∀ i, Formed i (s.ino i)
  only : ∀ i, (s.ino i).type = .dir ↔ i = rootino
  top : up (s.ino rootino) = rootino
  named : ∀ i, names (s.ino rootino) i ≠ 0 → (s.ino i).type ≠ .free ∧ i ≠ rootino
  holds : Holds s
  proc : s.proc = update (fun _ => none) ⟨0, by decide⟩ (some ⟨rootino, fun _ => none⟩)
  ftable : ∀ f, (s.ftable f).ref = 0 ∧ (s.ftable f).type = .none
  ref : ∀ i, s.ref i = if i = rootino then 1 else 0

namespace Image

variable (h : Image s)
include h

theorem names_root (edge : names (s.ino d) i ≠ 0) : d = rootino := by
  by_contra other
  have plain := mt (h.only d).1 other
  exact edge (names_nil ((h.formed d).plain plain))

theorem root_count : (s.ino rootino).nlink.toInt = 1 + Hierarchy.subdirs (view s.ino) rootino := by
  have dirs := h.holds.dirs rootino ((h.only _).2 rfl)
  rw [if_neg fun removed => removed.1 rfl, subdirectories_eq] at dirs
  exact dirs

theorem graph : Graph s.ino := by
  have root_dir : (view s.ino).kind rootino = .dir := kindOf_dir.2 ((h.only _).2 rfl)
  have root_count : (view s.ino).count rootino = _ := h.root_count
  have present : (view s.ino).count rootino ≠ 0 := by omega
  have dir_root : ∀ {d}, (view s.ino).kind d = .dir → d = rootino :=
    fun dir => (h.only _).1 (kindOf_dir.1 dir)
  refine ⟨h.formed, ⟨root_dir, present, h.top⟩, fun d i edge => ?_, fun i leaf => ?_,
    fun d dir _ => ?_, fun d dir => ?_, fun d dir _ => ?_, fun d dir zero => ?_, fun d dir _ => ?_⟩
  · obtain rfl := h.names_root edge
    exact ⟨root_dir, present, mt kindOf_free.1 (h.named i edge).1⟩
  · have used : (s.ino i).type ≠ .free := by
      intro free
      rw [show (view s.ino).kind i = .free from kindOf_free.2 free] at leaf
      exact nomatch leaf
    have plain : (s.ino i).type ≠ .dir := by
      intro dir
      rw [show (view s.ino).kind i = .dir from kindOf_dir.2 dir] at leaf
      exact nomatch leaf
    have files := h.holds.files i used plain
    rw [entries_eq_links h.formed (ne_zero_of_used (h.formed i) used) plain fun d dir => ?_]
      at files
    · exact files
    · obtain rfl := (h.only d).1 dir
      rw [h.top]
      rintro rfl
      exact plain dir
  · obtain rfl := dir_root dir
    exact root_count
  · obtain rfl := dir_root dir
    rw [if_pos (.inl rfl)]
    refine Finset.sum_eq_zero fun p _ => ?_
    by_contra edge
    obtain rfl := h.names_root edge
    exact (h.named _ edge).2 rfl
  · obtain rfl := dir_root dir
    rw [show (view s.ino).up rootino = rootino from h.top]
    exact ⟨root_dir, present, .inl rfl⟩
  · obtain rfl := dir_root dir
    exact absurd zero present
  · obtain rfl := dir_root dir
    exact .root

theorem holder_eq (k : Fin nproc ⊕ Fin nfile) :
    holder s k = if k = .inl ⟨0, by decide⟩ then some rootino else none := by
  cases k with
  | inl p =>
    rw [holder, h.proc]
    by_cases hp : p = ⟨0, by decide⟩
    · rw [hp, update_self, if_pos rfl]
      rfl
    · rw [update_of_ne hp, if_neg fun eq => hp (Sum.inl.inj eq)]
      rfl
  | inr f => rw [holder, if_neg fun both => both.2 (h.ftable f).2, if_neg Sum.inr_ne_inl]

theorem held_eq (i : Fin n) : held s i = if i = rootino then 1 else 0 := by
  unfold held
  by_cases hi : i = rootino
  · have one : ∀ k, holder s k = some i ↔ k = .inl ⟨0, by decide⟩ := by
      intro k
      rw [h.holder_eq, hi]
      split
      · rename_i hk
        simp only [hk]
      · rename_i hk
        constructor
        · intro eq
          cases eq
        · intro eq
          exact absurd eq hk
    simp only [one, Finset.sum_ite_eq', Finset.mem_univ, if_true, if_pos hi]
  · rw [if_neg hi]
    refine Finset.sum_eq_zero fun k _ => if_neg fun eq => ?_
    rw [h.holder_eq] at eq
    split at eq
    · exact hi (Option.some.inj eq).symm
    · cases eq

/-- There is a link to every file. -/
theorem linked (used : (s.ino i).type ≠ .free) : (s.ino i).nlink ≠ 0 := by
  intro zero
  by_cases dir : (s.ino i).type = .dir
  · obtain rfl := (h.only i).1 dir
    have := h.root_count
    have := toInt_eq_zero.2 zero
    omega
  have none : entries s.ino i = 0 := by
    have files := h.holds.files i used dir
    have := toInt_eq_zero.2 zero
    omega
  rcases h.holds.reachable i used with reachable | ⟨-, k, user⟩
  · cases reachable with
    | root => exact dir ((h.only _).2 rfl)
    | @entry d e _ isdir mem _ =>
      have here := Finset.sum_eq_zero_iff.1 none d (Finset.mem_univ d)
      rw [if_pos isdir, countP_eq_zero] at here
      exact here e mem (decide_eq_true rfl)
  · rw [h.holder_eq] at user
    split at user
    · exact dir ((h.only i).2 (Option.some.inj user).symm)
    · cases user

theorem inv : Inv s := by
  have root_used : (s.ino rootino).type ≠ .free := by
    rw [(h.only _).2 rfl]
    exact nofun
  refine ⟨⟨h.graph, fun i => ?_, fun i used zero => absurd zero (h.linked used), fun i pos _ => ?_,
    fun i pos => ?_⟩, fun f _ => (h.ftable f).2⟩
  · rw [h.ref, h.held_eq, count_nil, add_zero]
  · rw [h.ref] at pos
    split at pos
    · rename_i hi
      rw [hi]
      exact root_used
    · exact absurd pos (lt_irrefl 0)
  · rw [h.held_eq] at pos
    split at pos
    · rename_i hi
      rw [hi]
      exact root_used
    · exact absurd pos (lt_irrefl 0)

end Image

/-! ## Runs -/

/-- A call that completes. -/
def fileStep (s : Sys n) (e : Fin nproc × Call n) : Option (Sys n) := (step s e).toOption

theorem run_inv {t} (image : Image s0)
    (h : Run (When (ByStep fileStep) Orderly) s0 t s) : Inv s := by
  refine h.keeps image.inv fun s e s' inv ⟨done, orderly⟩ => step_inv inv orderly ?_
  unfold ByStep fileStep at done
  cases result : step s e with
  | ok s'' =>
    rw [result] at done
    exact congrArg _ (Option.some.inj done)
  | error e =>
    rw [result] at done
    exact nomatch done

theorem links_counted {t : List (Fin nproc × Call n)} (image : Image s0)
    (h : Run (When (ByStep fileStep) Orderly) s0 t s) :
    Holds s ∧ ∀ p pr path, s.proc p = some pr → sysUnlink s pr.cwd path ≠ .error .unlinkNlink := by
  have inv := run_inv image h
  refine ⟨holds_of_inv inv, fun p pr path caller panic => ?_⟩
  have spec := sysUnlink_spec inv.good (inv.good.acc.used (held_pos (holder_cwd caller))) path
  rw [panic] at spec
  exact spec rfl

/-! ## A disk with four inodes -/

def emptyRoot : Sys 4 where
  ino := update (fun _ => ⟨.free, 0, 0, 0, [], []⟩) 1
    ⟨.dir, 0, 0, 1, [⟨1, [dot]⟩, ⟨1, [dot, dot]⟩], []⟩
  ref i := if i = 1 then 1 else 0
  valid _ := false
  ftable _ := ⟨.none, 0, false, false, 0, 0, 0⟩
  proc := update (fun _ => none) ⟨0, by decide⟩ (some ⟨1, fun _ => none⟩)

theorem emptyRoot_only : ∀ i, (emptyRoot.ino i).type ≠ .free → i = 1 := by decide +kernel

theorem emptyRoot_formed (i : Fin 4) : Formed i (emptyRoot.ino i) := by
  by_cases hi : i = 1
  · subst hi
    exact ⟨nofun, fun plain => absurd rfl plain, fun _ => ⟨[], rfl⟩, fun _ => by decide, by decide⟩
  · have free := mt (emptyRoot_only i) hi
    rw [not_not] at free
    have bare : (emptyRoot.ino i).slots = [] := by
      revert i
      decide +kernel
    refine ⟨fun _ => free, fun _ => bare, fun dir => ?_, fun dir => ?_, ?_⟩
    · rw [free] at dir
      exact nomatch dir
    · rw [free] at dir
      exact nomatch dir
    · rw [bare]
      exact zero_le

theorem emptyRoot_image : Image emptyRoot where
  formed := emptyRoot_formed
  only := by decide +kernel
  top := by decide +kernel
  named := by decide +kernel
  holds := by
    refine ⟨fun i used => ?_, fun i used plain => ?_, by decide +kernel⟩
    · rw [emptyRoot_only i used]
      exact .inl .root
    · rw [emptyRoot_only i used] at plain
      exact absurd rfl plain
  proc := rfl
  ftable _ := ⟨rfl, rfl⟩
  ref := by decide +kernel

/-- The first process. -/
abbrev initp : Fin nproc := ⟨0, by decide⟩

/-- A file with two links, one of them in a new directory, is opened and loses one link. -/
theorem links_counted_link : ∃ t s, Run (When (ByStep fileStep) Orderly) emptyRoot t s ∧
    (s.ino 3).type = .file ∧ (s.ino 3).nlink = 1 ∧ (s.ino 1).nlink = 2 ∧ Holds s ∧
    ∀ path, sysUnlink s 1 path ≠ .error .unlinkNlink := by
  obtain ⟨s, run, type, nlink, root, pr, caller, cwd⟩ := foldlM_reaches_when
    fileStep emptyRoot Orderly
    [(initp, .mkdir (some [100]) fun _ => true), (initp, .open (some [102]) 0x202 fun _ => true),
      (initp, .link (some [102]) (some [100, 47, 103]) true), (initp, .unlink (some [102]))]
    (P := fun s => (s.ino 3).type = .file ∧ (s.ino 3).nlink = 1 ∧ (s.ino 1).nlink = 2 ∧
      ∃ pr ∈ s.proc initp, pr.cwd = 1) (by decide +kernel)
  obtain ⟨holds, safe⟩ := links_counted emptyRoot_image run
  exact ⟨_, s, run, type, nlink, root, holds, fun path => cwd ▸ safe initp pr path caller⟩

/-- What is closed under entries holds what is reachable. -/
theorem Reachable.within {P : Fin n → Prop} (h : Reachable ino i) (root : P rootino)
    (closed : ∀ d, P d → ∀ e ∈ (ino d).slots, e.inum ≠ 0 → P e.inum) : P i := by
  induction h with
  | root => exact root
  | entry _ _ mem used ih => exact closed _ ih _ mem used

/-- A file made in a directory that was removed: it has a count of one, but no entry
names it when the directory is freed, and it is not in use. -/
theorem orphan_not_counted : Image emptyRoot ∧ ∃ t s, Run (ByStep fileStep) emptyRoot t s ∧
    (s.ino 3).type = .file ∧ (s.ino 3).nlink = 1 ∧ entries s.ino 3 = 0 ∧
    ¬ Reachable s.ino 3 ∧ ¬ InUse s 3 := by
  obtain ⟨s, run, type, nlink, none, closed, unused⟩ := foldlM_reaches fileStep emptyRoot
    [(initp, .mkdir (some [100]) fun _ => true), (initp, .chdir (some [100])),
      (initp, .unlink (some [46, 46, 47, 100])), (initp, .open (some [102]) 0x201 fun _ => true),
      (initp, .close 0), (initp, .chdir (some [47]))]
    (P := fun s => (s.ino 3).type = .file ∧ (s.ino 3).nlink = 1 ∧ entries s.ino 3 = 0 ∧
      (∀ d, d = 1 → ∀ e ∈ (s.ino d).slots, e.inum ≠ 0 → e.inum = 1) ∧ ¬ ∃ k, holder s k = some 3)
      (by decide +kernel)
  refine ⟨emptyRoot_image, _, s, run, type, nlink, none, fun reachable => ?_, unused⟩
  exact absurd (reachable.within (P := fun i => i = 1) rfl closed) (by decide)

end OsProject.Xv6.FileTree
