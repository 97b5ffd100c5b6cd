import OsProject.Xv6.BlockOwnership
import OsProject.Xv6.CrashAtomicity

/-! # Orphans at boot

An inode that was unlinked while it was open stays allocated without links if the machine crashes
before it is closed. After the recovery of the log, `ireclaim` frees these inodes, each in a
transaction of its own, so the machine may crash again on the way. -/
namespace OsProject.Xv6.Reclaim
open Lib.Outcome Lib.Transition Inode BlockOwnership List
open CrashAtomicity (Formatted closed durable recovered_prefix)
open Function (update update_of_ne update_self update_idem)

variable {n : Nat} {g : Super} {fs fs' fs0 : Fs n} {e : Fin ninode} {i : Fin n}

def Orphan (ip : Dinode) : Prop := ip.type ≠ 0 ∧ ip.nlink = 0
  deriving Decidable

/-- One round of `ireclaim`. -/
def reclaimOne (fs : Fs n) (i : Fin n) : Except Panic (Fs n) :=
  if Orphan (fs.dinode i) then do
    let (e, fs) ← iget fs i
    let fs ← ilock fs e
    iput fs e
  else .ok fs

/-- The inode numbers from 1 on. -/
def inums (n : Nat) : List (Fin n) := (List.finRange n).filter fun i => 1 ≤ i.val

def ireclaim (fs : Fs n) : Except Panic (Fs n) := (inums n).foldlM reclaimOne fs

/-! ## Crashes -/

/-- What is on the disk when a transaction has been closed. -/
structure Snap (n : Nat) where
  disk : Disk
  dinode : Fin n → Dinode

def Snap.of (fs : Fs n) : Snap n := ⟨fs.disk, fs.dinode⟩

/-- The file system when the log has been recovered: nothing is in memory. -/
def recovered [NeZero n] (x : Snap n) : Fs n where
  disk := x.disk
  dinode := x.dinode
  itable _ := { ref := 0, inum := ⟨0, Nat.pos_of_neZero n⟩, valid := false, ip := .zero }

/-- The file system as the kernel sees it, what the disk was after each transaction since the
last recovery, and the inodes that `ireclaim` has before it. -/
structure Sys (n : Nat) where
  fs : Fs n
  closed : List (Snap n)
  scan : List (Fin n)

inductive Ev (n : Nat) where
  | call (c : Call n)
  | close
  /-- and a recovery, to the first `k` of the transactions -/
  | crash (k : Nat)
  | reclaim

def boot [NeZero n] (x : Snap n) : Sys n := ⟨recovered x, [x], inums n⟩

/-- A transaction is closed between two calls on inodes. Each round of `ireclaim` is one. -/
def step [NeZero n] (g : Super) (s : Sys n) : Ev n → Option (Sys n)
  | .call c =>
    if s.scan = [] ∧ Held s.fs c then (call g s.fs c).toOption.map fun fs =>
      { s with fs := fs } else none
  | .close => some { s with closed := s.closed ++ [Snap.of s.fs] }
  | .crash k => s.closed[k]?.map boot
  | .reclaim =>
    match s.scan with
    | [] => none
    | i :: scan => (reclaimOne s.fs i).toOption.map fun fs => ⟨fs, s.closed ++ [Snap.of fs], scan⟩

/-- A crash with its recovery in the log is a `crash k`, if the home blocks show the snapshots:
those of the last recovery with the first `k` transactions since then show the `k`th one. -/
theorem crash_recovers [NeZero n] {area : Log.LogArea} {disk t1 t2 s1 s2}
    (formatted : Formatted area disk)
    (before : Run (Log.LogStep area) (Log.powerOff disk) (.recovered :: t1) s1)
    (run : Run (Log.LogStep area) s1 (.recovered :: t2) s2) (within : ∀ e ∈ t2, e ≠ .recovered)
    {Shows : (UInt32 → Bio.Block) → Snap n → Prop}
    (home : ∀ {d d' x}, Log.Agree area d d' → Shows d' x → Shows d x)
    (g : Super) (s : Sys n) (each : s.closed.length = (closed t2).length + 1)
    (shows : ∀ k (lt : k < s.closed.length),
      Shows (Lib.Redo.apply s1.dev.disk ((closed t2).take k).flatten) s.closed[k]) :
    ∃ k x, durable t2 ≤ k ∧ step g s (.crash k) = some (boot x) ∧ Shows s2.dev.disk x := by
  obtain ⟨k, le, last, agree⟩ := recovered_prefix formatted before run within
  have lt : k < s.closed.length := by omega
  have crash : step g s (.crash k) = some (boot s.closed[k]) :=
    congrArg (Option.map boot) (getElem?_eq_getElem lt)
  exact ⟨k, s.closed[k], last, crash, home agree (shows k lt)⟩

/-- What `ireclaim` owes: the orphans are free and so are their blocks, and nothing else is
changed. -/
structure Reclaimed (g : Super) (fs fs' : Fs n) : Prop where
  none : ∀ i, ¬ Orphan (fs'.dinode i)
  freed : ∀ i, Orphan (fs.dinode i) → (fs'.dinode i).type = 0 ∧
    ∀ p, addrAt fs.disk.block (fs.dinode i) p ≠ 0 →
    fs'.disk.bit (addrAt fs.disk.block (fs.dinode i) p) = false
  kept : ∀ i, ¬ Orphan (fs.dinode i) → fs'.dinode i = fs.dinode i
  contents : fs'.disk.block = fs.disk.block
  marks : ∀ b ∈ g.data, (∀ i p, Orphan (fs.dinode i) → addrAt fs.disk.block (fs.dinode i) p ≠ b) →
    fs'.disk.bit b = fs.disk.bit b

/-! ## One round -/

/-- Nobody refers to an inode. -/
structure Quiet (g : Super) (fs : Fs n) : Prop where
  consistent : Consistent g fs
  unused : ∀ e, (fs.itable e).ref = 0

theorem itrunc_fails (d : Disk) (ip : Dinode) :
    Ends (fun p => p = .freeingFree) (itrunc d ip) fun _ => True := by
  have free : ∀ (d : Disk) (b : UInt32), Ends (fun p => p = Panic.freeingFree) (bfree d b) fun _ =>
      True := by
    intro d b
    unfold bfree
    split
    · trivial
    · rfl
  refine .bind (Q := fun _ => True)
    (.foldlM (I := fun _ _ => True) trivial fun _ k _ s _ _ => ?_) fun s _ => ?_
  · unfold truncDirect
    split
    · trivial
    · exact (free _ _).bind fun _ _ => trivial
  · dsimp only
    split
    · trivial
    · refine .bind (Q := fun _ => True)
        (.foldlM (I := fun _ _ => True) trivial fun _ j _ s _ _ => ?_) fun d _ => ?_
      · unfold truncEntry
        split
        · trivial
        · exact free _ _
      · exact (free _ _).bind fun _ _ => trivial

/-- `itrunc` of an inode whose blocks are accounted for does not panic. -/
theorem itrunc_ok {d ino} (h : Owns g d ino) (live : (ino i).type ≠ 0) :
    ∃ d' ip, itrunc d (ino i) = .ok (d', ip) ∧ Owns g d' (update ino i ip) ∧ d'.block = d.block ∧
      ∀ k, ip.addrs k = 0 := by
  have spec := itrunc_spec h live
  have fails := itrunc_fails d (ino i)
  cases ran : itrunc d (ino i) with
  | ok r =>
    rw [ran] at spec
    obtain ⟨owns, block, -, -, zero⟩ := spec
    exact ⟨r.1, r.2, rfl, owns, block, zero⟩
  | error p =>
    rw [ran] at spec fails
    exact absurd fails spec

theorem iget_quiet (q : Quiet g fs) (i : Fin n) : ∃ e x, iget fs i = .ok (e, fs.setEntry e x) ∧
    x.inum = i ∧ x.ref = 1 ∧ x.valid = false := by
  have unused := q.unused
  unfold iget
  split
  · rename_i e found
    have live := find?_some found
    rw [decide_eq_true_iff, unused e] at live
    exact absurd live.1 (lt_irrefl 0)
  · split
    · rename_i e found
      exact ⟨e, _, rfl, rfl, rfl, rfl⟩
    · rename_i none
      have first := find?_eq_none.1 none ⟨0, by decide⟩ (mem_finRange _)
      rw [decide_eq_true_iff] at first
      exact absurd (unused _) first

theorem reclaimOne_consistent (h : Consistent g fs) (i : Fin n) :
    Ends Spared (reclaimOne fs i) (Consistent g) := by
  unfold reclaimOne
  split
  · refine (iget_spec h i).bind fun ⟨e, fs1⟩ h1 => ?_
    exact (ilock_spec h1).bind fun fs2 ⟨h2, live, _⟩ => iput_spec h2 live
  · exact h

/-- The inode of an entry is free, with its blocks, and the entry is unused. -/
def freedAt (fs : Fs n) (e : Fin ninode) (x : Entry n) (d : Disk) (ip : Dinode) : Fs n where
  disk := d
  dinode := update fs.dinode x.inum { ip with type := 0 }
  itable := update fs.itable e { x with ip := { ip with type := 0 }, valid := false, ref := 0 }

/-- An orphan is freed. -/
theorem reclaimOne_orphan (q : Quiet g fs) (orphan : Orphan (fs.dinode i)) :
    ∃ fs' ip, reclaimOne fs i = .ok fs' ∧
    fs'.disk.block = fs.disk.block ∧ (∀ e, (fs'.itable e).ref = 0) ∧ ip.type = 0 ∧
      fs'.dinode = update fs.dinode i ip := by
  obtain ⟨e, x, got, rfl, ref, valid⟩ := iget_quiet q i
  obtain ⟨d, ip, cut, -, block, -⟩ := itrunc_ok q.consistent.owns orphan.1
  have lock : ilock (fs.setEntry e x) e =
      .ok (fs.setEntry e { x with ip := fs.dinode x.inum, valid := true }) := by
    unfold ilock
    simp only [Fs.setEntry, update_self, update_idem, ref, valid, lt_irrefl, if_false,
      Bool.false_eq_true, orphan.1]
  have put : iput (fs.setEntry e { x with ip := fs.dinode x.inum, valid := true }) e =
      .ok (freedAt fs e x d ip) := by
    unfold iput
    simp only [Fs.setEntry, update_self, ref, orphan.2, and_self, if_true]
    unfold iputFree
    simp only [update_self, cut, bind, Except.bind, iupdate_setIp, pure, Except.pure, Fs.setEntry,
      update_idem, Nat.sub_self]
    rfl
  refine ⟨freedAt fs e x d ip, { ip with type := 0 }, ?_, block, fun e' => ?_, rfl, rfl⟩
  · unfold reclaimOne
    rw [if_pos orphan, got]
    show (ilock (fs.setEntry e x) e).bind _ = _
    rw [lock]
    exact put
  · unfold freedAt
    dsimp only
    by_cases eq : e' = e
    · rw [eq, update_self]
    · rw [update_of_ne eq]
      exact q.unused e'

/-- A round does not fail, and frees the inode if it is an orphan. -/
theorem reclaimOne_spec (q : Quiet g fs) (i : Fin n) :
    ∃ fs', reclaimOne fs i = .ok fs' ∧ Quiet g fs' ∧
    fs'.disk.block = fs.disk.block ∧ (∀ j, j ≠ i → fs'.dinode j = fs.dinode j) ∧
    (Orphan (fs.dinode i) → (fs'.dinode i).type = 0) ∧
    (¬ Orphan (fs.dinode i) → fs'.dinode i = fs.dinode i) := by
  have ends := reclaimOne_consistent q.consistent i
  by_cases orphan : Orphan (fs.dinode i)
  · obtain ⟨fs', ip, ran, block, unused, free, eq⟩ := reclaimOne_orphan q orphan
    refine ⟨fs', ran, ⟨ends.of_ok ran, unused⟩, block, fun j ne => ?_, fun _ => ?_, absurd orphan⟩
    · rw [eq, update_of_ne ne]
    · rw [eq, update_self]
      exact free
  · have ran : reclaimOne fs i = .ok fs := if_neg orphan
    exact ⟨fs, ran, q, rfl, fun _ _ => rfl, fun yes => absurd yes orphan, fun _ => rfl⟩

/-! ## All rounds -/

/-- After the rounds for the inodes in `done`. -/
structure Scanned (g : Super) (fs fs' : Fs n) (done : List (Fin n)) : Prop where
  quiet : Quiet g fs'
  block : fs'.disk.block = fs.disk.block
  freed : ∀ i ∈ done, Orphan (fs.dinode i) → (fs'.dinode i).type = 0
  kept : ∀ i, (Orphan (fs.dinode i) → i ∉ done) → fs'.dinode i = fs.dinode i

theorem Scanned.next {done} (s : Scanned g fs fs' done) (new : i ∉ done) :
    ∃ fs'', reclaimOne fs' i = .ok fs'' ∧ Scanned g fs fs'' (done ++ [i]) := by
  obtain ⟨fs'', ran, quiet, block, others, freed, kept⟩ := reclaimOne_spec s.quiet i
  have same : fs'.dinode i = fs.dinode i := s.kept i fun _ => new
  rw [same] at freed kept
  refine ⟨fs'', ran, quiet, block.trans s.block, fun j mem orphan => ?_, fun j out => ?_⟩
  · by_cases eq : j = i
    · subst eq
      exact freed orphan
    · rw [others j eq]
      exact s.freed j ((mem_append.1 mem).resolve_right fun last => eq (mem_singleton.1 last))
        orphan
  · by_cases eq : j = i
    · subst eq
      exact kept fun orphan => out orphan (mem_append_right done (mem_singleton_self j))
    · rw [others j eq]
      exact s.kept j fun orphan mem => out orphan (mem_append_left _ mem)

theorem scan_all (q : Quiet g fs) (l : List (Fin n)) (nodup : l.Nodup) :
    ∃ fs', l.foldlM reclaimOne fs = .ok fs' ∧ Scanned g fs fs' l := by
  have loop : ∀ (rest done : List (Fin n)) (fs1 : Fs n), (done ++ rest).Nodup →
    Scanned g fs fs1 done →
      ∃ fs', rest.foldlM reclaimOne fs1 = .ok fs' ∧ Scanned g fs fs' (done ++ rest) := by
    intro rest
    induction rest with
    | nil =>
      intro done fs1 _ s
      exact ⟨fs1, rfl, (append_nil done).symm ▸ s⟩
    | cons i rest ih =>
      intro done fs1 nodup s
      have new : i ∉ done := fun mem => (nodup_append.1 nodup).2.2 i mem i mem_cons_self rfl
      obtain ⟨fs2, ran, s2⟩ := s.next new
      obtain ⟨fs', rans, s'⟩ := ih (done ++ [i]) fs2 (by rwa [append_assoc]) s2
      refine ⟨fs', ?_, by rwa [append_assoc] at s'⟩
      rw [foldlM_cons, ran]
      exact rans
  refine loop l [] fs (by simpa using nodup) ⟨q, rfl, fun i no => absurd no not_mem_nil,
    fun _ _ => rfl⟩

/-- Inode 0 is never allocated. -/
def NoZero (dinode : Fin n → Dinode) : Prop := ∀ i, i.val = 0 → (dinode i).type = 0

theorem mem_inums : i ∈ inums n ↔ 1 ≤ i.val := by
  unfold inums
  rw [mem_filter, decide_eq_true_iff]
  exact and_iff_right (mem_finRange i)

/-- The blocks of the inodes that are left are theirs alone. -/
theorem Scanned.reclaimed (q : Quiet g fs) (zero : NoZero fs.dinode)
    (s : Scanned g fs fs' (inums n)) : Reclaimed g fs fs' := by
  have owns := q.consistent.owns
  have owns' := s.quiet.consistent.owns
  have kept : ∀ i, ¬ Orphan (fs.dinode i) → fs'.dinode i = fs.dinode i :=
    fun i no => s.kept i fun yes => absurd yes no
  have freed : ∀ i, Orphan (fs.dinode i) → (fs'.dinode i).type = 0 := fun i orphan =>
    s.freed i (mem_inums.2 (Nat.pos_of_ne_zero fun null => orphan.1 (zero i null))) orphan
  -- what an inode holds now it held before, and it is no orphan
  have holds : ∀ j p b, held fs'.disk.block fs'.dinode (j, p) = some b ↔
      ¬ Orphan (fs.dinode j) ∧ held fs.disk.block fs.dinode (j, p) = some b := by
    intro j p b
    by_cases orphan : Orphan (fs.dinode j)
    · rw [held, if_pos (freed j orphan)]
      simp only [reduceCtorEq, orphan, not_true_eq_false, false_and]
    · rw [and_iff_right orphan, held, held, kept j orphan, s.block]
  refine ⟨fun i => ?_, fun i orphan => ⟨freed i orphan, fun p ne => ?_⟩, kept, s.block,
    fun b data others => ?_⟩
  · by_cases orphan : Orphan (fs.dinode i)
    · exact fun yes => yes.1 (freed i orphan)
    · rw [kept i orphan]
      exact orphan
  · have here := held_of_addr orphan.1 ne
    rw [← Bool.not_eq_true, owns'.exact.counted _ (owns.exact.inside _ _ here)]
    rintro ⟨⟨j, p'⟩, there⟩
    obtain ⟨no, before⟩ := (holds j p' _).1 there
    cases owns.exact.once _ _ _ here before
    exact no orphan
  · rw [Bool.eq_iff_iff, owns'.exact.counted b data, owns.exact.counted b data]
    constructor
    · rintro ⟨⟨j, p⟩, there⟩
      exact ⟨(j, p), ((holds j p b).1 there).2⟩
    · rintro ⟨⟨j, p⟩, here⟩
      refine ⟨(j, p), (holds j p b).2 ⟨fun orphan => others j p orphan ?_, here⟩⟩
      exact (held_eq_some.1 here).2.1

theorem ireclaim_spec (q : Quiet g fs) (zero : NoZero fs.dinode) :
    ∃ fs', ireclaim fs = .ok fs' ∧ Reclaimed g fs fs' := by
  obtain ⟨fs', ran, scanned⟩ := scan_all q (inums n) ((nodup_finRange n).filter _)
  exact ⟨fs', ran, scanned.reclaimed q zero⟩

/-! ## Runs -/

theorem iget_dinode (fs : Fs n) (i : Fin n) : Ends (fun _ => True) (iget fs i) fun r =>
    r.2.dinode = fs.dinode := by
  unfold iget
  split
  · exact .ok rfl
  · split
    · exact .ok rfl
    · trivial

/-- Only an allocated inode is written back. -/
theorem locked_dinode (g : Super) (fs : Fs n) (e : Fin ninode) (u : Use) :
    Ends (fun _ => True) (locked g fs e u) fun fs' => ∀ j, j ≠ (fs.itable e).inum →
      fs'.dinode j = fs.dinode j := by
  have store : ∀ (d : Disk) (ip : Dinode) (j : Fin n), j ≠ (fs.itable e).inum →
      (iupdate (fs.setIp e d ip) e).dinode j = fs.dinode j := by
    intro d ip j ne
    rw [iupdate_setIp]
    exact update_of_ne ne _ _
  cases u with
  | readi got off n => exact (Ends.any _).bind fun ⟨_, _, _, _⟩ _ => .ok fun _ _ => rfl
  | writei src off n =>
    refine (Ends.any _).bind fun ⟨r, d, ip⟩ _ => .ok fun j ne => ?_
    split
    · exact store _ _ j ne
    · rfl
  | itrunc => exact (Ends.any _).bind fun ⟨_, _⟩ _ => .ok fun j ne => store _ _ j ne
  | fields major minor nlink => exact .ok fun j ne => store _ _ j ne

theorem iput_zero (zero : NoZero fs.dinode) : Ends (fun _ => True) (iput fs e) fun fs' =>
    NoZero fs'.dinode := by
  refine .bind (Q := fun fs' => NoZero fs'.dinode) ?_ fun fs' zero' => .ok zero'
  split
  · refine (Ends.any _).bind fun ⟨d, ip⟩ _ => .ok fun j null => ?_
    simp only [iupdate_setIp, Fs.setEntry, update_self, update_idem]
    by_cases eq : j = (fs.itable e).inum
    · rw [eq, update_self]
    · rw [update_of_ne eq]
      exact zero j null
  · exact .ok zero

theorem call_zero (h : Consistent g fs) (zero : NoZero fs.dinode) (c : Call n) :
    Ends (fun _ => True) (call g fs c) fun fs' => NoZero fs'.dinode := by
  cases c with
  | iget i =>
    refine (iget_dinode fs i).bind fun ⟨_, _⟩ same => .ok ?_
    rwa [same]
  | idup e => exact zero
  | iput e => exact iput_zero zero
  | ialloc type =>
    unfold call ialloc
    dsimp only
    split
    · rename_i i found
      have first := find?_some found
      rw [decide_eq_true_iff] at first
      refine .bind (Q := fun r => NoZero r.2.dinode)
        ((iget_dinode _ i).bind fun ⟨_, _⟩ same => .ok ?_) fun ⟨_, _⟩ zero' => zero'
      dsimp only at same ⊢
      rw [same]
      intro j null
      have ne : j ≠ i := by
        rintro rfl
        omega
      rw [update_of_ne ne]
      exact zero j null
    · exact zero
  | use e u =>
    unfold call
    dsimp only
    cases ran : ilock fs e with
    | error p => trivial
    | ok fs1 =>
      obtain ⟨h1, live, valid⟩ := (ilock_spec h).of_ok ran
      have same : fs1.dinode = fs.dinode := by
        unfold ilock at ran
        dsimp only at ran
        split at ran
        · cases ran
        · split at ran
          · cases ran
            rfl
          · split at ran
            · cases ran
            · cases ran
              rfl
      refine (locked_dinode g fs1 e u).mono fun fs' others j null => ?_
      have ne : j ≠ (fs1.itable e).inum := by
        rintro rfl
        refine (h1.synced e live valid).2 ?_
        rw [same]
        exact zero _ null
      rw [others j ne, same]
      exact zero j null

section runs
variable [NeZero n]

/-- A disk that the machine can boot from. -/
structure Bootable (g : Super) (x : Snap n) : Prop where
  quiet : Quiet g (recovered x)
  zero : NoZero x.dinode

theorem bootable_of (h : Consistent g fs) (zero : NoZero fs.dinode) : Bootable g (Snap.of fs) :=
  ⟨⟨⟨h.owns, h.mapped, fun _ live => absurd live (lt_irrefl 0),
    fun _ _ live => absurd live (lt_irrefl 0)⟩, fun _ => rfl⟩, zero⟩

structure Inv (g : Super) (s : Sys n) : Prop where
  consistent : Consistent g s.fs
  zero : NoZero s.fs.dinode
  closed : ∀ x ∈ s.closed, Bootable g x
  unused : s.scan ≠ [] → ∀ e, (s.fs.itable e).ref = 0

theorem Bootable.inv {x : Snap n} (h : Bootable g x) : Inv g (boot x) :=
  ⟨h.quiet.consistent, h.zero, fun _ mem => mem_singleton.1 mem ▸ h, fun _ => h.quiet.unused⟩

theorem step_inv {s s' : Sys n} {a} (inv : Inv g s) (st : step g s a = some s') : Inv g s' := by
  cases a with
  | call c =>
    obtain ⟨guard, st⟩ := Option.ite_none_right_eq_some.1 st
    obtain ⟨fs', ran, rfl⟩ := Option.map_eq_some_iff.1 st
    have ok : call g s.fs c = .ok fs' := by
      cases ran' : call g s.fs c with
      | ok fs1 => rw [ran'] at ran; cases ran; rfl
      | error p => rw [ran'] at ran; cases ran
    exact ⟨(call_spec inv.consistent guard.2).of_ok ok,
      (call_zero inv.consistent inv.zero c).of_ok ok, inv.closed, fun scanning =>
      absurd guard.1 scanning⟩
  | close =>
    cases st
    refine ⟨inv.consistent, inv.zero, fun x mem => ?_, inv.unused⟩
    obtain old | new := mem_append.1 mem
    · exact inv.closed x old
    · rw [mem_singleton.1 new]
      exact bootable_of inv.consistent inv.zero
  | crash k =>
    obtain ⟨x, found, rfl⟩ := Option.map_eq_some_iff.1 st
    exact (inv.closed x (mem_of_getElem? found)).inv
  | reclaim =>
    simp only [step] at st
    split at st
    · cases st
    · rename_i i scan eq
      obtain ⟨fs', ran, quiet, -, others, freed, kept⟩ :=
        reclaimOne_spec ⟨inv.consistent, inv.unused (by rw [eq]; exact cons_ne_nil _ _)⟩ i
      rw [ran] at st
      cases st
      have zero : NoZero fs'.dinode := by
        intro j null
        by_cases same : j = i
        · subst same
          by_cases orphan : Orphan (s.fs.dinode j)
          · exact freed orphan
          · rw [kept orphan]
            exact inv.zero j null
        · rw [others j same]
          exact inv.zero j null
      refine ⟨quiet.consistent, zero, fun x mem => ?_, fun _ => quiet.unused⟩
      obtain old | new := mem_append.1 mem
      · exact inv.closed x old
      · rw [mem_singleton.1 new]
        exact bootable_of quiet.consistent zero

/-- From an image without inode 0, after any run and any crash, also one during `ireclaim`:
`ireclaim` completes, and has freed the orphans and nothing else. -/
theorem ireclaim_frees_orphans {fs0 : Fs n} (image : Image g fs0) (zero : NoZero fs0.dinode)
    {t : List (Ev n)} {k : Nat} {s : Sys n}
    (run : Run (ByStep (step g)) (boot (Snap.of fs0)) (.crash k :: t) s) :
    ∃ fs', ireclaim s.fs = .ok fs' ∧ Reclaimed g s.fs fs' := by
  have start : Inv g (boot (Snap.of fs0)) := (bootable_of image.consistent zero).inv
  cases run with
  | cons before st =>
    have inv := before.keeps start fun _ _ _ inv st => step_inv inv st
    obtain ⟨x, found, rfl⟩ := Option.map_eq_some_iff.1 (st : _ = some _)
    have bootable := inv.closed x (mem_of_getElem? found)
    exact ireclaim_spec bootable.quiet bootable.zero

end runs

local instance sample_neZero : NeZero 3 := ⟨by decide⟩

/-- A file is made and written to, and the machine crashes before it gets a name. -/
theorem ireclaim_frees_orphans_unnamed :
    ∃ t s, Run (ByStep (step sampleSuper)) (boot (Snap.of sampleImage)) (.crash 3 :: t) s ∧
    Orphan (s.fs.dinode 1) ∧ s.fs.disk.bit 3 = true ∧
    ∃ fs', ireclaim s.fs = .ok fs' ∧ Reclaimed sampleSuper s.fs fs' := by
  obtain ⟨s, run, orphan, used⟩ := foldlM_reaches (step sampleSuper) (boot (Snap.of sampleImage))
    [.reclaim, .reclaim, .call (.ialloc 2),
    .call (.use 0 (.writei ⟨fun _ => 7, fun _ => 1024, true⟩ 0 100)), .close, .crash 3] (P :=
    fun s => Orphan (s.fs.dinode 1) ∧ s.fs.disk.bit 3 = true) (by decide +kernel)
  exact ⟨_, s, run, orphan, used, ireclaim_frees_orphans sampleImage_image (fun _ _ => rfl) run⟩

end OsProject.Xv6.Reclaim
