import OsProject.Lib.Transition
import OsProject.Xv6.CallOutcomes
import OsProject.Xv6.LinkGraph

/-! # Link counts and reachability

Between two system calls the link counts are those of the hierarchy of
directories, and an inode without links is one that is in use. -/
namespace OsProject.Xv6.LinkCounts
open Lib.Outcome Lib.Transition
open Lib Files LinkGraph References CallOutcomes
open Function (update_of_ne update_self update_idem)

variable {n : Nat} [NeZero n] {s s' : Sys n} {tmp : List (Fin n)} {i j dp : Fin n} {x : Node n}

variable {ino : Fin n → Node n} {cwd : Fin n} {path : List UInt8} {off : Nat} {p : Fin nproc}
  {pr : Proc n}

theorem graph_drops {ino'} (h : Drops ino ino') (graph : Graph ino) : Graph ino' := by
  induction h with
  | refl => exact graph
  | tail _ freed ih =>
    obtain ⟨i, used, zero, rfl⟩ := freed
    exact ih.free used zero

/-! ## `create` -/

/-- The hierarchy and the references. -/
structure Good (s : Sys n) (tmp : List (Fin n)) : Prop where
  graph : Graph s.ino
  acc : Acc s tmp

theorem iput_good (h : Good s (i :: tmp)) : Good (iput s i) tmp :=
  ⟨graph_drops (iput_drops h.acc) h.graph, iput_acc h.acc⟩

/-- The new entry, with the parent's count if it is of a directory. -/
theorem entered_graph {type l room name}
    (graph : Graph ino) (h : Making ino s dp i type (startSlots type i dp))
    (linked : (ino dp).nlink ≠ 0) (hi : i ≠ 0) (typed : type ≠ .free)
    (orphan : type ≠ .dir → ∀ d, (ino d).type = .dir → (ino d).nlink = 0 → up (ino d) ≠ i)
    (add : addSlot room ⟨i, name⟩ (ino dp).slots = some l) : Graph (entered s dp type l).ino := by
  obtain ⟨major, minor, new⟩ := h.new
  unfold entered
  split
  · rename_i isdir
    subst isdir
    have added := graph.addDir h.dir linked hi h.free (x := ⟨.dir, major, minor, 1, _, []⟩)
      rfl rfl rfl add
    simp only [Sys.setNlink, Sys.setNode, update_self, update_idem, new,
      update_of_ne h.ne]
    exact added
  · rename_i plain
    have none : Hierarchy.links (view ino).edge i = 0 := Finset.sum_eq_zero fun d _ =>
      graph.sound.no_edge_to_free (kindOf_free.2 h.free) d
    have added := graph.addLeaf h.dir linked hi (by rw [h.free]; intro eq; cases eq)
      (x := ⟨type, major, minor, 1, [], []⟩) typed plain rfl (by rw [none]; rfl) (orphan plain) add
    rw [startSlots, if_neg plain] at new
    simp only [Sys.setNode, new, update_of_ne h.ne]
    exact added

/-- The directory that the last name of a path would be new in still has links. -/
def InLinked (s : Sys n) (cwd : Fin n) (path : List UInt8) : Prop :=
  ∀ r ∈ resolvePath s.ino cwd path true,
    lookup r.2 (s.ino r.1).slots 0 = none → (s.ino r.1).nlink ≠ 0
  deriving Decidable

/-- No removed directory that is still in use has a `..` that names a free inode. -/
def NoDangling (s : Sys n) : Prop :=
  ∀ d, (s.ino d).type = .dir → (s.ino d).nlink = 0 → (s.ino (up (s.ino d))).type ≠ .free
  deriving Decidable

/-- The file that a path leads to can have one more link. -/
def CanLink (s : Sys n) (cwd : Fin n) (path : List UInt8) : Prop :=
  ∀ r ∈ resolvePath s.ino cwd path false, (s.ino r.1).nlink ≠ 32767
  deriving Decidable

theorem create_spec (type : Kind) (h : Good s []) (pos : 0 < s.ref cwd) (typed : type ≠ .free)
    (linked : InLinked s cwd path) (dangling : type ≠ .dir → NoDangling s) (major minor : Int16)
    (room : Fin 3 → Bool) :
    Ends Spared (create s cwd path type major minor room) fun r => Frame s r.2 ∧ match r.1 with
      | some i => Good r.2 [i] ∧ (r.2.ino i).type ≠ .free | none => Good r.2 [] := by
  refine (create_cases type h.acc pos typed path major minor room).mono
    fun ⟨r, s'⟩ ⟨frame, creates⟩ => ⟨frame, ?_⟩
  cases creates with
  | refused ino acc _ => exact ⟨ino ▸ h.graph, acc⟩
  | undone _ free free_x bare ino acc _ =>
    refine ⟨?_, acc⟩
    rw [ino]
    exact h.graph.refree free free_x bare
  | found ino acc used _ =>
    refine ⟨⟨ino ▸ h.graph, acc⟩, ?_⟩
    rw [ino]
    exact used
  | made parent missing hi free made =>
    refine ⟨⟨?_, made.acc⟩, by rw [made.node.1]; exact typed⟩
    obtain ⟨s1, l, making, add, rfl⟩ := made
    refine graph_drops (iput_drops making.entered_acc.swap)
      (entered_graph h.graph making (linked _ parent missing) hi typed
      (fun plain d dir zero eq => ?_) add)
    exact dangling plain d dir zero (eq ▸ free)

/-! ## `sys_unlink` -/

/-- An entry behind `.` and `..` is a link that counts. -/
theorem entry_counted {e} (graph : Graph s.ino) (dir : (s.ino dp).type = .dir)
    (hi : i ≠ 0) (two : 2 ≤ off) (at_off : (s.ino dp).slots[off]? = some e) (inum : e.inum = i) :
    (s.ino dp).nlink ≠ 0 ∧ 0 < (s.ino i).nlink.toInt := by
  obtain ⟨-, edge, -⟩ := names_clear (graph.formed dp) dir hi two at_off inum
  obtain ⟨-, linked, used⟩ := graph.sound.edge dp i edge
  have le : (view s.ino).edge dp i ≤ Hierarchy.links (view s.ino).edge i := Hierarchy.edge_le_links
  change names (s.ino dp) i ≤ _ at le
  refine ⟨fun zero => linked (toInt_eq_zero.2 zero), ?_⟩
  by_cases isdir : (s.ino i).type = .dir
  · have nonzero : (s.ino i).nlink ≠ 0 := by
      intro zero
      have := graph.sound.once i (kindOf_dir.2 isdir)
      rw [if_pos (.inr (toInt_eq_zero.2 zero))] at this
      omega
    rw [(graph.nlink_dir isdir nonzero).1]
    omega
  · have count := graph.sound.leaf i (kindOf_leaf (fun free => used (kindOf_free.2 free)) isdir)
    change (s.ino i).nlink.toInt = _ at count
    omega

/-- An entry with a name of its own is behind `.` and `..`. -/
theorem named_entry (graph : Graph ino) (dir : (ino dp).type = .dir)
    (h : Named ino cwd path dp i off) :
    i ≠ 0 ∧ 2 ≤ off ∧ ∃ e, (ino dp).slots[off]? = some e ∧ e.inum = i := by
  obtain ⟨name, -, plain, entry⟩ := h
  obtain ⟨rest, dots⟩ := (graph.formed dp).dots dir
  rw [not_or] at plain
  rw [dots, lookup_dots plain.1 plain.2] at entry
  obtain ⟨hi, two, e, at_off, inum⟩ := lookup_some entry
  refine ⟨hi, two, e, ?_, inum⟩
  rw [dots, show off = (off - 2) + 2 by omega]
  exact at_off

/-- A directory that is empty has no entries that count. -/
theorem names_empty (empty : isdirempty x = true) (j : Fin n) : names x j = 0 := by
  unfold names
  split
  · rfl
  · rename_i hj
    refine List.countP_eq_zero.2 fun e he same => hj ?_
    have free := List.all_eq_true.1 empty e he
    rw [← of_decide_eq_true same, of_decide_eq_true free]

/-- The parent of a directory has more than one link. -/
theorem parent_linked (graph : Graph s.ino) (dir : (s.ino dp).type = .dir)
    (linked : (s.ino dp).nlink ≠ 0)
    (isdir : (s.ino i).type = .dir) (edge : (view s.ino).edge dp i ≠ 0) :
  (s.ino dp).nlink - 1 ≠ 0 := by
  have count := (graph.nlink_dir dir linked).1
  have sub : Hierarchy.subdirs (view s.ino) dp ≠ 0 := by
    intro zero
    have := Finset.sum_eq_zero_iff.1 zero i (Finset.mem_univ i)
    rw [show (view s.ino).kind i = .dir from kindOf_dir.2 isdir, if_pos rfl] at this
    exact edge this
  intro zero
  have := toInt_pred (a := (s.ino dp).nlink) (by omega)
  rw [zero] at this
  have : (0 : Int16).toInt = 0 := rfl
  omega

/-- The entry and the counts, before the last reference is given back. -/
theorem removed_graph {e} (graph : Graph s.ino) (used : (s.ino i).type ≠ .free)
    (dir : (s.ino dp).type = .dir) (hi : i ≠ 0) (two : 2 ≤ off)
    (at_off : (s.ino dp).slots[off]? = some e) (inum : e.inum = i)
    (empty : (s.ino i).type = .dir → isdirempty (s.ino i) = true) :
    Graph (removed s dp i off).ino := by
  obtain ⟨linked, pos⟩ := entry_counted graph dir hi two at_off inum
  obtain ⟨-, edge, -⟩ := names_clear (graph.formed dp) dir hi two at_off inum
  have bare : (s.ino i).type = .dir → ∀ j, names (s.ino i) j = 0 :=
    fun isdir => names_empty (empty isdir)
  have ne : i ≠ dp := by
    rintro rfl
    exact edge (bare dir i)
  -- the directory keeps a link, so `iput` does not free it
  have put : ∀ {s2 : Sys n}, (s2.ino dp).nlink ≠ 0 → (iput s2 dp).ino = s2.ino := by
    intro s2 nlink
    unfold iput
    rw [if_neg fun last => nlink last.2.2]
  unfold removed
  simp only [Sys.setNode, update_of_ne ne]
  split
  · rename_i isdir
    rw [Sys.setNlink, Sys.setNode, put]
    · simp only [Sys.setNlink, Sys.setNode, update_self, update_idem, update_of_ne ne]
      exact graph.dropDir dir isdir (bare isdir) two at_off inum
    · simp only [Sys.setNlink, Sys.setNode, update_self]
      exact parent_linked graph dir linked isdir edge
  · rename_i isdir
    rw [Sys.setNlink, Sys.setNode, put]
    · simp only [update_of_ne ne]
      exact graph.dropLeaf dir used isdir two at_off inum pos
    · simp only [update_self]
      exact linked

theorem sysUnlink_spec (h : Good s []) (pos : 0 < s.ref cwd) (path : List UInt8) :
    Ends Spared (sysUnlink s cwd path) fun r => Good r.2 [] ∧ Frame s r.2 := by
  refine ((sysUnlink_cases h.acc pos path).weaken fun e panic eq => ?_).mono
    fun ⟨r, t⟩ ⟨frame, unlinks⟩ => ⟨?_, frame⟩
  · obtain ⟨dp, ip, off, named, dir, low⟩ := panic eq
    obtain ⟨hi, two, e, at_off, inum⟩ := named_entry h.graph dir named
    have counted := (entry_counted h.graph dir hi two at_off inum).2
    have : (s.ino ip).nlink.toInt < 1 := Int16.lt_iff_toInt_lt.1 low
    omega
  · refine ⟨?_, unlinks.acc⟩
    cases unlinks with
    | failed ino acc => exact ino ▸ h.graph
    | done named dir empty ino acc valid locked =>
      obtain ⟨hi, two, e, at_off, inum⟩ := named_entry h.graph dir named
      have used := acc.valid _ (acc.pos List.mem_cons_self) valid
      refine graph_drops (iput_drops (removed_acc acc valid locked)) ?_
      rw [← ino] at dir empty at_off
      exact removed_graph (ino ▸ h.graph) used dir hi two at_off inum empty

/-! ## `sys_link` -/

/-- The count of a file that is not linked more often than 32767 times. -/
theorem nlink_file (graph : Graph s.ino) (used : (s.ino i).type ≠ .free)
    (plain : (s.ino i).type ≠ .dir) (room : (s.ino i).nlink ≠ 32767) :
    (s.ino i).nlink.toInt = Hierarchy.links (view s.ino).edge i ∧
      ((s.ino i).nlink + 1).toInt = (s.ino i).nlink.toInt + 1 := by
  have count := graph.sound.leaf i (kindOf_leaf used plain)
  refine ⟨count, toInt_succ ?_⟩
  have lt := (s.ino i).nlink.toInt_lt
  have ne : (s.ino i).nlink.toInt ≠ 32767 := fun eq => room (Int16.toInt_inj.1 eq)
  omega

theorem sysLink_spec {old new} (h : Good s []) (user : 0 < held s cwd)
    (linked : InLinked s cwd new) (more : CanLink s cwd old) (room : Bool) :
    Ends Spared (sysLink s cwd old new room) fun r => Good r.2 [] ∧ Frame s r.2 := by
  refine (sysLink_cases h.acc user old new room).mono fun ⟨r, t⟩ ⟨frame, links⟩ =>
    ⟨⟨?_, links.acc⟩, frame⟩
  cases links with
  | failed ino acc => exact ino ▸ h.graph
  | @done s1 dp ip last name l file used plain parent missing add ino acc =>
    refine graph_drops (iput_drops (iput_acc acc)) (graph_drops (iput_drops acc) ?_)
    obtain ⟨count, succ⟩ := nlink_file h.graph used plain (more _ file)
    rw [ino]
    refine h.graph.addLeaf (resolve_dir parent) (linked _ parent missing)
      (ne_zero_of_used (h.graph.formed ip) used) plain used plain ((h.graph.formed ip).plain plain)
      ?_ (fun d dir zero eq => ?_) add
    · show ((s.ino ip).nlink + 1).toInt = _
      omega
    refine h.graph.sound.lost d (kindOf_dir.2 dir) (toInt_eq_zero.2 zero) ?_
    rw [show (view s.ino).up d = ip from eq]
    exact kindOf_leaf used plain

/-! ## Open files -/

/-- The invariant between system calls. -/
structure Inv (s : Sys n) : Prop where
  good : Good s []
  closed : Closed s

namespace Inv

theorem ready (h : Inv s) : Ready s := ⟨h.good.acc, h.closed⟩

theorem drops (h : Inv s) (ready : Ready s') (drops : Drops s.ino s'.ino) : Inv s' :=
  ⟨⟨graph_drops drops h.good.graph, ready.acc⟩, ready.closed⟩

end Inv

theorem openFile_spec {ip} (h : Good s [ip]) (closed : Closed s)
    (used : (s.ino ip).type ≠ .free) (caller : s.proc p = some pr) (omode : UInt32) :
    Ends Spared (openFile s p pr ip omode) fun r => Inv r.2 := by
  refine (openFile_cases h.acc closed used caller omode).mono fun ⟨r, t⟩ ⟨ready, opens⟩ =>
    ⟨⟨?_, ready.acc⟩, ready.closed⟩
  cases opens with
  | failed ino _ =>
    rw [ino]
    exact graph_drops (iput_drops h.acc) h.graph
  | done ino =>
    rw [ino]
    exact h.graph.data

theorem sysOpen_spec (h : Inv s) (caller : s.proc p = some pr) {omode room}
    (orderly : omode &&& oCreate ≠ 0 → InLinked s pr.cwd path ∧ NoDangling s) :
    Ends Spared (sysOpen s p pr path omode room) fun r => Inv r.2 := by
  have pos := h.good.acc.used (held_pos (holder_cwd caller))
  unfold sysOpen
  split
  · rename_i make
    obtain ⟨linked, dangling⟩ := orderly make
    refine (create_spec .file h.good pos nofun linked (fun _ => dangling) 0 0 room).bind
      fun ⟨r, s1⟩ ⟨frame, made⟩ => ?_
    cases r with
    | none => exact .ok ⟨made, frame.closed h.closed⟩
    | some ip => exact openFile_spec made.1 (frame.closed h.closed) made.2 (frame.2 ▸ caller) omode
  · refine (namex_spec h.good.acc h.good.acc.anchored.backed pos path false).bind
      fun ⟨r, s1⟩ ⟨_, same1, acc1⟩ => ?_
    have graph : ∀ {s' : Sys n}, s'.ino = s.ino → Graph s'.ino := fun eq => eq ▸ h.good.graph
    cases r with
    | none => exact .ok ⟨⟨graph same1.ino, acc1⟩, same1.frame.closed h.closed⟩
    | some r =>
      obtain ⟨ip, name⟩ := r
      refine (ilock_spec acc1).bind fun s2 ⟨acc2, same2, used, _⟩ => ?_
      have same : Same [] s s2 := same1.trans (same2.mono (List.nil_subset _))
      have good : Good s2 [ip] := ⟨graph same.ino, acc2⟩
      split
      · exact .ok ⟨iput_good good, same.frame.iput.closed h.closed⟩
      · refine openFile_spec good (same.frame.closed h.closed) ?_ (same.proc ▸ caller) omode
        rw [same2.ino]
        exact used

theorem sysMake_spec (type : Kind) (h : Inv s) (pos : 0 < s.ref cwd) (typed : type ≠ .free)
    (linked : InLinked s cwd path) (dangling : type ≠ .dir → NoDangling s) (major minor : Int16)
    (room : Fin 3 → Bool) :
    Ends Spared (sysMake s cwd path type major minor room) fun r => Inv r.2 := by
  refine (create_spec type h.good pos typed linked dangling major minor room).bind
    fun ⟨r, s1⟩ ⟨frame, made⟩ => ?_
  cases r with
  | none => exact .ok ⟨made, frame.closed h.closed⟩
  | some ip => exact .ok ⟨iput_good made.1, frame.iput.closed h.closed⟩

/-! ## Runs -/

/-- The calls after which the counts stay right, by the state before the call:
a new name is only for a directory that has links, no count goes over 32767, and no
file is made while a removed directory in use has a `..` that names a free inode. -/
def OrderlyCall (s : Sys n) (cwd : Fin n) : Call n → Prop
  | .open (some path) omode _ => omode &&& oCreate ≠ 0 → InLinked s cwd path ∧ NoDangling s
  | .mkdir (some path) _ => InLinked s cwd path
  | .mknod (some path) _ _ _ => InLinked s cwd path ∧ NoDangling s
  | .link (some old) (some new) _ => InLinked s cwd new ∧ CanLink s cwd old
  | _ => True

instance {cwd : Fin n} : ∀ c, Decidable (OrderlyCall s cwd c)
  | .open (some path) omode _ =>
    inferInstanceAs (Decidable (omode &&& oCreate ≠ 0 → InLinked s cwd path ∧ NoDangling s))
  | .mkdir (some path) _ => inferInstanceAs (Decidable (InLinked s cwd path))
  | .mknod (some path) _ _ _ => inferInstanceAs (Decidable (InLinked s cwd path ∧ NoDangling s))
  | .link (some old) (some new) _ =>
    inferInstanceAs (Decidable (InLinked s cwd new ∧ CanLink s cwd old))
  | .open none _ _ | .mkdir none _ | .mknod none _ _ _ | .link none _ _ | .link (some _) none _
  | .unlink _ | .chdir _ | .close _ | .fork _ | .exit => .isTrue trivial

def Orderly (s : Sys n) (e : Fin nproc × Call n) : Prop :=
  ∀ pr ∈ s.proc e.1, OrderlyCall s pr.cwd e.2
  deriving Decidable

theorem syscall_spec (h : Inv s) (caller : s.proc p = some pr) (c : Call n)
    (orderly : OrderlyCall s pr.cwd c) : Ends Spared (syscall s p pr c) fun r => Inv r.2 := by
  have user := held_pos (holder_cwd caller)
  have pos := h.good.acc.used user
  match c, orderly with
  | .open (some path) omode room, orderly => exact sysOpen_spec h caller orderly
  | .mkdir (some path) room, linked =>
    exact sysMake_spec .dir h pos nofun linked (fun plain => absurd rfl plain) 0 0 room
  | .mknod (some path) major minor room, ⟨linked, dangling⟩ =>
    exact sysMake_spec .device h pos nofun linked (fun _ => dangling) major minor room
  | .link (some old) (some new) room, ⟨linked, more⟩ =>
    exact (sysLink_spec h.good user linked more room).mono fun r ⟨good, frame⟩ =>
      ⟨good, frame.closed h.closed⟩
  | .unlink (some path), _ =>
    exact (sysUnlink_spec h.good pos path).mono fun r ⟨good, frame⟩ => ⟨good, frame.closed h.closed⟩
  | .chdir (some path), _ =>
    exact (sysChdir_refs h.ready caller path).mono fun r ⟨ready, drops⟩ => h.drops ready drops
  | .close fd, _ =>
    exact (sysClose_refs h.ready caller fd).mono fun r ⟨ready, drops⟩ => h.drops ready drops
  | .fork c, _ =>
    exact (kfork_refs h.ready caller).mono fun r ⟨ready, ino⟩ => h.drops ready (ino ▸ .refl)
  | .exit, _ =>
    exact (kexit_refs h.ready caller).bind fun _ ⟨ready, drops⟩ => .ok (h.drops ready drops)
  | .open none _ _, _ | .mkdir none _, _ | .mknod none _ _ _, _ | .link none _ _, _
  | .link (some _) none _, _ | .unlink none, _ | .chdir none, _ => exact .ok h

/-- What one completed call keeps. -/
theorem step_inv {e} (h : Inv s) (orderly : Orderly s e) (done : step s e = .ok s') : Inv s' := by
  unfold step at done
  split at done
  · exact nomatch done
  · rename_i pr caller
    have spec : Ends Spared (syscall s e.1 pr e.2 >>= fun r => .ok r.2) Inv :=
      (syscall_spec h caller e.2 (orderly pr caller)).bind fun r inv => .ok inv
    exact spec.of_ok done

end OsProject.Xv6.LinkCounts
