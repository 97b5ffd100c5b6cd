import OsProject.Xv6.References

/-! # What system calls do to inodes

The calls of `sysfile.c` by their outcome. A call that fails undoes what it has
done; one that succeeds makes one change of the inodes that it has locked and
gives back its references. The counts of references stay right whatever the
link counts are. -/
namespace OsProject.Xv6.CallOutcomes
open Lib Lib.Outcome Files References
open List hiding lookup
open Function (update update_of_ne update_self update_eq_self update_idem)

variable {n : Nat} {s s' : Sys n} {tmp : List (Fin n)} {i j dp : Fin n} {x : Node n}

/-! ## `create` -/

/-- `create` in the directory `dp`, when the new inode `i` has been set up with
the entries `slots`; `ino` is from before. -/
structure Making (ino : Fin n → Node n) (s : Sys n) (dp i : Fin n) (type : Kind)
    (slots : List (Dirent n)) : Prop where
  dir : (ino dp).type = .dir
  free : (ino i).type = .free
  new : ∃ major minor, s.ino = update ino i ⟨type, major, minor, 1, slots, []⟩
  acc : Acc s [i, dp]
  anchored : Anchored s
  valid : s.valid i = true
  locked : s.valid dp = true
  unheld : held s i = 0

/-- The entry of a new inode, and the link that a new directory has to its parent. -/
def entered (s : Sys n) (dp : Fin n) (type : Kind) (l : List (Dirent n)) : Sys n :=
  let s := s.setNode dp { s.ino dp with slots := l }
  if type = .dir then s.setNlink dp ((s.ino dp).nlink + 1) else s

/-- The entries of a new inode. -/
def startSlots (type : Kind) (i dp : Fin n) : List (Dirent n) :=
  if type = .dir then [⟨i, [dot]⟩, ⟨dp, [dot, dot]⟩] else []

/-- The label `fail` is reached with the new inode as it was made. -/
def failed (s : Sys n) (i dp : Fin n) : Sys n := iput (iput (s.setNlink i 0) i) dp

namespace Making
variable {ino : Fin n → Node n} {type : Kind} {slots l : List (Dirent n)}

variable (h : Making ino s dp i type slots)
include h

theorem ne : dp ≠ i := by
  rintro rfl
  have := h.free
  rw [h.dir] at this
  cases this

theorem node_dp : s.ino dp = ino dp := by
  obtain ⟨major, minor, new⟩ := h.new
  rw [new, update_of_ne h.ne]

theorem node_i : (s.ino i).type = type ∧ (s.ino i).nlink = 1 ∧
    (s.ino i).slots = slots := by
  obtain ⟨major, minor, new⟩ := h.new
  rw [new, update_self]
  exact ⟨rfl, rfl, rfl⟩

theorem same (same : Same [i, dp] s s') (acc : Acc s' [i, dp]) : Making ino s' dp i type slots where
  dir := h.dir
  free := h.free
  new := by
    rw [same.ino]
    exact h.new
  acc := acc
  anchored := same.anchored h.anchored
  valid := same.valid i mem_cons_self h.valid
  locked := same.valid dp (mem_cons_of_mem _ mem_cons_self) h.locked
  unheld := (held_congr same.ftable same.proc).trans h.unheld

/-- Another entry in the new directory. -/
theorem entry (slots' : List (Dirent n)) (typed : type ≠ .free) :
    Making ino (s.setNode i { s.ino i with slots := slots' }) dp i type slots' := by
  obtain ⟨type_i, nlink_i, -⟩ := h.node_i
  have one : (s.ino i).nlink ≠ 0 := by
    rw [nlink_i]
    decide
  obtain ⟨major, minor, new⟩ := h.new
  refine ⟨h.dir, h.free, ⟨major, minor, ?_⟩,
    h.acc.setNode (by rw [← type_i] at typed; exact typed) fun zero => absurd zero one,
    fun j used zero => ?_, h.valid, h.locked, h.unheld⟩
  · simp only [Sys.setNode, new, update_self, update_idem]
  · by_cases hj : j = i
    · simp only [hj, Sys.setNode, update_self] at zero
      exact absurd zero one
    · simp only [Sys.setNode, update_of_ne hj] at used zero
      exact h.anchored j used zero

/-- The label `fail`: the new inode goes back. -/
theorem fails (typed : type ≠ .free) : Acc (failed s i dp) [] ∧
      ∃ x : Node n, x.type = .free ∧ x.slots = [] ∧ (failed s i dp).ino = update ino i x := by
  have acc1 : Acc (s.setNlink i 0) [i, dp] := h.acc.setNode (by rw [h.node_i.1]; exact typed)
    fun _ => ⟨h.acc.pos mem_cons_self, h.valid⟩
  have one : s.ref i = 1 := by
    rw [h.acc.refs i, h.unheld, count_cons_self, count_cons_of_ne h.ne, count_nil]
  have zero : ((s.setNlink i 0).ino i).nlink = 0 := by
    simp only [Sys.setNlink, Sys.setNode, update_self]
  have freed : (Files.iput (s.setNlink i 0) i).ino =
      update ino i ((s.setNlink i 0).ino i).freed := by
    obtain ⟨major, minor, new⟩ := h.new
    unfold Files.iput
    rw [if_pos ⟨one, h.valid, zero⟩]
    simp only [Sys.setNode, Sys.setNlink, new, update_idem]
  -- the reference to the directory is not the last one of a removed directory
  have anchored : Anchored (Files.iput (s.setNlink i 0) i) := by
    intro j used zero
    have hj : j ≠ i := by
      rintro rfl
      rw [freed, update_self] at used
      exact used rfl
    rw [(iput_ne hj).1] at used zero
    simp only [Sys.setNlink, Sys.setNode, update_of_ne hj] at used zero
    rw [held_congr iput_frame.1 iput_frame.2]
    exact h.anchored j used zero
  have acc2 := iput_acc acc1
  refine ⟨iput_acc acc2, ((s.setNlink i 0).ino i).freed, rfl, rfl, ?_⟩
  exact (iput_same acc2 anchored.backed).ino.trans freed

theorem entered_acc : Acc (entered s dp type l) [i, dp] := by
  have used : (s.ino dp).type ≠ .free := by
    rw [h.node_dp, h.dir]
    intro eq
    cases eq
  have held := h.acc.pos (mem_cons_of_mem i (mem_cons_self (a := dp) (l := [])))
  have acc : Acc (s.setNode dp { s.ino dp with slots := l }) [i, dp] :=
    h.acc.setNode used fun _ => ⟨held, h.locked⟩
  unfold entered
  split
  · refine acc.setNode ?_ fun _ => ⟨held, h.locked⟩
    simp only [Sys.setNode, update_self]
    exact used
  · exact acc

end Making

variable {type : Kind} {l : List (Dirent n)} {room : Bool} {cwd : Fin n} {p : Fin nproc}
  {pr : Proc n}

theorem entered_ne (ne : j ≠ dp) : (entered s dp type l).ino j = s.ino j := by
  unfold entered
  split
  · simp only [Sys.setNlink, Sys.setNode, update_of_ne ne]
  · simp only [Sys.setNode, update_of_ne ne]

theorem entered_frame : Frame s (entered s dp type l) := by
  unfold entered
  split <;> exact ⟨rfl, rfl⟩

variable [NeZero n]

/-- The new inode once it is locked and its fields are set. -/
theorem ialloc_spec (h : Acc s tmp) (used : ∀ j ∈ tmp, (s.ino j).type ≠ .free)
    (typed : type ≠ .free) : Ends Spared (ialloc s type) fun r => match r.1 with
      | none => r.2 = s ∧ ∀ i, i ≠ 0 → (s.ino i).type ≠ .free
      | some i =>
        i ≠ 0 ∧ (s.ino i).type = .free ∧ ∀ major minor, Ends Spared (ilock r.2 i) fun s' =>
          let s' := s'.setNode i { s'.ino i with major := major, minor := minor, nlink := 1 }
          s'.ino = update s.ino i ⟨type, major, minor, 1, [], []⟩ ∧ Frame s s' ∧
          s'.valid = update s.valid i true ∧ Acc s' (i :: tmp) := by
  unfold ialloc
  split
  swap
  · rename_i none
    refine .ok ⟨rfl, fun i hi free => ?_⟩
    have := find?_eq_none.1 none i (mem_finRange i)
    rw [decide_eq_true_iff] at this
    exact this ⟨Nat.one_le_iff_ne_zero.2 fun zero => hi (Fin.ext zero), free⟩
  rename_i i found
  obtain ⟨first, free⟩ : 1 ≤ i.val ∧ (s.ino i).type = .free := by
    simpa using find?_some found
  have hi : i ≠ 0 := by
    rintro rfl
    exact absurd first (Nat.not_succ_le_zero _)
  have unheld : held s i = 0 := Nat.eq_zero_of_not_pos fun pos => h.live i pos free
  have notin : i ∉ tmp := fun mem => used i mem free
  have unused : s.ref i = 0 := by rw [h.refs i, unheld, count_eq_zero_of_not_mem notin]
  unfold iget
  rw [if_neg (by rw [show (s.setNode i _).ref i = s.ref i from rfl, unused]; exact lt_irrefl 0)]
  split
  · exact fun eq => Panic.noConfusion eq
  refine .ok ⟨hi, free, fun major minor => ?_⟩
  unfold ilock
  simp only [Sys.setNode, update_self, lt_irrefl, if_false, Bool.false_eq_true, if_neg typed]
  refine .ok ⟨?_, ⟨rfl, rfl⟩, ?_, h.change (y := ⟨type, major, minor, 1, [], []⟩) ⟨rfl, rfl⟩
    (fun j ne => ?_) ⟨update_self .., update_self .., by simp only [update_self]⟩ ?_
    (fun _ one => ?_) (fun _ _ => typed) fun _ => typed⟩
  · simp only [update_idem, update_self]
  · simp only [update_idem]
  · simp only [update_of_ne ne, count_cons_of_ne ne.symm, and_self]
  · rw [unheld, count_cons_self, count_eq_zero_of_not_mem notin]
  · exact absurd (show (1 : Int16) = 0 from one) (by decide)

theorem addSlot_nil {e} (h : addSlot room e [] = some l) : l = [e] := by
  unfold addSlot fillSlot at h
  dsimp only at h
  split at h
  · exact (Option.some.inj h).symm
  · cases h

theorem addSlot_one {e a} (ha : a.inum ≠ 0) (h : addSlot room e [a] = some l) : l = [a, e] := by
  unfold addSlot at h
  simp only [fillSlot, if_neg ha, Option.map_none] at h
  split at h
  · exact (Option.some.inj h).symm
  · cases h

theorem makeDots_spec {ino} (h : Making ino s dp i .dir []) (hi : i ≠ 0) (room : Fin 3 → Bool) :
    Ends Spared (makeDots s i dp room) fun r => Frame s r.2 ∧
      ∃ slots, Making ino r.2 dp i .dir slots ∧ (r.1 = true → slots = startSlots .dir i dp) := by
  refine (dirlink_spec h.acc h.anchored.backed [dot] (room 0)).bind fun ⟨ok, s1⟩ first => ?_
  cases ok with
  | false =>
    obtain ⟨same, acc, -⟩ := first
    exact .ok ⟨same.frame, [], h.same same acc, nofun⟩
  | true =>
    obtain ⟨l, add, rfl, -⟩ := first
    rw [h.node_i.2.2] at add
    obtain rfl := addSlot_nil add
    have h1 := h.entry [⟨i, [dot].take dirsiz⟩] nofun
    refine (dirlink_spec h1.acc h1.anchored.backed [dot, dot] (room 1)).mono fun ⟨ok, s2⟩ second =>
      ?_
    cases ok with
    | false =>
      obtain ⟨same, acc, -⟩ := second
      exact ⟨.trans ⟨rfl, rfl⟩ same.frame, _, h1.same same acc, nofun⟩
    | true =>
      obtain ⟨l, add, rfl, -⟩ := second
      rw [h1.node_i.2.2] at add
      obtain rfl := addSlot_one hi add
      exact ⟨⟨rfl, rfl⟩, _, h1.entry _ nofun, fun _ => rfl⟩

/-- The new inode `i` has its entry in `dp`. -/
def Made (ino : Fin n → Node n) (s' : Sys n) (dp i : Fin n) (type : Kind) (name : List UInt8)
    (room : Bool) : Prop :=
  ∃ s l, Making ino s dp i type (startSlots type i dp) ∧
    addSlot room ⟨i, name.take dirsiz⟩ (ino dp).slots = some l ∧ s' = iput (entered s dp type l) dp

namespace Made
variable {ino : Fin n → Node n} {type : Kind} {name : List UInt8} {room : Bool}

theorem acc (h : Made ino s' dp i type name room) : Acc s' [i] := by
  obtain ⟨s, l, making, -, rfl⟩ := h
  exact iput_acc making.entered_acc.swap

theorem node (h : Made ino s' dp i type name room) :
    (s'.ino i).type = type ∧ (s'.ino i).nlink = 1 := by
  obtain ⟨s, l, making, -, rfl⟩ := h
  rw [(iput_ne making.ne.symm).1, entered_ne making.ne.symm]
  exact ⟨making.node_i.1, making.node_i.2.1⟩

end Made

theorem createIn_cases {ino} (h : Making ino s dp i type []) (hi : i ≠ 0)
    (typed : type ≠ .free) (name : List UInt8) (room : Fin 3 → Bool) :
    Ends Spared (createIn s dp name i type room) fun r => Frame s r.2 ∧ match r.1 with
      | some j => j = i ∧ Made ino r.2 dp i type name (room 2)
      | none =>
        Acc r.2 [] ∧ (∃ x : Node n, x.type = .free ∧ x.slots = [] ∧ r.2.ino = update ino i x) ∧
        (type ≠ .dir → lookup name (ino dp).slots 0 = none →
          addSlot (room 2) ⟨i, name.take dirsiz⟩ (ino dp).slots = none) := by
  have dots : Ends Spared (if type = .dir then makeDots s i dp room else .ok (true, s)) fun r =>
      Frame s r.2 ∧ ∃ slots, Making ino r.2 dp i type slots ∧
        (r.1 = true → slots = startSlots type i dp) ∧ (type ≠ .dir → r.1 = true) := by
    split
    · rename_i isdir
      subst isdir
      exact (makeDots_spec h hi room).mono fun r ⟨frame, slots, making, formed⟩ =>
        ⟨frame, slots, making, formed, fun plain => absurd rfl plain⟩
    · rename_i plain
      exact .ok ⟨⟨rfl, rfl⟩, [], h, fun _ => (if_neg plain).symm, fun _ => rfl⟩
  refine dots.bind fun ⟨ok, s1⟩ ⟨frame1, slots, h1, formed, always⟩ => ?_
  cases ok with
  | false =>
    obtain ⟨acc, undone⟩ := h1.fails typed
    refine .ok ⟨.iput (.iput ⟨frame1.1, frame1.2⟩), acc, undone, fun plain => ?_⟩
    exact nomatch always plain
  | true =>
    refine (dirlink_spec h1.acc h1.anchored.backed name (room 2)).bind fun ⟨ok, s2⟩ linked => ?_
    cases ok with
    | false =>
      obtain ⟨same, acc, full⟩ := linked
      rw [h1.node_dp] at full
      obtain ⟨acc, undone⟩ := (h1.same same acc).fails typed
      exact .ok ⟨.iput (.iput ⟨same.ftable.trans frame1.1, same.proc.trans frame1.2⟩),
        acc, undone, fun _ => full⟩
    | true =>
      obtain ⟨l, add, rfl, -⟩ := linked
      rw [h1.node_dp] at add
      obtain rfl := formed rfl
      exact .ok ⟨.iput (frame1.trans entered_frame), rfl, s1, l, h1, add, rfl⟩

/-- `create` does not come to a new inode: there is no directory for it, the name exists, or no
inode is free. -/
def Refused (s : Sys n) (cwd : Fin n) (path : List UInt8) : Prop :=
  ∀ dp name, resolvePath s.ino cwd path true = some (dp, name) →
    lookup name (s.ino dp).slots 0 ≠ none ∨ ∀ i, i ≠ 0 → (s.ino i).type ≠ .free

/-- What `create` comes to. -/
inductive Creates (s : Sys n) (cwd : Fin n) (path : List UInt8) (type : Kind)
    (room : Fin 3 → Bool) : Option (Fin n) → Sys n → Prop
  | refused {s' : Sys n} : s'.ino = s.ino → Acc s' [] → Refused s cwd path →
      Creates s cwd path type room none s'
  | undone {s' : Sys n} {dp i : Fin n} {name : List UInt8} {x : Node n} :
      resolvePath s.ino cwd path true = some (dp, name) → (s.ino i).type = .free →
      x.type = .free → x.slots = [] → s'.ino = update s.ino i x → Acc s' [] →
      (type ≠ .dir → addSlot (room 2) ⟨i, name.take dirsiz⟩ (s.ino dp).slots = none) →
      Creates s cwd path type room none s'
  | found {s' : Sys n} {i : Fin n} : s'.ino = s.ino → Acc s' [i] → (s.ino i).type ≠ .free →
      Refused s cwd path → Creates s cwd path type room (some i) s'
  | made {s' : Sys n} {dp i : Fin n} {name : List UInt8} :
      resolvePath s.ino cwd path true = some (dp, name) → lookup name (s.ino dp).slots 0 = none →
      i ≠ 0 → (s.ino i).type = .free → Made s.ino s' dp i type name (room 2) →
      Creates s cwd path type room (some i) s'

theorem create_cases (type : Kind) (h : Acc s []) (pos : 0 < s.ref cwd) (typed : type ≠ .free)
    (path : List UInt8) (major minor : Int16) (room : Fin 3 → Bool) :
    Ends Spared (create s cwd path type major minor room) fun r =>
      Frame s r.2 ∧ Creates s cwd path type room r.1 r.2 := by
  refine (namex_spec h h.anchored.backed pos path true).bind fun ⟨r, s1⟩ ⟨found, same1, acc1⟩ => ?_
  cases r with
  | none =>
    refine .ok ⟨same1.frame, .refused same1.ino acc1 fun dp name eq => ?_⟩
    rw [← found] at eq
    exact nomatch eq
  | some r =>
    obtain ⟨dp, name⟩ := r
    have dir := resolve_dir found.symm
    refine (ilock_spec acc1).bind fun s2 ⟨acc2, same2, _, locked⟩ => ?_
    have same : Same [] s s2 := same1.trans (same2.mono (nil_subset _))
    refine (dirlookup_spec acc2 name).bind fun ⟨r, s3⟩ ⟨_, entry, same3, acc3⟩ => ?_
    rw [same.ino] at entry
    have same' : Same [] s s3 := same.trans (same3.mono (nil_subset _))
    have anchored3 := same'.anchored h.anchored
    cases r with
    | some r =>
      have refused : Refused s cwd path := by
        intro dp' name' eq
        rw [← found] at eq
        cases eq
        refine .inl fun none => ?_
        rw [none] at entry
        exact nomatch entry
      have put := iput_same acc3.swap anchored3.backed
      refine (ilock_spec (iput_acc acc3.swap)).bind fun s4 ⟨acc4, same4, used, _⟩ => ?_
      have ino3 : (iput s3 dp).ino = s.ino := put.ino.trans same'.ino
      have ino4 : s4.ino = s.ino := same4.ino.trans ino3
      have frame4 : Frame s s4 := same'.frame.trans (put.frame.trans same4.frame)
      rw [ino3] at used
      split
      · exact .ok ⟨frame4, .found ino4 acc4 used refused⟩
      · have anchored4 := same4.anchored (put.anchored anchored3)
        refine .ok ⟨frame4.iput, .refused ?_ (iput_acc acc4) refused⟩
        exact (iput_same acc4 anchored4.backed).ino.trans ino4
    | none =>
      obtain rfl : s3 = s2 := acc3
      have used : ∀ j ∈ [dp], (s3.ino j).type ≠ .free := by
        intro j hj
        rw [mem_singleton.1 hj, same.ino, dir]
        exact nofun
      refine (ialloc_spec acc2 used typed).bind fun ⟨r, s4⟩ new => ?_
      cases r with
      | none =>
        obtain ⟨rfl, full⟩ : s4 = s3 ∧ ∀ i, i ≠ 0 → (s3.ino i).type ≠ .free := new
        rw [same.ino] at full
        refine .ok ⟨same.frame.iput, .refused ?_ (iput_acc acc2) fun _ _ _ => .inr full⟩
        exact (iput_same acc2 anchored3.backed).ino.trans same.ino
      | some i =>
        obtain ⟨hi, free, locked_i⟩ := new
        refine (locked_i major minor).bind fun s5 ⟨ino5, frame5, valid5, acc5⟩ => ?_
        rw [same.ino] at free ino5
        have frame : Frame s
          (s5.setNode i { s5.ino i with major := major, minor := minor, nlink := 1 }) :=
          same.frame.trans frame5
        have making : Making s.ino
          (s5.setNode i { s5.ino i with major := major, minor := minor, nlink := 1 })
            dp i type [] := by
          refine ⟨dir, free, ⟨major, minor, ino5⟩, acc5, fun j used zero => ?_, ?_, ?_, ?_⟩
          · rw [frame.held]
            have hj : j ≠ i := by
              rintro rfl
              rw [ino5, update_self] at zero
              exact absurd (show (1 : Int16) = 0 from zero) (by decide)
            rw [ino5, update_of_ne hj] at used zero
            exact h.anchored j used zero
          · rw [valid5, update_self]
          · have ne : dp ≠ i := by
              rintro rfl
              exact used dp mem_cons_self (same.ino ▸ free)
            rw [valid5, update_of_ne ne]
            exact locked
          · rw [frame.held]
            exact Nat.eq_zero_of_not_pos fun pos => h.live i pos free
        refine (createIn_cases making hi typed name room).mono fun ⟨r, s6⟩ ⟨frame', post⟩ =>
          ⟨frame.trans frame', ?_⟩
        cases r with
        | none =>
          obtain ⟨acc, ⟨x, free_x, bare, ino6⟩, full⟩ := post
          exact .undone found.symm free free_x bare ino6 acc fun plain => full plain entry.symm
        | some j =>
          obtain ⟨rfl, made⟩ := post
          exact .made found.symm entry.symm hi free made

/-! ## `sys_unlink` -/

/-- The last name of the path, not `.` or `..`, is the entry at `off` of `dp`, for `ip`. -/
def Named (ino : Fin n → Node n) (cwd : Fin n) (path : List UInt8) (dp ip : Fin n) (off : Nat) :
    Prop :=
  ∃ name, resolvePath ino cwd path true = some (dp, name) ∧
    ¬ (namecmp name [dot] = true ∨ namecmp name [dot, dot] = true) ∧
    lookup name (ino dp).slots 0 = some (ip, off)

/-- The entry and the links are gone, and the reference to the directory. -/
def removed (s : Sys n) (dp ip : Fin n) (off : Nat) : Sys n :=
  let s := s.setNode dp { s.ino dp with slots := (s.ino dp).slots.set off ⟨0, []⟩ }
  let s := if (s.ino ip).type = .dir then s.setNlink dp ((s.ino dp).nlink - 1) else s
  let s := iput s dp
  s.setNlink ip ((s.ino ip).nlink - 1)

theorem removed_frame {off} : Frame s (removed s dp i off) := by
  unfold removed
  dsimp only
  split
  · exact .iput (i := dp) ⟨rfl, rfl⟩
  · exact .iput (i := dp) ⟨rfl, rfl⟩

omit [NeZero n] in
/-- An inode that the call has locked changes. -/
theorem locked_setNode (h : Acc s tmp) (mem : i ∈ tmp) (locked : s.valid i = true)
    (type : x.type = (s.ino i).type) : Acc (s.setNode i x) tmp := by
  refine h.setNode ?_ fun _ => ⟨h.pos mem, locked⟩
  rw [type]
  exact h.valid i (h.pos mem) locked

theorem removed_acc {off} (h : Acc s [i, dp]) (valid : s.valid i = true)
    (locked : s.valid dp = true) : Acc (removed s dp i off) [i] := by
  have mem : dp ∈ [i, dp] := mem_cons_of_mem _ mem_cons_self
  unfold removed
  dsimp only
  generalize hs1 : s.setNode dp { s.ino dp with slots := (s.ino dp).slots.set off ⟨0, []⟩ } = s1
  have acc1 : Acc s1 [i, dp] := by
    rw [← hs1]
    exact locked_setNode h mem locked rfl
  have valid1 : s1.valid = s.valid := by
    rw [← hs1]
    rfl
  generalize hs2 :
    (if (s1.ino i).type = .dir then s1.setNlink dp ((s1.ino dp).nlink - 1) else s1) = s2
  have acc2 : Acc s2 [i, dp] ∧ s2.valid = s.valid := by
    rw [← hs2]
    split
    · exact ⟨locked_setNode acc1 mem (by rw [valid1]; exact locked) rfl, valid1⟩
    · exact ⟨acc1, valid1⟩
  have put := iput_acc acc2.1.swap
  refine locked_setNode put mem_cons_self ?_ rfl
  rw [(iput_kept acc2.1.swap mem_cons_self).2, acc2.2]
  exact valid

/-- What `sys_unlink` comes to. -/
inductive Unlinks (s : Sys n) (cwd : Fin n) (path : List UInt8) : Int → Sys n → Prop
  | failed {s' : Sys n} : s'.ino = s.ino → Acc s' [] → Unlinks s cwd path (-1) s'
  | done {s1 : Sys n} {dp ip : Fin n} {off : Nat} :
    Named s.ino cwd path dp ip off → (s.ino dp).type = .dir →
      ((s.ino ip).type = .dir → isdirempty (s.ino ip) = true) → s1.ino = s.ino →
      Acc s1 [ip, dp] → s1.valid ip = true → s1.valid dp = true →
      Unlinks s cwd path 0 (iput (removed s1 dp ip off) ip)

theorem Unlinks.acc {path r} (h : Unlinks s cwd path r s') : Acc s' [] := by
  cases h with
  | failed _ acc => exact acc
  | done _ _ _ _ acc valid locked => exact iput_acc (removed_acc acc valid locked)

/-- The panic of `sys_unlink` is for an entry whose inode has no links. -/
def Unlinked (s : Sys n) (cwd : Fin n) (path : List UInt8) (e : Panic) : Prop :=
  e = .unlinkNlink → ∃ dp ip off, Named s.ino cwd path dp ip off ∧ (s.ino dp).type = .dir ∧
    (s.ino ip).nlink < 1

theorem sysUnlink_cases (h : Acc s []) (pos : 0 < s.ref cwd) (path : List UInt8) :
    Ends (Unlinked s cwd path) (sysUnlink s cwd path) fun r => Frame s r.2 ∧
      Unlinks s cwd path r.1 r.2 := by
  have spared : ∀ e, Spared e → Unlinked s cwd path e := fun e ne eq => absurd eq ne
  refine ((namex_spec h h.anchored.backed pos path true).weaken spared).bind fun r post => ?_
  obtain ⟨r, s1⟩ := r
  obtain ⟨found, same1, acc1⟩ := post
  cases r with
  | none => exact .ok ⟨same1.frame, .failed same1.ino acc1⟩
  | some r =>
    obtain ⟨dp, name⟩ := r
    have dir := resolve_dir found.symm
    refine ((ilock_spec acc1).weaken spared).bind fun s2 post => ?_
    obtain ⟨acc2, same2, _, locked⟩ := post
    have same : Same [] s s2 := same1.trans (same2.mono (nil_subset _))
    have put2 := iput_same acc2 (same.anchored h.anchored).backed
    split
    · exact .ok ⟨same.frame.iput, .failed (put2.ino.trans same.ino) (iput_acc acc2)⟩
    rename_i plain
    refine ((dirlookup_spec acc2 name).weaken spared).bind fun r post => ?_
    obtain ⟨r, s3⟩ := r
    obtain ⟨_, entry, same3, acc3⟩ := post
    rw [same.ino] at entry
    have same' : Same [] s s3 := same.trans (same3.mono (nil_subset _))
    cases r with
    | none =>
      obtain rfl : s3 = s2 := acc3
      exact .ok ⟨same.frame.iput, .failed (put2.ino.trans same.ino) (iput_acc acc2)⟩
    | some r =>
      obtain ⟨ip, off⟩ := r
      have named : Named s.ino cwd path dp ip off := ⟨name, found.symm, plain, entry.symm⟩
      refine ((ilock_spec acc3).weaken spared).bind fun s4 post => ?_
      obtain ⟨acc4, same4, _, valid⟩ := post
      have same'' : Same [] s s4 := same'.trans (same4.mono (nil_subset _))
      have locked4 : s4.valid dp = true :=
        same4.valid dp (mem_cons_of_mem _ mem_cons_self) (same3.valid dp mem_cons_self locked)
      split
      · rename_i low
        rw [same''.ino] at low
        exact fun _ => ⟨dp, ip, off, named, dir, low⟩
      split
      · have anchored4 := same''.anchored h.anchored
        have put4 := iput_same acc4 anchored4.backed
        have put5 := iput_same (iput_acc acc4) (put4.anchored anchored4).backed
        exact .ok ⟨same''.frame.iput.iput,
          .failed (put5.ino.trans (put4.ino.trans same''.ino)) (iput_acc (iput_acc acc4))⟩
      · rename_i full
        rw [same''.ino] at full
        refine .ok ⟨.iput (same''.frame.trans removed_frame),
          .done named dir (fun isdir => ?_) same''.ino acc4 valid locked4⟩
        by_contra nonempty
        exact full ⟨isdir, nonempty⟩

/-! ## `sys_link` -/

/-- A file that `sys_link` has counted once more, in `s`; `ino` is from before. -/
structure Linking (ino : Fin n → Node n) (s : Sys n) (ip : Fin n) (tmp : List (Fin n)) : Prop where
  used : (ino ip).type ≠ .free
  plain : (ino ip).type ≠ .dir
  more : s.ino = update ino ip { ino ip with nlink := (ino ip).nlink + 1 }
  acc : Acc s tmp
  anchored : ∀ i, (ino i).type ≠ .free → (ino i).nlink = 0 → 0 < held s i

namespace Linking
variable {ino : Fin n → Node n} {ip : Fin n}
omit [NeZero n]

theorem same {tmp1 tmp2} (h : Linking ino s ip tmp) (same : Same tmp1 s s')
    (acc : Acc s' tmp2) : Linking ino s' ip tmp2 where
  used := h.used
  plain := h.plain
  more := same.ino.trans h.more
  acc := acc
  anchored i used zero := by
    rw [held_congr same.ftable same.proc]
    exact h.anchored i used zero

/-- The count of the file itself may have come to 0. -/
theorem backed (h : Linking ino s ip tmp) : Backed [ip] s := by
  intro j used zero
  by_cases hj : j = ip
  · rw [hj, count_cons_self]
    omega
  · rw [h.more, update_of_ne hj] at used zero
    have := h.anchored j used zero
    omega

/-- Types and entries are those from before. -/
theorem unchanged (h : Linking ino s ip tmp) (i : Fin n) :
    (s.ino i).type = (ino i).type ∧ (s.ino i).slots = (ino i).slots := by
  rw [h.more]
  by_cases hi : i = ip
  · rw [hi, update_self]
    exact ⟨rfl, rfl⟩
  · rw [update_of_ne hi]
    exact ⟨rfl, rfl⟩

/-- The label `bad`. -/
theorem undo (h : Linking ino s ip [ip]) :
    Ends Spared (sysLink.undo s ip) fun r => r.1 = -1 ∧ Frame s r.2 ∧ r.2.ino = ino ∧
      Acc r.2 [] := by
  refine (ilock_spec h.acc).bind fun s1 post => ?_
  obtain ⟨acc1, same1, used1, valid1⟩ := post
  have back : (s1.setNlink ip ((s1.ino ip).nlink - 1)).ino = ino := by
    simp only [Sys.setNlink, Sys.setNode, same1.ino, h.more, update_self, update_idem]
    rw [show (ino ip).nlink + 1 - 1 = (ino ip).nlink by simp]
    exact update_eq_self ip ino
  have acc2 : Acc (s1.setNlink ip ((s1.ino ip).nlink - 1)) [ip] :=
    locked_setNode acc1 mem_cons_self valid1 rfl
  have anchored : Anchored (s1.setNlink ip ((s1.ino ip).nlink - 1)) := by
    intro j used zero
    rw [back] at used zero
    have pos := h.anchored j used zero
    rwa [← held_congr same1.ftable same1.proc] at pos
  have put := iput_same acc2 anchored.backed
  exact .ok ⟨rfl, .iput same1.frame, put.ino.trans back, iput_acc acc2⟩

end Linking

/-- What `sys_link` comes to. -/
inductive Links (s : Sys n) (cwd : Fin n) (old new : List UInt8) (room : Bool) : Int → Sys n → Prop
  | failed {s' : Sys n} : s'.ino = s.ino → Acc s' [] → Links s cwd old new room (-1) s'
  | done {s1 : Sys n} {dp ip : Fin n} {last name : List UInt8} {l : List (Dirent n)} :
      resolvePath s.ino cwd old false = some (ip, last) → (s.ino ip).type ≠ .free →
        (s.ino ip).type ≠ .dir →
      resolvePath s.ino cwd new true = some (dp, name) → lookup name (s.ino dp).slots 0 = none →
      addSlot room ⟨ip, name.take dirsiz⟩ (s.ino dp).slots = some l →
      s1.ino = update (update s.ino ip { s.ino ip with nlink := (s.ino ip).nlink + 1 }) dp
        { s.ino dp with slots := l } → Acc s1 [dp, ip] →
      Links s cwd old new room 0 (iput (iput s1 dp) ip)

theorem Links.acc {old new r} (h : Links s cwd old new room r s') : Acc s' [] := by
  cases h with
  | failed _ acc => exact acc
  | done _ _ _ _ _ _ _ acc => exact iput_acc (iput_acc acc)

theorem sysLink_cases (h : Acc s []) (user : 0 < held s cwd) (old new : List UInt8) (room : Bool) :
    Ends Spared (sysLink s cwd old new room) fun r => Frame s r.2 ∧
      Links s cwd old new room r.1 r.2 := by
  refine (namex_spec h h.anchored.backed (h.used user) old false).bind fun r post => ?_
  obtain ⟨r, s1⟩ := r
  obtain ⟨found, same1, acc1⟩ := post
  cases r with
  | none => exact .ok ⟨same1.frame, .failed same1.ino acc1⟩
  | some r =>
    obtain ⟨ip, last⟩ := r
    refine (ilock_spec acc1).bind fun s2 post => ?_
    obtain ⟨acc2, same2, used, valid⟩ := post
    have same : Same [] s s2 := same1.trans (same2.mono (nil_subset _))
    rw [same1.ino] at used
    split
    · have put := iput_same acc2 (same.anchored h.anchored).backed
      exact .ok ⟨same.frame.iput, .failed (put.ino.trans same.ino) (iput_acc acc2)⟩
    rename_i plain
    rw [same.ino] at plain
    generalize hs3 : s2.setNlink ip ((s2.ino ip).nlink + 1) = s3
    have frame3 : Frame s s3 := by
      rw [← hs3]
      exact same.frame
    have linking : Linking s.ino s3 ip [ip] := by
      refine ⟨used, plain, ?_, ?_, fun j used zero => ?_⟩
      · rw [← hs3, Sys.setNlink, Sys.setNode, same.ino]
      · rw [← hs3]
        exact locked_setNode acc2 mem_cons_self valid rfl
      · rw [frame3.held]
        exact h.anchored j used zero
    rw [← frame3.held] at user
    refine (namex_spec linking.acc linking.backed (linking.acc.used user) new true).bind
      fun r post => ?_
    obtain ⟨r, s4⟩ := r
    obtain ⟨found', same4, acc4⟩ := post
    have frame4 := frame3.trans same4.frame
    -- both labels `bad` leave the inodes of before
    have bad : ∀ {s' : Sys n}, Frame s s' → Linking s.ino s' ip [ip] →
        Ends Spared (sysLink.undo s' ip) fun r => Frame s r.2 ∧
        Links s cwd old new room r.1 r.2 := by
      intro s' frame linking
      refine linking.undo.mono fun r post => ?_
      obtain ⟨minus, frame', ino, acc⟩ := post
      refine ⟨frame.trans frame', ?_⟩
      rw [minus]
      exact .failed ino acc
    cases r with
    | none => exact bad frame4 (linking.same same4 acc4)
    | some r =>
      obtain ⟨dp, name⟩ := r
      rw [resolvePath, resolve_congr linking.unchanged] at found'
      have dir := resolve_dir found'.symm
      have ne : dp ≠ ip := by
        rintro rfl
        exact plain dir
      refine (ilock_spec acc4).bind fun s5 post => ?_
      obtain ⟨acc5, same5, _, locked⟩ := post
      have linking5 := (linking.same same4 acc4).same same5 acc5
      have frame5 := frame4.trans same5.frame
      refine (dirlink_spec acc5 linking5.backed.cons name room).bind fun r entry => ?_
      obtain ⟨ok, s6⟩ := r
      cases ok with
      | true =>
        obtain ⟨l, add, rfl, new⟩ := entry
        have node : s5.ino dp = s.ino dp := by rw [linking5.more, update_of_ne ne]
        rw [node] at add new
        refine .ok ⟨.iput (.iput ⟨frame5.1, frame5.2⟩),
          .done found.symm used plain found'.symm new add ?_
          (locked_setNode acc5 mem_cons_self locked rfl)⟩
        rw [Sys.setNode, node, linking5.more]
      | false =>
        obtain ⟨same6, acc6, -⟩ := entry
        have linking6 := linking5.same same6 acc6
        exact bad (frame5.trans same6.frame).iput
          (linking6.same (iput_same acc6 linking6.backed) (iput_acc acc6))

/-! ## Open files -/

/-- The tables between system calls. -/
structure Ready (s : Sys n) : Prop where
  acc : Acc s []
  closed : Closed s

omit [NeZero n] in
theorem fileclose_spec (h : Acc s tmp) (closed : Closed s) (f : Fin nfile) :
    Ends Spared (fileclose s f) fun s' => Acc s' tmp ∧ Closed s' ∧ s'.proc = s.proc ∧
      Drops s.ino s'.ino ∧
      ((s.ftable f).type = .none → s'.ino = s.ino ∧ s'.ref = s.ref ∧ s'.valid = s.valid) := by
  unfold fileclose
  dsimp only
  split
  · exact fun eq => Panic.noConfusion eq
  split
  · refine .ok ⟨h.still_file (if_congr (and_congr_left fun _ => ?_) rfl rfl),
      closed.update fun zero => ?_, rfl, .refl, fun _ => ⟨rfl, rfl, rfl⟩⟩
    · dsimp only
      omega
    · dsimp only at zero
      omega
  · have closed' := closed.update (f := f) (x := { s.ftable f with ref := 0, type := .none })
      fun _ => rfl
    split
    · rename_i typed
      have before : holder s (.inr f) = some (s.ftable f).ip := by
        refine if_pos ⟨by omega, ?_⟩
        rcases typed with typed | typed <;> rw [typed] <;> exact nofun
      have acc := h.close_file (y := { s.ftable f with ref := 0, type := .none }) before rfl
      refine .ok ⟨iput_acc acc, Frame.closed iput_frame closed', iput_frame.2, iput_drops acc,
        fun none => ?_⟩
      rw [none] at typed
      rcases typed with typed | typed <;> exact nomatch typed
    · rename_i untyped
      have type : (s.ftable f).type = .none := by
        cases type : (s.ftable f).type with
        | none => rfl
        | inode => exact absurd (.inl type) untyped
        | device => exact absurd (.inr type) untyped
      refine .ok ⟨h.still_file ?_, closed', rfl, .refl, fun _ => ⟨rfl, rfl, rfl⟩⟩
      exact (if_neg fun both => both.2 rfl).trans (if_neg fun both => both.2 type).symm

omit [NeZero n] in
theorem iput_congr (ino : s'.ino = s.ino) (ref : s'.ref = s.ref) (valid : s'.valid = s.valid) :
    (iput s' i).ino = (iput s i).ino := by
  unfold iput
  rw [ref, valid, ino]
  split
  · rw [Sys.setNode, Sys.setNode, ino]
  · rfl

omit [NeZero n] in
/-- `O_TRUNC` empties a file that is in use. -/
theorem Ready.cut {cond : Prop} [Decidable cond] (used : (s.ino i).type ≠ .free) (h : Ready s) :
    Ready (if cond then s.setNode i { s.ino i with data := [] } else s) := by
  split
  · exact ⟨h.acc.setNode used fun zero => h.acc.kept i used zero, h.closed⟩
  · exact h

/-- No entry of the file table or no descriptor of the process is free. -/
def Full (s : Sys n) (pr : Proc n) : Prop := (∀ f, (s.ftable f).ref ≠ 0) ∨ ∀ fd, pr.ofile fd ≠ none

omit [NeZero n] in
/-- `filealloc` takes an entry that refers to no inode. -/
theorem filealloc_some {f s1} (h : Acc s tmp) (closed : Closed s)
    (new : filealloc s = some (f, s1)) :
    s1 = { s with ftable := update s.ftable f { s.ftable f with ref := 1 } } ∧
      Acc s1 tmp ∧ Closed s1 ∧ (s.ftable f).type = .none := by
  obtain ⟨g, found, eq⟩ := Option.map_eq_some_iff.1 new
  obtain ⟨rfl, rfl⟩ := Prod.mk.inj eq
  have unused : (s.ftable g).ref = 0 := by simpa using find?_some found
  have untyped := closed g unused
  refine ⟨rfl, h.still_file ?_, closed.update nofun, untyped⟩
  exact (if_neg fun both => both.2 untyped).trans (if_neg (by omega)).symm

/-- What `sys_open` comes to with the inode `ip`. -/
inductive Opens (s : Sys n) (pr : Proc n) (ip : Fin n) : Int → Sys n → Prop
  | failed {s' : Sys n} : s'.ino = (iput s ip).ino → ((s.ino ip).type = .file → Full s pr) →
      Opens s pr ip (-1) s'
  | done {s' : Sys n} {fd : Fin nofile} {d : List UInt8} :
      s'.ino = update s.ino ip { s.ino ip with data := d } → Opens s pr ip fd.val s'

omit [NeZero n] in
theorem openFile_cases {ip} (h : Acc s [ip]) (closed : Closed s)
    (used : (s.ino ip).type ≠ .free) (caller : s.proc p = some pr) (omode : UInt32) :
    Ends Spared (openFile s p pr ip omode) fun r => Ready r.2 ∧ Opens s pr ip r.1 r.2 := by
  have put : Ready (iput s ip) := ⟨iput_acc h, Frame.closed iput_frame closed⟩
  unfold openFile
  dsimp only
  split
  · rename_i device
    refine .ok ⟨put, .failed rfl fun file => ?_⟩
    rw [file] at device
    exact nomatch device.1
  split
  · rename_i none
    refine .ok ⟨put, .failed rfl fun _ => .inl fun f zero => ?_⟩
    have := find?_eq_none.1 (Option.map_eq_none_iff.1 none) f (mem_finRange f)
    exact this (decide_eq_true zero)
  rename_i g s1 new
  obtain ⟨rfl, acc1, closed1, untyped⟩ := filealloc_some h closed new
  split
  · rename_i none
    refine (fileclose_spec acc1 closed1 g).bind fun s2 ⟨acc2, closed2, _, _, same⟩ => ?_
    obtain ⟨ino, ref, valid⟩ := same (by simp only [update_self, untyped])
    refine .ok ⟨⟨iput_acc acc2, Frame.closed iput_frame closed2⟩,
      .failed (iput_congr ino ref valid) fun _ => .inr fun fd free => ?_⟩
    have := find?_eq_none.1 (Option.map_eq_none_iff.1 none) fd (mem_finRange fd)
    exact this (decide_eq_true free)
  rename_i fd pr' slot
  obtain ⟨fd', -, eq⟩ := Option.map_eq_some_iff.1 slot
  obtain ⟨rfl, rfl⟩ := Prod.mk.inj eq
  have opened : ∀ y : File n, 0 < y.ref ∧ y.type ≠ .none → y.ip = ip →
      Ready (({ s with ftable := update (update s.ftable g { s.ftable g with ref := 1 }) g y
      }).setProc p
        (some { pr with ofile := update pr.ofile fd' (some g) })) := by
    intro y both hip
    refine ⟨?_, closed1.update fun zero => absurd zero (Nat.ne_of_gt both.1)⟩
    have := acc1.open_file (f := g) used (holder_file.trans (if_neg fun both => both.2 untyped))
      both hip
    exact this.setProc caller rfl
  refine .ok ⟨.cut used (opened _ ⟨?_, ?_⟩ rfl), ?_⟩
  · simp only [update_self, one_pos]
  · split <;> exact nofun
  · split
    · exact .done rfl
    · exact .done (d := (s.ino ip).data) (update_eq_self ip s.ino).symm

/-- The references of one more call, if it frees inodes only. -/
theorem sysChdir_refs (h : Ready s) (caller : s.proc p = some pr) (path : List UInt8) :
    Ends Spared (sysChdir s p pr path) fun r => Ready r.2 ∧ Drops s.ino r.2.ino := by
  have pos := h.acc.used (held_pos (holder_cwd caller))
  refine (namex_spec h.acc h.acc.anchored.backed pos path false).bind
    fun ⟨r, s1⟩ ⟨_, same1, acc1⟩ => ?_
  cases r with
  | none =>
    refine .ok ⟨⟨acc1, same1.frame.closed h.closed⟩, ?_⟩
    rw [same1.ino]
    exact .refl
  | some r =>
    obtain ⟨ip, name⟩ := r
    refine (ilock_spec acc1).bind fun s2 ⟨acc2, same2, used, _⟩ => ?_
    have same : Same [] s s2 := same1.trans (same2.mono (nil_subset _))
    rw [← same.ino]
    split
    · exact .ok ⟨⟨iput_acc acc2, same.frame.iput.closed h.closed⟩, iput_drops acc2⟩
    · rw [← same2.ino] at used
      have moved : Acc (s2.setProc p (some { pr with cwd := ip })) [pr.cwd] := by
        refine acc2.move_proc ?_ fun pr' is => ?_
        · rw [same.proc, caller]
          exact List.Perm.swap ..
        · rw [← Option.some.inj is]
          exact used
      rw [iput_setProc]
      exact .ok ⟨⟨iput_acc moved, Frame.closed iput_frame (same.frame.closed h.closed)⟩,
        iput_drops moved⟩

omit [NeZero n] in
theorem sysClose_refs (h : Ready s) (caller : s.proc p = some pr) (fd : Int) :
    Ends Spared (sysClose s p pr fd) fun r => Ready r.2 ∧ Drops s.ino r.2.ino := by
  unfold sysClose
  split
  · dsimp only
    split
    · exact .ok ⟨h, .refl⟩
    · refine (fileclose_spec (h.acc.setProc caller ?_) ?_ _).bind
        fun s' ⟨acc, closed, _, drops, _⟩ => ?_
      · rfl
      · exact h.closed
      · exact .ok ⟨⟨acc, closed⟩, drops⟩
  · exact .ok ⟨h, .refl⟩

omit [NeZero n] in
/-- One more reference to a file in the table. -/
theorem filedup_spec (h : Ready s) (f : Fin nfile) :
    Ends Spared (filedup s f) fun s' => Ready s' ∧ s'.proc = s.proc ∧ s'.ino = s.ino := by
  unfold filedup
  split
  · exact fun eq => Panic.noConfusion eq
  · refine .ok ⟨⟨h.acc.still_file (if_congr (and_congr_left fun _ => ?_) rfl rfl),
      h.closed.update nofun⟩, rfl, rfl⟩
    dsimp only
    omega

omit [NeZero n] in
theorem kfork_refs {c} (h : Ready s) (caller : s.proc p = some pr) :
    Ends Spared (kfork s pr c) fun r => Ready r.2 ∧ r.2.ino = s.ino := by
  unfold kfork
  split
  · exact .ok ⟨h, rfl⟩
  rename_i unused
  refine (Ends.foldlM (I := fun _ s' => Ready s' ∧ s'.proc = s.proc ∧ s'.ino = s.ino)
    ⟨h, rfl, rfl⟩ ?_).bind fun s1 ⟨ready, proc, ino⟩ => ?_
  · intro _ fd _ s' _ hs'
    split
    · exact (filedup_spec hs'.1 _).mono fun s'' ⟨ready, proc, ino⟩ =>
        ⟨ready, proc.trans hs'.2.1, ino.trans hs'.2.2⟩
    · exact .ok hs'
  · have held := held_pos (holder_cwd (proc ▸ caller : s1.proc p = some pr))
    have dup : Acc (idup s1 pr.cwd) [pr.cwd] := ready.acc.dup (ready.acc.used held)
    refine .ok ⟨⟨dup.move_proc ?_ fun pr' is => ?_, ready.closed⟩, ino⟩
    · rw [show (idup s1 pr.cwd).proc c =
        none by rw [← Option.not_isSome_iff_eq_none]; exact proc ▸ unused]
      rfl
    · rw [← Option.some.inj is]
      exact ready.acc.live _ held

omit [NeZero n] in
theorem kexit_refs (h : Ready s) (caller : s.proc p = some pr) :
    Ends Spared (kexit s p pr) fun s' => Ready s' ∧ Drops s.ino s'.ino := by
  unfold kexit
  split
  · exact fun eq => Panic.noConfusion eq
  refine (Ends.foldlM (I := fun _ s' => Ready s' ∧ s'.proc = s.proc ∧ Drops s.ino s'.ino)
    ⟨h, rfl, .refl⟩ ?_).bind fun s1 ⟨ready, proc, drops⟩ => ?_
  · intro _ fd _ s' _ hs'
    split
    · exact (fileclose_spec hs'.1.acc hs'.1.closed _).mono fun s'' ⟨acc, closed, proc, drops, _⟩ =>
        ⟨⟨acc, closed⟩, proc.trans hs'.2.1, hs'.2.2.trans drops⟩
    · exact .ok hs'
  · have moved : Acc (s1.setProc p none) [pr.cwd] := by
      refine ready.acc.move_proc ?_ nofun
      rw [proc, caller]
      rfl
    rw [iput_setProc]
    exact .ok ⟨⟨iput_acc moved, Frame.closed iput_frame ready.closed⟩,
      drops.trans (iput_drops moved)⟩

end OsProject.Xv6.CallOutcomes
