import OsProject.Xv6.FileTree

/-! # Calls that fail

A call of `sysfile.c` that returns -1 leaves the tree of files as it was, with one
exception: `sys_open` makes the file before it has an entry of the file table and
a descriptor for it, and keeps the file when it cannot have them. -/
namespace OsProject.Xv6.FailedCalls
open Lib.Outcome Lib.Transition Lib Option
open Files References CallOutcomes FileTree
open Function (update update_of_ne update_self)

variable {n : Nat} [NeZero n] {s s0 s' : Sys n} {i : Fin n} {p : Fin nproc} {pr : Proc n}

/-! ## The other calls that use the tables -/

theorem toNat_lt_nofile {fd : Int} (h : 0 ≤ fd ∧ fd < nofile) : fd.toNat < nofile := by omega

def sysDup (s : Sys n) (p : Fin nproc) (pr : Proc n) (fd : Int) : Except Panic (Int × Sys n) :=
  if h : 0 ≤ fd ∧ fd < nofile then
    match pr.ofile ⟨fd.toNat, toNat_lt_nofile h⟩ with
    | none => .ok (-1, s)
    | some f =>
      match fdalloc pr f with
      | none => .ok (-1, s)
      | some (new, pr) => do
        let s ← filedup (s.setProc p (some pr)) f
        return (new.val, s)
  else .ok (-1, s)

/-- The two ends of a pipe, if there is memory for it. They refer to no inode and have no
type here. -/
def pipealloc (s : Sys n) (memory : Bool) : Except Panic (Option (Fin nfile × Fin nfile) × Sys n) :=
  match filealloc s with
  | none => .ok (none, s)
  | some (f0, s) =>
    match filealloc s with
    | none => do
      let s ← fileclose s f0
      return (none, s)
    | some (f1, s) =>
      if memory then
        let s := { s with ftable := update s.ftable f0 { s.ftable f0 with
          readable := true, writable := false } }
        .ok (some (f0, f1),
          { s with ftable := update s.ftable f1 { s.ftable f1 with
          readable := false, writable := true } })
      else do
        let s ← fileclose s f0
        let s ← fileclose s f1
        return (none, s)

/-- With `told` for the result of the two `copyout`. -/
def sysPipe (s : Sys n) (p : Fin nproc) (pr : Proc n) (memory told : Bool) :
    Except Panic (Int × Sys n) := do
  let (r, s) ← pipealloc s memory
  match r with
  | none => return (-1, s)
  | some (rf, wf) =>
    match fdalloc pr rf with
    | none => bad s rf wf
    | some (fd0, pr) =>
      match fdalloc pr wf with
      | none => bad (s.setProc p (some (clear pr fd0))) rf wf
      | some (fd1, pr) =>
        if told then return (0, s.setProc p (some pr))
        else bad (s.setProc p (some (clear (clear pr fd0) fd1))) rf wf
where
  clear (pr : Proc n) (fd : Fin nofile) : Proc n := { pr with ofile := update pr.ofile fd none }
  bad (s : Sys n) (rf wf : Fin nfile) : Except Panic (Int × Sys n) := do
    let s ← fileclose s rf
    let s ← fileclose s wf
    return (-1, s)

/-- A completed call, or bytes written to a file. -/
inductive Event (n : Nat) where
  | call (p : Fin nproc) (c : Call n)
  | dup (p : Fin nproc) (fd : Int)
  | pipe (p : Fin nproc) (memory told : Bool)
  | write (i : Fin n) (data : List UInt8)

def eventStep (s : Sys n) : Event n → Option (Sys n)
  | .call p c => fileStep s (p, c)
  | .dup p fd => (s.proc p).bind fun pr => (sysDup s p pr fd).toOption.map Prod.snd
  | .pipe p memory told =>
    (s.proc p).bind fun pr => (sysPipe s p pr memory told).toOption.map Prod.snd
  | .write i data =>
    if (s.ino i).type = .file then some (s.setNode i { s.ino i with data := data }) else none

/-! ## The tables stay right -/

omit [NeZero n] in
theorem fdalloc_cwd {f fd pr'} (h : fdalloc pr f = some (fd, pr')) : pr'.cwd = pr.cwd := by
  obtain ⟨_, -, eq⟩ := map_eq_some_iff.1 h
  cases eq
  rfl

omit [NeZero n] in
theorem Ready.setProc {pr'} (h : Ready s) (caller : s.proc p = some pr) (cwd : pr'.cwd = pr.cwd) :
    Ready (s.setProc p (some pr')) := ⟨h.acc.setProc caller cwd, h.closed⟩

omit [NeZero n] in
theorem close_ready (h : Ready s) (f : Fin nfile) :
    Ends Spared (fileclose s f) fun s' => Ready s' ∧ s'.proc = s.proc :=
  (fileclose_spec h.acc h.closed f).mono fun _ ⟨acc, closed, proc, _⟩ => ⟨⟨acc, closed⟩, proc⟩

omit [NeZero n] in
theorem sysDup_ready (h : Ready s) (caller : s.proc p = some pr) (fd : Int) :
    Ends Spared (sysDup s p pr fd) fun r => Ready r.2 := by
  unfold sysDup
  split
  swap
  · exact .ok h
  split
  · exact .ok h
  split
  · exact .ok h
  · rename_i new
    exact (filedup_spec (Ready.setProc h caller (fdalloc_cwd new)) _).bind fun s1 ⟨ready, _⟩ =>
      .ok ready

omit [NeZero n] in
theorem Ready.modes {f readable writable} (h : Ready s) : Ready { s with
      ftable := update s.ftable f { s.ftable f with readable := readable, writable := writable }
        } :=
  ⟨h.acc.still_file rfl, h.closed.update (h.closed f)⟩

omit [NeZero n] in
theorem pipealloc_ready (h : Ready s) (memory : Bool) :
    Ends Spared (pipealloc s memory) fun r => Ready r.2 ∧ r.2.proc = s.proc := by
  unfold pipealloc
  split
  · exact .ok ⟨h, rfl⟩
  rename_i f0 s1 first
  obtain ⟨eq1, acc1, closed1, none1⟩ := filealloc_some h.acc h.closed first
  have proc1 : s1.proc = s.proc := by rw [eq1]
  split
  · exact (close_ready ⟨acc1, closed1⟩ f0).bind fun s2 ⟨ready, proc⟩ =>
      .ok ⟨ready, proc.trans proc1⟩
  rename_i f1 s2 second
  obtain ⟨eq2, acc2, closed2, none2⟩ := filealloc_some acc1 closed1 second
  have proc2 : s2.proc = s.proc := by
    rw [eq2]
    exact proc1
  split
  · exact .ok ⟨Ready.modes (Ready.modes ⟨acc2, closed2⟩), proc2⟩
  · refine (close_ready ⟨acc2, closed2⟩ f0).bind fun s3 ⟨ready3, proc3⟩ => ?_
    exact (close_ready ready3 f1).bind fun s4 ⟨ready4, proc4⟩ =>
      .ok ⟨ready4, proc4.trans (proc3.trans proc2)⟩

omit [NeZero n] in
theorem sysPipe_ready (h : Ready s) (caller : s.proc p = some pr) (memory told : Bool) :
    Ends Spared (sysPipe s p pr memory told) fun r => Ready r.2 := by
  have bad : ∀ {s : Sys n} (rf wf : Fin nfile), Ready s → Ends Spared (sysPipe.bad s rf wf) fun r =>
      Ready r.2 := by
    intro s rf wf ready
    refine (close_ready ready rf).bind fun s1 ⟨ready1, _⟩ => ?_
    exact (close_ready ready1 wf).bind fun s2 ⟨ready2, _⟩ => .ok ready2
  refine (pipealloc_ready h memory).bind fun ⟨r, s1⟩ ⟨ready, proc⟩ => ?_
  rw [← proc] at caller
  cases r with
  | none => exact .ok ready
  | some ends =>
    dsimp only
    split
    · exact bad _ _ ready
    rename_i fd0 pr1 first
    have cwd1 := fdalloc_cwd first
    split
    · exact bad _ _ (Ready.setProc ready caller cwd1)
    rename_i fd1 pr2 second
    have cwd2 := (fdalloc_cwd second).trans cwd1
    split
    · exact .ok (Ready.setProc ready caller cwd2)
    · exact bad _ _ (Ready.setProc ready caller cwd2)

/-! ## What stays -/

/-- Every file is as it was: its type and major and minor numbers, its link count, its entries and
its bytes. What is free stays free. -/
def Kept (ino ino' : Fin n → Node n) : Prop :=
  ∀ i, (ino' i).type = (ino i).type ∧ ((ino i).type ≠ .free → ino' i = ino i)

omit [NeZero n] in
theorem Kept.of_eq {ino ino' : Fin n → Node n} (eq : ino' = ino) : Kept ino ino' := by
  rw [eq]
  exact fun i => ⟨rfl, fun _ => rfl⟩

omit [NeZero n] in
theorem Kept.refree {ino x} (free : (ino i).type = .free) (free_x : x.type = .free) :
    Kept ino (update ino i x) := by
  intro j
  by_cases hj : j = i
  · rw [hj, update_self]
    exact ⟨free_x.trans free.symm, fun used => absurd free used⟩
  · rw [update_of_ne hj]
    exact ⟨rfl, fun _ => rfl⟩

/-- Paths lead where they led. -/
theorem Kept.resolve {ino ino'} (h : Kept ino ino') (parent : Bool) (names : List (List UInt8))
    (ip : Fin n) : resolve ino' parent names ip = References.resolve ino parent names ip := by
  induction names generalizing ip with
  | nil => rfl
  | cons name rest ih =>
    rw [References.resolve, References.resolve, (h ip).1]
    by_cases dir : (ino ip).type = .dir
    · have used : (ino ip).type ≠ .free := by
        rw [dir]
        intro eq
        cases eq
      rw [(h ip).2 used]
      simp only [ih]
    · rw [if_pos dir, if_pos dir]

/-- There is a free entry in the directory, or it can grow. -/
def HasRoom (room : Bool) (l : List (Dirent n)) : Prop :=
  (∃ e ∈ l, e.inum = 0) ∨ room = true ∧ l.length < maxSlots

theorem fillSlot_none {e : Dirent n} {l} : fillSlot e l = none ↔ ∀ x ∈ l, x.inum ≠ 0 := by
  induction l with
  | nil => exact ⟨fun _ x mem => absurd mem List.not_mem_nil, fun _ => rfl⟩
  | cons x xs ih =>
    rw [fillSlot]
    split
    · rename_i zero
      exact ⟨fun none => absurd none (some_ne_none _),
        fun used => absurd zero (used x List.mem_cons_self)⟩
    · rename_i used
      rw [map_eq_none_iff, ih, List.forall_mem_cons]
      exact ⟨fun rest => ⟨used, rest⟩, fun both => both.2⟩

theorem addSlot_none {room : Bool} {e} {l : List (Dirent n)} :
    addSlot room e l = none ↔ ¬ HasRoom room l := by
  unfold addSlot HasRoom
  cases fill : fillSlot e l with
  | none =>
    have used := fillSlot_none.1 fill
    rw [ite_eq_right_iff]
    refine ⟨fun full => ?_, fun full grows => absurd (.inr grows) full⟩
    rintro (⟨x, mem, zero⟩ | grows)
    · exact used x mem zero
    · exact nomatch full grows
  | some l' =>
    refine ⟨nofun, fun full => ?_⟩
    have none : fillSlot e l = none := fillSlot_none.2 fun x mem zero => full (.inl ⟨x, mem, zero⟩)
    rw [none] at fill
    exact nomatch fill

/-- The path names no file yet and one can be made: the directory is there and has room for the
entry, and an inode is free. -/
def Creatable (s : Sys n) (cwd : Fin n) (path : List UInt8) (room : Bool) : Prop :=
  ∃ dp name, resolvePath s.ino cwd path true = some (dp, name) ∧
    lookup name (s.ino dp).slots 0 = none ∧ (∃ i, i ≠ 0 ∧ (s.ino i).type = .free) ∧
    HasRoom room (s.ino dp).slots

theorem refused_not_creatable {cwd path room} (h : Refused s cwd path) :
    ¬ Creatable s cwd path room := by
  rintro ⟨dp, name, parent, absent, ⟨i, hi, free⟩, -⟩
  rcases h dp name parent with exists' | full
  · exact exists' absent
  · exact full i hi free

section
variable {cwd : Fin n} {path : List UInt8} {type : Kind} {room : Fin 3 → Bool} {r : Option (Fin n)}

/-- The references after `create`. -/
theorem create_ready (typed : type ≠ .free) (creates : Creates s cwd path type room r s') :
    match r with
    | some i => Acc s' [i] ∧ (s'.ino i).type ≠ .free
    | none => Acc s' [] := by
  cases creates with
  | refused _ acc _ => exact acc
  | undone _ _ _ _ _ acc _ => exact acc
  | found ino acc used _ => exact ⟨acc, ino ▸ used⟩
  | made _ _ _ _ made => exact ⟨made.acc, by rw [made.node.1]; exact typed⟩

/-- `create` fails and has undone what it did. -/
theorem create_kept (creates : Creates s cwd path type room none s') : Kept s.ino s'.ino := by
  cases creates with
  | refused ino _ _ => exact .of_eq ino
  | undone _ free free_x _ ino _ _ =>
    rw [ino]
    exact .refree free free_x

/-- A file that could be made is not refused. -/
theorem create_not_creatable (plain : type ≠ .dir)
    (creates : Creates s cwd path type room none s') : ¬ Creatable s cwd path (room 2) := by
  cases creates with
  | refused _ _ refused => exact refused_not_creatable refused
  | undone parent _ _ _ _ _ full =>
    rintro ⟨dp, name, parent', -, -, space⟩
    cases parent.symm.trans parent'
    exact addSlot_none.1 (full plain) space

theorem made_creatable {dp i : Fin n} {name}
    (parent : resolvePath s.ino cwd path true = some (dp, name))
    (absent : lookup name (s.ino dp).slots 0 = none) (hi : i ≠ 0) (free : (s.ino i).type = .free)
    (made : Made s.ino s' dp i type name (room 2)) : Creatable s cwd path (room 2) := by
  obtain ⟨_, l, -, add, -⟩ := made
  refine ⟨dp, name, parent, absent, ⟨i, hi, free⟩, ?_⟩
  by_contra full
  rw [addSlot_none.2 full] at add
  exact nomatch add

end

/-! ## One call -/

theorem sysMake_kept {cwd} (type : Kind) (h : Ready s) (pos : 0 < s.ref cwd) (typed : type ≠ .free)
    (path : List UInt8) (major minor : Int16) (room : Fin 3 → Bool) :
    Ends Spared (sysMake s cwd path type major minor room) fun r =>
      Ready r.2 ∧ (r.1 = -1 → Kept s.ino r.2.ino) := by
  refine (create_cases type h.acc pos typed path major minor room).bind
    fun ⟨r, s1⟩ ⟨frame, creates⟩ => ?_
  have made := create_ready typed creates
  cases r with
  | none => exact .ok ⟨⟨made, frame.closed h.closed⟩, fun _ => create_kept creates⟩
  | some ip => exact .ok ⟨⟨iput_acc made.1, frame.iput.closed h.closed⟩, nofun⟩

omit [NeZero n] in
/-- A file that was there is opened in vain. -/
theorem opens_kept {s1 ip} (h : Ready s) (frame : Frame s s1) (ino : s1.ino = s.ino)
    (acc : Acc s1 [ip]) (opens : Opens s1 pr ip (-1) s') : Kept s.ino s'.ino := by
  have anchored : Anchored s1 := by
    intro j used zero
    rw [ino] at used zero
    rw [frame.held]
    exact h.acc.anchored j used zero
  generalize result : (-1 : Int) = r at opens
  cases opens with
  | failed same _ => exact .of_eq (same.trans ((iput_same acc anchored.backed).ino.trans ino))
  | @done _ fd _ _ => omega

/-- `sys_open` makes the file and then cannot open it. -/
def Stray (s : Sys n) (pr : Proc n) (path : List UInt8) (omode : UInt32) (room : Fin 3 → Bool) :
    Prop :=
  omode &&& oCreate ≠ 0 ∧ Creatable s pr.cwd path (room 2) ∧ Full s pr

/-- A file that was made is opened in vain, and stays. -/
theorem opens_stray {s1 dp ip name room} (free : (s.ino ip).type = .free)
    (made : Made s.ino s1 dp ip .file name room) (frame : Frame s s1)
    (opens : Opens s1 pr ip (-1) s') : Full s pr ∧ ¬ Kept s.ino s'.ino := by
  obtain ⟨type, nlink⟩ := made.node
  generalize result : (-1 : Int) = r at opens
  cases opens with
  | failed ino full =>
    refine ⟨?_, fun kept => ?_⟩
    · rcases full type with full | full
      · rw [frame.1] at full
        exact .inl full
      · exact .inr full
    · have stays : (iput s1 ip).ino = s1.ino := by
        unfold iput
        rw [if_neg fun last => ?_]
        rw [nlink] at last
        exact absurd last.2.2 (by decide)
      have same := (kept ip).1
      rw [ino, stays, type, free] at same
      exact nomatch same
  | @done _ fd _ _ => omega

theorem file_used : Kind.file ≠ .free := by decide

theorem file_plain : Kind.file ≠ .dir := by decide

theorem sysOpen_kept_iff (h : Ready s) (caller : s.proc p = some pr) (path : List UInt8)
    (omode : UInt32) (room : Fin 3 → Bool) : Ends Spared (sysOpen s p pr path omode room) fun r =>
      Ready r.2 ∧ (r.1 = -1 → (Kept s.ino r.2.ino ↔ ¬ Stray s pr path omode room)) := by
  have pos := h.acc.used (held_pos (holder_cwd caller))
  unfold sysOpen
  split
  · rename_i make
    refine (create_cases .file h.acc pos file_used path 0 0 room).bind fun r post => ?_
    obtain ⟨r, s1⟩ := r
    obtain ⟨frame, creates⟩ := post
    have ready := create_ready file_used creates
    cases r with
    | none =>
      have absent := create_not_creatable file_plain creates
      exact .ok ⟨⟨ready, frame.closed h.closed⟩, fun _ =>
        ⟨fun _ stray => absent stray.2.1, fun _ => create_kept creates⟩⟩
    | some ip =>
      refine (openFile_cases ready.1 (frame.closed h.closed) ready.2 (frame.2 ▸ caller) omode).mono
        fun r post => ⟨post.1, fun minus => ?_⟩
      have opens := post.2
      rw [minus] at opens
      cases creates with
      | found ino acc used refused =>
        exact ⟨fun _ stray => refused_not_creatable refused stray.2.1,
          fun _ => opens_kept h frame ino acc opens⟩
      | made parent absent hi free made =>
        obtain ⟨full, changed⟩ := opens_stray free made frame opens
        exact ⟨fun kept => absurd kept changed, fun none =>
          absurd ⟨make, made_creatable parent absent hi free made, full⟩ none⟩
  · rename_i plain
    have none : ¬ Stray s pr path omode room := fun stray => plain stray.1
    refine (namex_spec h.acc h.acc.anchored.backed pos path false).bind fun r post => ?_
    obtain ⟨r, s1⟩ := r
    obtain ⟨-, same1, acc1⟩ := post
    cases r with
    | none =>
      exact .ok ⟨⟨acc1, same1.frame.closed h.closed⟩,
        fun _ => ⟨fun _ => none, fun _ => .of_eq same1.ino⟩⟩
    | some r =>
      refine (ilock_spec acc1).bind fun s2 post => ?_
      obtain ⟨acc2, same2, used, -⟩ := post
      have same : Same [] s s2 := same1.trans (same2.mono (List.nil_subset _))
      rw [← same2.ino] at used
      split
      · have put := iput_same acc2 (same.anchored h.acc.anchored).backed
        exact .ok ⟨⟨iput_acc acc2, same.frame.iput.closed h.closed⟩, fun _ =>
          ⟨fun _ => none, fun _ => .of_eq (put.ino.trans same.ino)⟩⟩
      · refine (openFile_cases acc2 (same.frame.closed h.closed) used
          (same.proc ▸ caller) omode).mono fun r post =>
          ⟨post.1, fun minus => ⟨fun _ => none, fun _ => ?_⟩⟩
        have opens := post.2
        rw [minus] at opens
        exact opens_kept h same.frame same.ino acc2 opens

/-- A failing call after which the tree may differ, by the state before it. -/
def Strays (s : Sys n) (pr : Proc n) : Call n → Prop
  | .open (some path) omode room => Stray s pr path omode room
  | _ => False

/-- The calls that are about names. -/
def AboutNames : Call n → Prop
  | .open .. | .link .. | .unlink .. | .mkdir .. | .mknod .. => True
  | .chdir .. | .close .. | .fork .. | .exit => False

theorem syscall_kept_iff (h : Ready s) (caller : s.proc p = some pr) (c : Call n) :
    Ends (fun _ => True) (syscall s p pr c) fun r =>
      Ready r.2 ∧ (AboutNames c → r.1 = -1 → (Kept s.ino r.2.ino ↔ ¬ Strays s pr c)) := by
  have user := held_pos (holder_cwd caller)
  have pos := h.acc.used user
  have any : ∀ e : Panic, Spared e → True := fun _ _ => trivial
  -- where nothing strays, the inodes are kept
  have plain : ∀ {r : Int} {s' : Sys n}, (r = -1 → Kept s.ino s'.ino) → AboutNames c → r = -1 →
      (Kept s.ino s'.ino ↔ ¬ False) := fun kept _ minus => ⟨fun _ => id, fun _ => kept minus⟩
  match c with
  | .open (some path) omode room =>
    exact ((sysOpen_kept_iff h caller path omode room).weaken any).mono fun r ⟨ready, kept⟩ =>
      ⟨ready, fun _ => kept⟩
  | .mkdir (some path) room =>
    exact ((sysMake_kept .dir h pos nofun path 0 0 room).weaken any).mono fun r ⟨ready, kept⟩ =>
      ⟨ready, plain kept⟩
  | .mknod (some path) major minor room =>
    exact ((sysMake_kept .device h pos nofun path major minor room).weaken any).mono
      fun r ⟨ready, kept⟩ =>
      ⟨ready, plain kept⟩
  | .link (some old) (some new) room =>
    refine ((sysLink_cases h.acc user old new room).weaken any).mono fun ⟨r, t⟩ ⟨frame, links⟩ =>
      ⟨⟨links.acc, frame.closed h.closed⟩, plain fun minus => ?_⟩
    cases links with
    | failed ino _ => exact .of_eq ino
    | done => exact nomatch minus
  | .unlink (some path) =>
    refine ((sysUnlink_cases h.acc pos path).weaken fun _ _ => trivial).mono
      fun ⟨r, t⟩ ⟨frame, unlinks⟩ =>
      ⟨⟨unlinks.acc, frame.closed h.closed⟩, plain fun minus => ?_⟩
    cases unlinks with
    | failed ino _ => exact .of_eq ino
    | done => exact nomatch minus
  | .chdir (some path) =>
    exact ((sysChdir_refs h caller path).weaken any).mono fun r ⟨ready, _⟩ => ⟨ready, nofun⟩
  | .close fd =>
    exact ((sysClose_refs h caller fd).weaken any).mono fun r ⟨ready, _⟩ => ⟨ready, nofun⟩
  | .fork c => exact ((kfork_refs h caller).weaken any).mono fun r ⟨ready, _⟩ => ⟨ready, nofun⟩
  | .exit =>
    exact ((kexit_refs h caller).weaken any).bind fun _ ⟨ready, _⟩ => .ok ⟨ready, nofun⟩
  | .open none _ _ | .mkdir none _ | .mknod none _ _ _ | .link none _ _ | .link (some _) none _
      | .unlink none =>
    exact .ok ⟨h, plain fun _ => .of_eq rfl⟩
  | .chdir none => exact .ok ⟨h, nofun⟩

/-! ## Runs -/

/-- What one step keeps. -/
theorem eventStep_ready {e} (h : Ready s) (done : eventStep s e = some s') : Ready s' := by
  cases e with
  | call p c =>
    have spec : Ends (fun _ => True) (step s (p, c)) Ready := by
      unfold step
      split
      · trivial
      · rename_i pr caller
        exact (syscall_kept_iff h caller c).bind fun r post => .ok post.1
    exact spec.of_toOption done
  | dup p fd =>
    obtain ⟨pr, caller, ends⟩ := bind_eq_some_iff.1 done
    obtain ⟨r, result, rfl⟩ := map_eq_some_iff.1 ends
    exact (sysDup_ready h caller fd).of_toOption result
  | pipe p memory told =>
    obtain ⟨pr, caller, ends⟩ := bind_eq_some_iff.1 done
    obtain ⟨r, result, rfl⟩ := map_eq_some_iff.1 ends
    exact (sysPipe_ready h caller memory told).of_toOption result
  | write i data =>
    simp only [eventStep] at done
    split at done
    · rename_i file
      cases done
      have used : (s.ino i).type ≠ .free := by
        rw [file]
        exact nofun
      exact ⟨h.acc.setNode used fun zero => h.acc.kept i used zero, h.closed⟩
    · exact nomatch done

theorem run_ready {t} (image : Image s0) (run : Run (ByStep eventStep) s0 t s) : Ready s :=
  run.keeps image.inv.ready fun _ _ _ ready done => eventStep_ready ready done

/-- The paths from the root, the inode that each names, and the files themselves. -/
structure SameTree (s s' : Sys n) : Prop where
  paths : ∀ names, resolve s'.ino false names rootino = resolve s.ino false names rootino
  files : Kept s.ino s'.ino

theorem sameTree_iff : SameTree s s' ↔ Kept s.ino s'.ino :=
  ⟨fun same => same.files, fun kept => ⟨fun names => kept.resolve false names rootino, kept⟩⟩

theorem failed_call_same_tree_iff {t : List (Event n)} {c : Call n} (image : Image s0)
    (run : Run (ByStep eventStep) s0 t s) (caller : s.proc p = some pr) (about : AboutNames c)
    (failed : syscall s p pr c = .ok (-1, s')) : SameTree s s' ↔ ¬ Strays s pr c := by
  rw [sameTree_iff]
  exact ((syscall_kept_iff (run_ready image run) caller c).of_ok failed).2 about rfl

/-! ## A process without a free descriptor -/

/-- The call returns -1, and then `Q` holds of the process and the new state. -/
def FailsWith (s : Sys n) (p : Fin nproc) (c : Call n) (Q : Proc n → Sys n → Bool) : Bool :=
  (s.proc p).any fun pr => (syscall s p pr c).toOption.any fun r => decide (r.1 = -1) && Q pr r.2

theorem FailsWith.elim {c Q} (h : FailsWith s p c Q = true) :
    ∃ pr s', s.proc p = some pr ∧ syscall s p pr c = .ok (-1, s') ∧ Q pr s' = true := by
  obtain ⟨pr, caller, called⟩ := (any_eq_true _ _).1 h
  obtain ⟨r, result, post⟩ := (any_eq_true _ _).1 called
  obtain ⟨minus, post⟩ := Bool.and_eq_true_iff.1 post
  refine ⟨pr, r.2, caller, ?_, post⟩
  rw [← of_decide_eq_true minus]
  cases outcome : syscall s p pr c with
  | ok r' =>
    rw [outcome] at result
    exact congrArg _ (Option.some.inj result)
  | error e =>
    rw [outcome] at result
    cases result

/-- Every descriptor is for the root directory. -/
def fillTable : List (Event 4) :=
  .call initp (.open (some [47]) 0 fun _ => true) :: List.replicate 15 (.dup initp 0)

def openCreate : Call 4 := .open (some [102]) 0x202 fun _ => true

/-- The file is there before the descriptors are used up. -/
theorem failed_call_same_tree_full : ∃ t s pr s', Run (ByStep eventStep) emptyRoot t s ∧
    s.proc initp = some pr ∧ (∀ fd, pr.ofile fd ≠ none) ∧ syscall s initp pr openCreate =
      .ok (-1, s') ∧
    SameTree s s' := by
  obtain ⟨s, run, present, fails⟩ := foldlM_reaches eventStep emptyRoot
    (.call initp openCreate :: .call initp (.close 0) :: fillTable)
    (P := fun s => resolvePath s.ino 1 [102] true = some (1, [102]) ∧
    lookup [102] (s.ino 1).slots 0 ≠ none ∧
      FailsWith s initp openCreate (fun pr _ => decide (pr.cwd = 1 ∧ ∀ fd, pr.ofile fd ≠ none)))
      (by decide +kernel)
  obtain ⟨exists', fails⟩ := fails
  obtain ⟨pr, s', caller, failed, post⟩ := FailsWith.elim fails
  obtain ⟨cwd, full⟩ := of_decide_eq_true post
  refine ⟨_, s, pr, s', run, caller, full, failed, ?_⟩
  refine (failed_call_same_tree_iff (c := openCreate) emptyRoot_image run caller trivial failed).2
    ?_
  rintro ⟨-, ⟨dp, name, parent, absent, -⟩, -⟩
  rw [cwd, present] at parent
  cases parent
  exact exists' absent

/-- `open` with `O_CREATE` fails for want of a descriptor, and the file that it made stays. -/
theorem failed_open_leaves_file :
    Image emptyRoot ∧ ∃ t s pr s', Run (ByStep eventStep) emptyRoot t s ∧
    s.proc initp = some pr ∧ syscall s initp pr openCreate = .ok (-1, s') ∧
    resolve s.ino false [[102]] rootino = none ∧ resolve s'.ino false [[102]] rootino =
      some (2, []) ∧
    ¬ SameTree s s' := by
  obtain ⟨s, run, absent, fails⟩ := foldlM_reaches eventStep emptyRoot fillTable
    (P := fun s => resolve s.ino false [[102]] rootino = none ∧
      FailsWith s initp openCreate
      (fun _ s' => decide (resolve s'.ino false [[102]] rootino = some (2, []))))
      (by decide +kernel)
  obtain ⟨pr, s', caller, failed, post⟩ := FailsWith.elim fails
  have present := of_decide_eq_true post
  refine ⟨emptyRoot_image, _, s, pr, s', run, caller, failed, absent, present, fun same => ?_⟩
  have := same.paths [[102]]
  rw [absent, present] at this
  exact nomatch this

end OsProject.Xv6.FailedCalls
