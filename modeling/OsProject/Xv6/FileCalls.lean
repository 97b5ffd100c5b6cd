import OsProject.Xv6.FileRefs

/-! # Calls on open files

Every call, also where it fails, ends with as many references as it has descriptors. -/
namespace OsProject.Xv6.OpenFiles
open Lib Lib.Threads Lib.Count Lib.Transition
open Function (update update_of_ne update_self update_eq_self update_idem update_comm)

def protocol : Protocol exec Own Int where
  Inv := Inv
  pre := pre
  post := post
  done _ := Settled
  sound inv own need st := exec_leaves inv own need _ st
  gone inv own need st := exec_leaves inv own need _ st
  leave := by
    intro s ls i l a inv own settled
    refine inv.settle own settled.1 ⟨rfl, rfl, rfl, rfl, rfl⟩ (fun _ _ => rfl) ?_ inv.panics
    intro dead
    rw [← (inv.view i l own).1]
    exact inv.empty i dead

section rules
variable {i : Slot} {l : Own} {f : Entry} {fd : Desc} {j : Slot}

open Protocol

/-- One table entry read. -/
theorem wp_ofile {Q} (h : Q (l.ofile fd) l) : protocol.wp i (ofile fd) Q l := by
  refine wp_perform trivial ?_
  rintro r l' ⟨rfl, rfl⟩
  exact h

variable {v : Option Entry} {Q : Unit → Own → Prop} {n : Int32} {o : Desc → Option Entry}

theorem wp_setOfile (h : Q () { l with ofile := update l.ofile fd v }) :
    protocol.wp i (setOfile fd v) Q l := by
  refine wp_perform trivial ?_
  rintro r l' rfl
  exact h

theorem wp_filealloc {Q} (fail : Q none l) (ok : ∀ f, l.has (.ref f) = 0 →
      Q (some f) { l with has := gain (.ref f) l.has, fresh := update l.fresh f true }) :
    protocol.wp i filealloc Q l := by
  refine wp_perform trivial ?_
  intro r l' hp
  cases r with
  | none =>
    obtain rfl := hp
    exact fail
  | some f =>
    obtain ⟨zero, rfl⟩ := hp
    exact ok f zero

theorem wp_filedup (has : 1 ≤ l.has (.ref f))
    (h : Q () { l with has := gain (.ref f) l.has, fresh := update l.fresh f false }) :
    protocol.wp i (filedup f) Q l := by
  refine wp_perform has ?_
  rintro r l' rfl
  exact h

/-- What the environment answers. -/
theorem wp_succeeds {Q} (h : ∀ b, Q b l) : protocol.wp i succeeds Q l := by
  refine wp_perform trivial ?_
  rintro r l' rfl
  exact h r

theorem wp_iput {ip} (h : Q () l) : protocol.wp i (iput ip) Q l := by
  refine wp_perform trivial ?_
  rintro r l' rfl
  exact h

theorem wp_fill_pipe {pi w} (fresh : l.fresh f = true) (has : 1 ≤ l.has (.opened pi w))
    (h : Q () { l with has := lose (.opened pi w) l.has, fresh := update l.fresh f false }) :
    protocol.wp i (fill f (.pipe pi w)) Q l := by
  refine wp_perform ⟨fresh, has⟩ ?_
  rintro r l' rfl
  exact h

theorem wp_kalloc {Q} (fail : Q none l)
    (ok : ∀ pi, Q (some pi)
      { l with has := gain (.opened pi false) (gain (.opened pi true) l.has) }) :
    protocol.wp i kalloc Q l := by
  refine wp_perform trivial ?_
  intro r l' hp
  cases r with
  | none =>
    obtain rfl := hp
    exact fail
  | some pi =>
    obtain rfl := hp
    exact ok pi

theorem wp_pipeclose {pi w} (has : 1 ≤ l.has (.opened pi w))
    (h : Q () { l with has := lose (.opened pi w) l.has }) :
    protocol.wp i (pipeclose pi w) Q l := by
  refine wp_bind (wp_perform has ?_)
  intro r l' hp
  cases r with
  | false =>
    obtain rfl := hp
    exact h
  | true =>
    obtain rfl := hp
    refine wp_perform (gain_pos ..) ?_
    rintro r l' rfl
    rw [lose_gain]
    exact h

theorem wp_fileclose (has : 1 ≤ l.has (.ref f)) (h : Q () (l.release f)) :
    protocol.wp i (fileclose f) Q l := by
  refine wp_bind (wp_perform has ?_)
  intro r l' hp
  cases r with
  | none =>
    obtain rfl := hp
    exact h
  | some ff =>
    obtain rfl := hp
    cases type : ff.type with
    | pipe =>
      simp only [type, if_true]
      refine wp_pipeclose (gain_pos ..) ?_
      rw [lose_gain]
      exact h
    | inode | device =>
      simp only [type, reduceCtorEq, if_false]
      exact wp_iput h
    | none =>
      simp only [type, reduceCtorEq, if_false]
      exact h

theorem wp_argfd {Q} (fail : Q none l)
    (ok : ∀ fd f, l.ofile fd = some f → Q (some (fd, f)) l) : protocol.wp i (argfd n) Q l := by
  unfold argfd
  split
  · refine wp_bind (wp_ofile ?_)
    split
    · rename_i f open_fd
      exact ok _ f open_fd
    · exact fail
  · exact fail

theorem wp_fdalloc {Q} (fail : Q none l) (ok : ∀ fd, l.ofile fd = none →
      Q (some fd) { l with ofile := update l.ofile fd (some f) }) :
    protocol.wp i (fdalloc f) Q l := by
  unfold fdalloc
  -- the scan, on the descriptors that are left
  induction List.finRange Files.nofile with
  | nil => exact fail
  | cons fd rest ih =>
    refine wp_bind (wp_ofile ?_)
    split
    · rename_i closed
      exact wp_bind (wp_setOfile (ok fd closed))
    · exact ih

/-! ## The calls -/

/-- A descriptor is set for a new reference. -/
theorem idle_set (closed : o fd = none) : gain (.ref f) (idle o) = idle (update o fd (some f)) := by
  funext t
  rw [gain_apply]
  cases t with
  | ref g =>
    have := slots_update o fd (some f) g
    simp only [closed, reduceCtorEq, if_false, Option.some.injEq] at this
    show slots o g + _ = slots _ g
    simp only [Token.ref.injEq, eq_comm (a := g)]
    omega
  | opened pi w => rfl
  | free pi => rfl

/-- A descriptor is cleared for a reference that is given up. -/
theorem idle_clear (opened : o fd = some f) : lose (.ref f) (idle o) = idle (update o fd none) := by
  funext t
  rw [lose_apply]
  cases t with
  | ref g =>
    have := slots_update o fd none g
    simp only [opened, reduceCtorEq, if_false, Option.some.injEq] at this
    show slots o g - _ = slots _ g
    simp only [Token.ref.injEq, eq_comm (a := g)]
    omega
  | opened pi w => rfl
  | free pi => rfl

theorem idle_pos (opened : o fd = some f) : 1 ≤ idle o (.ref f) := by
  have := slots_update o fd none f
  rw [if_pos opened, if_neg (by simp)] at this
  show 1 ≤ slots o f
  omega

theorem wp_sysDup (start : Settled l) : protocol.wp i (sysDup n) (fun _ => Settled) l := by
  refine wp_bind (wp_argfd start fun fd f opened => ?_)
  refine wp_bind (wp_fdalloc start fun fd' closed => ?_)
  refine wp_bind (wp_filedup ?_ ⟨?_, start.2⟩)
  · rw [show Own.has _ = _ from start.1]
    exact idle_pos opened
  · rw [start.1]
    exact idle_set closed

theorem wp_sysClose (start : Settled l) : protocol.wp i (sysClose n) (fun _ => Settled) l := by
  refine wp_bind (wp_argfd start fun fd f opened => ?_)
  refine wp_bind (wp_setOfile (wp_bind (wp_fileclose ?_ ⟨?_, start.2⟩)))
  · rw [show Own.has _ = _ from start.1]
    exact idle_pos opened
  · rw [start.1]
    exact idle_clear opened

theorem wp_sysOpen {omode} (start : Settled l) :
    protocol.wp i (sysOpen omode) (fun _ => Settled) l := by
  refine wp_bind (wp_perform trivial ?_)
  rintro r l' rfl
  cases r with
  | none => exact start
  | some ip =>
    dsimp only
    split
    · exact wp_bind (wp_iput start)
    · refine wp_bind (wp_filealloc (wp_bind (wp_iput start)) fun f zero => ?_)
      refine wp_bind (wp_fdalloc ?_ fun fd closed => ?_)
      · exact wp_bind (wp_fileclose (gain_pos ..)
          (wp_bind (wp_iput ⟨(lose_gain ..).trans start.1, start.2⟩)))
      · refine wp_bind (wp_perform (update_self ..) ?_)
        rintro r l' rfl
        refine ⟨?_, start.2⟩
        rw [start.1]
        exact idle_set closed

/-- Two references are given up, in the order in which they were had. -/
theorem wp_fileclose_both {α : Type} {f0 f1 h k}
    {Q : α → Own → Prop} (has : l.has = gain (.ref f1) (gain (.ref f0) h))
    (done : ∀ fresh, protocol.wp i (k ()) Q { l with has := h, fresh := fresh }) :
    protocol.wp i (fileclose f0 >>= fun _ => fileclose f1 >>= k) Q l := by
  rw [gain_comm] at has
  have left : (l.release f0).has = gain (.ref f1) h := by rw [Own.release, has, lose_gain]
  refine wp_bind (wp_fileclose ?_ (wp_bind (wp_fileclose ?_ ?_)))
  · rw [has]
    exact gain_pos ..
  · rw [left]
    exact gain_pos ..
  · have none : ((l.release f0).release f1).has = h := by
      rw [Own.release, left, lose_gain]
    have last := done ((l.release f0).release f1).fresh
    rw [← none] at last
    exact last

theorem wp_pipealloc {Q} (fail : ∀ fresh, Q none { l with fresh := fresh })
    (ok : ∀ f0 f1 fresh, Q (some (f0, f1))
      { l with has := gain (.ref f1) (gain (.ref f0) l.has), fresh := fresh }) :
    protocol.wp i pipealloc Q l := by
  refine wp_bind (wp_filealloc (fail l.fresh) fun f0 _ => ?_)
  refine wp_bind (wp_filealloc (wp_bind (wp_fileclose (gain_pos ..) ?_)) fun f1 zero => ?_)
  · show Q none { l with has := lose _ (gain _ _), fresh := _ }
    rw [lose_gain]
    exact fail _
  · have ne : f1 ≠ f0 := by
      rintro rfl
      exact absurd zero (Nat.ne_of_gt (gain_pos ..))
    refine wp_bind (wp_kalloc ?_ fun pi => ?_)
    · exact wp_fileclose_both rfl fail
    · refine wp_bind (wp_fill_pipe ?_ (gain_pos ..) (wp_bind (wp_fill_pipe ?_ ?_ ?_)))
      · exact (update_of_ne ne.symm ..).trans (update_self ..)
      · exact (update_of_ne ne ..).trans (update_self ..)
      · rw [lose_gain]
        exact gain_pos ..
      · rw [lose_gain, lose_gain]
        exact ok f0 f1 _

theorem wp_closeBoth {rf wf} (has : l.has = gain (.ref wf) (gain (.ref rf) (idle l.ofile)))
    (child : l.child = none) : protocol.wp i (closeBoth rf wf) (fun _ => Settled) l :=
  wp_fileclose_both has fun _ => ⟨rfl, child⟩

/-- A descriptor is set and cleared again. -/
theorem cleared (closed : o fd = none) : update (update o fd v) fd none = o := by
  rw [update_idem, ← closed, update_eq_self]

theorem cleared_both {fd0 fd1 w} (ne : fd1 ≠ fd0) (closed0 : o fd0 = none)
    (closed1 : o fd1 = none) : update (update (update (update o fd0 v) fd1 w) fd0 none)
      fd1 none = o := by
  rw [update_comm ne, cleared closed0, cleared closed1]

theorem wp_sysPipe (start : Settled l) : protocol.wp i sysPipe (fun _ => Settled) l := by
  refine wp_bind (wp_pipealloc (fun _ => start) fun rf wf fresh => ?_)
  rw [start.1]
  refine wp_bind (wp_fdalloc (wp_closeBoth rfl start.2) fun fd0 closed0 => ?_)
  refine wp_bind (wp_fdalloc ?_ fun fd1 closed1 => ?_)
  · exact wp_bind (wp_setOfile (wp_closeBoth (congrArg (fun o => gain _ (gain _ (idle o)))
      (cleared closed0).symm) start.2))
  · refine wp_bind (wp_succeeds fun b => ?_)
    cases b with
    | true =>
      refine ⟨?_, start.2⟩
      rw [idle_set closed0, idle_set closed1]
    | false =>
      have ne : fd1 ≠ fd0 := by
        rintro rfl
        rw [show Own.ofile _ fd1 = some rf from update_self ..] at closed1
        cases closed1
      have closed1 : l.ofile fd1 = none := (update_of_ne ne ..).symm.trans closed1
      exact wp_bind (wp_setOfile (wp_bind (wp_setOfile (wp_closeBoth
        (congrArg (fun o => gain _ (gain _ (idle o))) (cleared_both ne closed0 closed1).symm)
        start.2))))

theorem wp_allocproc {Q} (child : l.child = none) (fail : Q none l)
    (ok : ∀ j, Q (some j) { l with child := some (j, fun _ => none) }) :
    protocol.wp i allocproc Q l := by
  have same : { l with child := none } = l := by rw [← child]
  unfold allocproc
  induction List.finRange Files.nproc with
  | nil => exact fail
  | cons j rest ih =>
    refine wp_bind (wp_perform child ?_)
    intro r l' hp
    cases r with
    | false =>
      obtain rfl := hp
      exact ih
    | true =>
      obtain rfl := hp
      refine wp_bind (wp_succeeds fun b => ?_)
      cases b with
      | true => exact ok j
      | false =>
        refine wp_bind (wp_perform rfl ?_)
        rintro r l' rfl
        rw [same]
        exact fail

/-- The child gets the descriptors of the list. -/
theorem wp_dupFiles {np fds} (nodup : fds.Nodup) (has : l.has = idle l.ofile)
    (child : l.child = some (np, o)) (empty : ∀ fd ∈ fds, o fd = none)
    (done : ∀ fresh o',
      Q () { l with has := idle l.ofile, fresh := fresh, child := some (np, o') }) :
    protocol.wp i (dupFiles np fds) Q l := by
  induction fds generalizing l o with
  | nil =>
    have last := done l.fresh o
    rw [← child, ← has] at last
    exact last
  | cons fd rest ih =>
    rw [List.nodup_cons] at nodup
    refine wp_bind (wp_ofile ?_)
    split
    · rename_i f opened
      refine wp_bind (wp_filedup ?_ (wp_bind (wp_perform ?_ ?_)))
      · rw [has]
        exact idle_pos opened
      · exact ⟨gain_pos .., o, child, empty fd List.mem_cons_self⟩
      · rintro r l' ⟨o1, child1, rfl⟩
        cases child.symm.trans child1
        refine ih nodup.2 ?_ rfl ?_ done
        · show lose (.ref f) (gain (.ref f) l.has) = idle l.ofile
          rw [lose_gain, has]
        · intro k hk
          have ne : k ≠ fd := by
            rintro rfl
            exact nodup.1 hk
          rw [update_of_ne ne]
          exact empty k (List.mem_cons_of_mem _ hk)
    · exact ih nodup.2 has child (fun k hk => empty k (List.mem_cons_of_mem _ hk)) done

theorem wp_forkWith (start : Settled l) : protocol.wp i forkWith (fun _ => Settled) l := by
  refine wp_bind (wp_succeeds fun b => ?_)
  cases b with
  | false => exact start
  | true =>
    refine wp_bind (wp_allocproc start.2 start fun np => ?_)
    refine wp_bind (wp_succeeds fun b => ?_)
    cases b with
    | false =>
      refine wp_bind (wp_perform rfl ?_)
      rintro r l' rfl
      exact ⟨start.1, rfl⟩
    | true =>
      refine wp_bind (wp_dupFiles (List.nodup_finRange _) start.1 rfl (fun _ _ => rfl)
        fun fresh o => ?_)
      refine wp_bind (wp_perform trivial ?_)
      rintro r l' rfl
      refine wp_bind (wp_perform ⟨o, rfl⟩ ?_)
      rintro r l' rfl
      exact ⟨rfl, rfl⟩

/-- The descriptors of the list are closed. -/
theorem wp_closeAll {fds} (start : Settled l)
    (done : ∀ l', Settled l' → (∀ fd ∈ fds, l'.ofile fd = none) →
      (∀ fd, l.ofile fd = none → l'.ofile fd = none) → Q () l') :
    protocol.wp i (closeAll fds) Q l := by
  induction fds generalizing l with
  | nil => exact done l start (fun _ h => absurd h List.not_mem_nil) fun _ => id
  | cons fd rest ih =>
    refine wp_bind (wp_ofile ?_)
    split
    · rename_i f opened
      refine wp_bind (wp_fileclose ?_ (wp_bind (wp_setOfile (ih ⟨?_, start.2⟩ ?_))))
      · rw [start.1]
        exact idle_pos opened
      · show lose (.ref f) l.has = _
        rw [start.1]
        exact idle_clear opened
      · intro l' settled closed kept
        refine done l' settled (List.forall_mem_cons.2 ⟨kept fd (update_self ..), closed⟩) ?_
        intro k hk
        refine kept k ?_
        by_cases eq : k = fd
        · rw [eq]
          exact update_self ..
        · exact (update_of_ne eq ..).trans hk
    · rename_i closed
      exact ih start fun l' settled rest kept =>
        done l' settled (List.forall_mem_cons.2 ⟨kept fd closed, rest⟩) kept

theorem wp_kexit (start : Settled l) : protocol.wp i kexit (fun _ => Settled) l := by
  refine wp_bind (wp_perform start ?_)
  rintro r l' rfl
  refine wp_bind (wp_closeAll start fun l' settled closed _ => ?_)
  refine wp_bind (wp_perform ⟨settled, funext fun fd => closed fd (List.mem_finRange fd)⟩ ?_)
  intro r l' never
  exact never.elim

theorem wp_syscall (c : Call) (start : Settled l) : protocol.wp i (syscall c) protocol.done l := by
  cases c with
  | dup n => exact wp_sysDup start
  | close n => exact wp_sysClose start
  | openFile omode => exact wp_sysOpen start
  | pipe => exact wp_sysPipe start
  | fork => exact wp_forkWith start
  | threadCreate => exact wp_forkWith start
  | exit => exact wp_kexit start
  | wait j =>
    refine wp_bind (wp_perform trivial ?_)
    rintro r l' rfl
    cases r <;> exact start

end rules
/-! ## Runs -/

theorem boot_inv : Inv boot.shared fun _ => none where
  balance := by
    intro t
    have nothing : ∀ p, held boot.shared (fun _ => none) t p = 0 := by
      intro p
      cases t with
      | ref f => exact count_eq_zero (p := fun _ : Desc => none = some f) fun _ h => by cases h
      | opened pi w => rfl
      | free pi => rfl
    have unused : kept boot.shared t = 0 := by
      cases t with
      | opened pi w => exact count_eq_zero fun f h => by cases h.1
      | ref f => rfl
      | free pi => rfl
    have none : supply boot.shared t = 0 := by
      cases t with
      | ref f => rfl
      | opened pi w | free pi => simp [supply, boot]
    rw [Finset.sum_congr rfl fun p _ => nothing p, Finset.sum_const_zero, unused, none]
  view := by
    intro p l h
    cases h
  child := by
    intro p l j o h
    cases h
  apart := by
    intro p q l l' j o o' h
    cases h
  empty _ _ := rfl
  fresh := by
    intro p l f h
    cases h
  untyped _ _ := rfl
  panics := .inl rfl

variable {s s' : Sys} {t : List (Act × Option Int)}

theorem step_holds {a e} (h : ByEvent step s (a, e) s') (inv : protocol.Holds s) :
    protocol.Holds s' := by
  cases a with
  | go p c =>
    obtain ⟨_, h⟩ := Option.ite_none_right_eq_some.1 h
    exact Protocol.advance_holds inv h
  | call p c =>
    obtain ⟨alive, h⟩ := Option.ite_none_right_eq_some.1 h
    split at h
    · rename_i between
      obtain rfl : (s.enter p s.shared (syscall c)).1 = s' := congrArg Prod.fst (Option.some.inj h)
      refine Protocol.call_holds inv between fun ls inv idle_p => ?_
      refine ⟨⟨s.shared.ofile p, idle (s.shared.ofile p), fun _ => false, none⟩, ?_,
        wp_syscall c ⟨rfl, rfl⟩⟩
      exact Inv.start inv idle_p alive.2
    · cases h

theorem run_holds (run : Run (ByEvent step) boot t s) : protocol.Holds s :=
  run.keeps ⟨fun _ => none, boot_inv, fun _ => trivial⟩ fun _ _ _ inv st => step_holds st inv

/-- The number of descriptors of all processes that point to a file. -/
def descriptors (s : Shared) (f : Entry) : Nat := count fun x :
    Slot × Desc => s.ofile x.1 x.2 = some f

/-- A process has an open descriptor of an end of the pipe. -/
def InUse (s : Shared) (pi : Nat) : Prop :=
  ∃ p fd f w, s.ofile p fd = some f ∧ IsEnd (s.ftable f) pi w

section quiet
variable {sh : Shared}

theorem Inv.refs (inv : Inv sh fun _ => none) (f : Entry) :
    (sh.ftable f).ref = descriptors sh f := by
  have all : ∑ p, held sh (fun _ => none) (.ref f) p + 0 = (sh.ftable f).ref := inv.balance (.ref f)
  rw [add_zero] at all
  have pairs := count_prod fun p fd => sh.ofile p fd = some f
  exact all.symm.trans pairs.symm

/-- No process is about to close an end or to free a pipe. -/
theorem Inv.kept_eq (inv : Inv sh fun _ => none) {t} (ne : ∀ f, t ≠ .ref f) :
    kept sh t = supply sh t := by
  have none : ∀ p, held sh (fun _ => none) t p = 0 := by
    intro p
    cases t with
    | ref f => exact absurd rfl (ne f)
    | opened pi w => rfl
    | free pi => rfl
  have all := inv.balance t
  rwa [Finset.sum_congr rfl fun p _ => none p, Finset.sum_const_zero, zero_add] at all

theorem Inv.in_use (inv : Inv sh fun _ => none) {f pi w}
    (isEnd : IsEnd (sh.ftable f) pi w) : InUse sh pi := by
  have pos : 0 < (sh.ftable f).ref := by
    refine Nat.pos_of_ne_zero fun zero => ?_
    cases isEnd.1.symm.trans (inv.untyped f zero)
  rw [inv.refs] at pos
  obtain ⟨x, hx⟩ := count_pos pos
  exact ⟨x.1, x.2, f, w, hx, isEnd⟩

/-- Between calls the ends of a pipe are open as long as there are descriptors of them. -/
theorem Inv.open_iff (inv : Inv sh fun _ => none) {pi} (old : pi < sh.npipes) :
    InUse sh pi ↔ ∃ w, sh.isOpen pi w = true := by
  have ends : ∀ w, (count fun f => IsEnd (sh.ftable f) pi w) =
      if pi < sh.npipes ∧ sh.isOpen pi w = true then 1 else 0 := fun w =>
    inv.kept_eq (t := .opened pi w) (by simp)
  constructor
  · rintro ⟨p, fd, f, w, _, isEnd⟩
    refine ⟨w, ?_⟩
    by_contra closed
    have none := ends w
    rw [if_neg fun h => closed h.2, count, Finset.card_eq_zero, Finset.filter_eq_empty_iff] at none
    exact none (Finset.mem_univ f) isEnd
  · rintro ⟨w, opened⟩
    have one := ends w
    rw [if_pos ⟨old, opened⟩] at one
    obtain ⟨f, isEnd⟩ := count_pos (Nat.lt_of_lt_of_eq zero_lt_one one.symm)
    exact inv.in_use isEnd

end quiet

/-- Between calls every file has as many references as there are descriptors of it, slots
that are not in use have none, and a pipe has been freed once, if there are no descriptors
of its ends any more, and has not been freed before. -/
theorem open_files_counted (t : List (Act × Option Int)) (s : Sys)
    (run : Run (ByEvent step) boot t s) (quiet : ∀ p, s.code p = none) :
    (∀ f, (s.shared.ftable f).ref = descriptors s.shared f) ∧
    (∀ p, s.shared.state p = .unused → ∀ fd, s.shared.ofile p fd = none) ∧
    (∀ pi < s.shared.npipes, (InUse s.shared pi → s.shared.frees pi = 0) ∧
      (¬ InUse s.shared pi → s.shared.frees pi = 1)) ∧
    (s.shared.panic = none ∨ s.shared.panic = some .initExiting) := by
  have inv : Inv s.shared fun _ => none := (run_holds run).quiet quiet
  refine ⟨inv.refs, fun p unused fd => congrFun (inv.empty p (.inl unused)) fd, ?_, inv.panics⟩
  intro pi old
  have frees : s.shared.frees pi = if pi < s.shared.npipes ∧ s.shared.isOpen pi false = false ∧
      s.shared.isOpen pi true = false then 1 else 0 := inv.kept_eq (t := .free pi) (by simp)
  have ends : (∃ w, s.shared.isOpen pi w = true) ↔
      ¬ (s.shared.isOpen pi false = false ∧ s.shared.isOpen pi true = false) := by
    rw [Bool.exists_bool, not_and_or, Bool.not_eq_false, Bool.not_eq_false]
  rw [inv.open_iff old, ends, frees]
  constructor
  · intro opened
    rw [if_neg fun h => opened h.2]
  · intro closed
    rw [if_pos ⟨old, not_not.1 closed⟩]

/-- `init` makes a pipe. -/
def makesPipe : List Act := .call initproc .pipe :: List.replicate 11 (.go initproc ⟨true, none⟩)

theorem open_files_counted_pipe :
    ∃ t s, Run (ByEvent step) boot t s ∧ (∀ p, s.code p = none) ∧ s.shared.npipes = 1 ∧
      (s.shared.ftable ⟨0, by decide⟩).ref = descriptors s.shared ⟨0, by decide⟩ := by
  obtain ⟨t, s, run, quiet, one⟩ := events_reach step boot makesPipe
    (P := fun _ s => (∀ p, (s.code p).isNone = true) ∧ s.shared.npipes = 1) (by decide +kernel)
  have quiet : ∀ p, s.code p = none := fun p => Option.isNone_iff_eq_none.1 (quiet p)
  exact ⟨t, s, run, quiet, one, (open_files_counted t s run quiet).1 _⟩

end OsProject.Xv6.OpenFiles
