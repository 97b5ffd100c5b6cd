import OsProject.Xv6.VirtioRequests

/-! # Disk requests over whole runs

The sections of the driver meet what the steps of a request need, because one process or
hart is in a section at a time and a buffer is with one call at a time. -/
namespace OsProject.Xv6.VirtioDisk
open Lib Lib.Outcome Lib.Transition List Option
open Function (update update_of_ne update_self update_eq_self update_apply forall_update_iff)

variable {np nh : Nat} {s s' : Sys np nh} {p q : Fin np} {h : Fin nh} {r : Request} {n : Nat}

/-! ## Sections on the descriptors -/

/-- The process has `vdisk_lock`. -/
def Point.inside : Point → Bool
  | .alloc _ | .format _ | .post _ | .test .. => true
  | .idle | .acquire _ | .asleep _ | .woken _ => false

def Handler.inside : Handler → Bool
  | .loop | .handle => true
  | .idle | .acquire => false

/-- The same but for who is awake. -/
structure Alike (s s' : Sys np nh) : Prop where
  stage : ∀ p, (s'.point p).stage = (s.point p).stage
  inside : ∀ p, (s'.point p).inside = (s.point p).inside
  vdiskLock : s'.vdiskLock = s.vdiskLock
  lock : s'.lock = s.lock
  handler : s'.handler = s.handler
  fault : s'.fault = s.fault

theorem Alike.disk {d} : Alike s { s with toDisk := d } :=
  ⟨fun _ => rfl, fun _ => rfl, rfl, rfl, rfl, rfl⟩

theorem Alike.refl : Alike s s := .disk

theorem Alike.trans {t} (a : Alike s s') (b : Alike s' t) : Alike s t where
  stage p := (b.stage p).trans (a.stage p)
  inside p := (b.inside p).trans (a.inside p)
  vdiskLock := b.vdiskLock.trans a.vdiskLock
  lock := b.lock.trans a.lock
  handler := b.handler.trans a.handler
  fault := b.fault.trans a.fault

variable {on : Wait → Bool} {pt : Point} {i : Nat} {d : Disk} {idx : List Nat} {e : Option Ret}

theorem wake_stage : (wake on pt).stage = pt.stage := by
  unfold wake
  split
  · split
    · rfl
    · rfl
  · rfl

theorem wake_inside : (wake on pt).inside = pt.inside := by
  unfold wake
  split
  · split
    · rfl
    · rfl
  · rfl

theorem freeDesc_ok (bound : i < num) (taken : s.free i = false) :
    ∃ s', freeDesc s i = .ok s' ∧ Alike s s' ∧ s'.toDisk = s.toDisk.giveBack [i] := by
  unfold freeDesc
  rw [if_neg (not_le.2 bound), taken, if_neg (by decide)]
  refine ⟨_, rfl, ⟨fun _ => wake_stage, fun _ => wake_inside, rfl, rfl, rfl, rfl⟩, ?_⟩
  unfold Disk.giveBack Sys.wakeup
  dsimp only
  congr 1
  · funext j
    rw [update_apply]
    simp only [mem_singleton]
  · funext j
    by_cases same : j = i
    · subst same
      simp
    · simp [same]

/-- One round of `free_chain`. -/
theorem freeChain_succ (bound : i < num) (taken : s.free i = false) : ∃ s', freeChain (n + 1) s i =
        (if (s.desc i).flags &&& flagNext ≠ 0 then freeChain n s' (s.desc i).next.toNat
          else .ok s') ∧
      Alike s s' ∧ s'.toDisk = s.toDisk.giveBack [i] := by
  obtain ⟨s', ok, alike, disk⟩ := freeDesc_ok bound taken
  refine ⟨s', ?_, alike, disk⟩
  rw [freeChain, ok]
  rfl

/-- Other descriptors are as they were. -/
theorem giveBack_other {j} (ne : j ≠ i) :
    (d.giveBack [i]).desc j = d.desc j ∧ (d.giveBack [i]).free j = d.free j := by
  refine ⟨if_neg (by simpa using ne), ?_⟩
  show (d.free j || decide (j ∈ [i])) = _
  simp [ne]

/-- The chain of a request is freed to its end. -/
theorem freeChain_ok (first : s.desc r.idx0 = ⟨.op r.idx0, 16, flagNext, UInt16.ofNat r.idx1⟩)
    (second : s.desc r.idx1 =
      ⟨.data r.b, 1024, (if r.write then 0 else flagWrite) ||| flagNext, UInt16.ofNat r.idx2⟩)
    (third : s.desc r.idx2 = ⟨.status r.idx0, 1, flagWrite, 0⟩) (nodup : r.idx.Nodup)
    (bound : ∀ i ∈ r.idx, i < num) (taken : ∀ i ∈ r.idx, s.free i = false) :
    ∃ s', freeChain (n + 3) s r.idx0 = .ok s' ∧ Alike s s' ∧
      s'.toDisk = s.toDisk.giveBack r.idx := by
  simp only [Request.idx, nodup_cons, mem_cons, not_mem_nil, or_false, not_or,
    nodup_nil, and_true, not_false_eq_true] at nodup
  obtain ⟨⟨ne01, ne02⟩, ne12⟩ := nodup
  have bound0 := bound r.idx0 (by simp [Request.idx])
  have bound1 := bound r.idx1 (by simp [Request.idx])
  have bound2 := bound r.idx2 (by simp [Request.idx])
  have flags : ((if r.write then 0 else flagWrite) ||| flagNext) &&& flagNext ≠ 0 := by
    cases r.write with
    | true => decide
    | false => decide
  obtain ⟨s1, run1, alike1, disk1⟩ :=
    freeChain_succ (n := n + 2) bound0 (taken r.idx0 (by simp [Request.idx]))
  have second1 : s1.desc r.idx1 = s.desc r.idx1 ∧ s1.free r.idx1 = s.free r.idx1 :=
    disk1 ▸ giveBack_other (Ne.symm ne01)
  have third1 : s1.desc r.idx2 = s.desc r.idx2 ∧ s1.free r.idx2 = s.free r.idx2 :=
    disk1 ▸ giveBack_other (Ne.symm ne02)
  obtain ⟨s2, run2, alike2, disk2⟩ :=
    freeChain_succ (n := n + 1) bound1 (second1.2.trans (taken r.idx1 (by simp [Request.idx])))
  have third2 : s2.desc r.idx2 = s1.desc r.idx2 ∧ s2.free r.idx2 = s1.free r.idx2 :=
    disk2 ▸ giveBack_other (Ne.symm ne12)
  obtain ⟨s3, run3, alike3, disk3⟩ :=
    freeChain_succ (n := n) bound2
      ((third2.2.trans third1.2).trans (taken r.idx2 (by simp [Request.idx])))
  refine ⟨s3, ?_, alike1.trans (alike2.trans alike3), ?_⟩
  · rw [run1, first, if_pos (show flagNext &&& flagNext ≠ 0 by decide), ofNat16 bound1,
      run2, second1.1, second, if_pos flags, ofNat16 bound2, run3, third2.1, third1.1, third]
    exact if_neg (show ¬ flagWrite &&& flagNext ≠ 0 by decide)
  · rw [disk3, disk2, disk1, Disk.giveBack_append, Disk.giveBack_append]
    rfl

theorem allocDesc_grants (g : Grants d idx) (disk : s.toDisk = d.grant idx)
    (h : allocDesc s = some (i, s')) :
    Grants d (idx ++ [i]) ∧ Alike s s' ∧ s'.toDisk = d.grant (idx ++ [i]) := by
  obtain ⟨j, found, eq⟩ := map_eq_some_iff.1 h
  obtain ⟨rfl, rfl⟩ := Prod.mk.inj eq
  have free : s.free = (d.grant idx).free := congrArg Disk.free disk
  have was := find?_some found
  rw [free] at was
  obtain ⟨avail, new⟩ := Bool.and_eq_true_iff.1 was
  have new := of_decide_eq_true new
  refine ⟨⟨?_, ?_, ?_⟩, .disk, ?_⟩
  · exact nodup_append.2 ⟨g.nodup, nodup_singleton j, fun a ha b hb => by
      obtain rfl := mem_singleton.1 hb
      exact fun eq => new (eq ▸ ha)⟩
  · intro a ha
    obtain ha | ha := mem_append.1 ha
    · exact g.bound a ha
    · obtain rfl := mem_singleton.1 ha
      exact mem_range.1 (mem_of_find?_eq_some found)
  · intro a ha
    obtain ha | ha := mem_append.1 ha
    · exact g.free a ha
    · obtain rfl := mem_singleton.1 ha
      exact avail
  · rw [free, disk]
    unfold Disk.grant
    dsimp only
    congr 1
    funext a
    by_cases same : a = j
    · subst same
      simp
    · simp [same]

/-- What has been handed out can be given back. -/
theorem rollback_ends (g : Grants d idx) (disk : s.toDisk = d.grant idx) :
    Ends (fun _ => False) (idx.foldlM freeDesc s) fun t =>
      Alike s t ∧ t.toDisk = (d.grant idx).giveBack idx := by
  refine .foldlM (I := fun back t => Alike s t ∧ t.toDisk = (d.grant idx).giveBack back)
    ⟨.refl, ?_⟩ ?_
  · rw [disk]
    unfold Disk.giveBack
    simp
  · rintro back i rest t eq ⟨alike, now⟩
    have mem : i ∈ idx := eq ▸ mem_append_right _ mem_cons_self
    have new : i ∉ back := by
      have nodup := g.nodup
      rw [eq, nodup_append] at nodup
      exact fun h => nodup.2.2 i h i mem_cons_self rfl
    have taken : t.free i = false := by
      rw [show t.free = _ from congrArg Disk.free now]
      show (d.free i && decide (i ∉ idx) || decide (i ∈ back)) = false
      simp [mem, new]
    obtain ⟨t', ok, alike', disk'⟩ := freeDesc_ok (g.bound i mem) taken
    rw [ok]
    refine ⟨alike.trans alike', ?_⟩
    rw [disk', now, Disk.giveBack_append]

/-- `alloc3_desc` hands out free descriptors, or leaves things as they were. -/
theorem allocDescs_ends (m : Nat) (g : Grants d idx) (disk : s.toDisk = d.grant idx) :
    Ends (fun _ => False) (allocDescs m idx s) fun (res, s') => Alike s s' ∧ match res with
      | some idx' => idx'.length = idx.length + m ∧ Grants d idx' ∧ s'.toDisk = d.grant idx'
      | none => ∃ idx', Grants d idx' ∧ s'.toDisk = (d.grant idx').giveBack idx' := by
  induction m generalizing idx s with
  | zero => exact ⟨.refl, rfl, g, disk⟩
  | succ m ih =>
    unfold allocDescs
    cases found : allocDesc s with
    | none =>
      refine (rollback_ends g disk).bind fun t ht => ?_
      exact ⟨ht.1, idx, g, ht.2⟩
    | some x =>
      obtain ⟨g1, alike, disk1⟩ := allocDesc_grants g disk found
      refine (ih g1 disk1).mono fun (res, s') h => ⟨alike.trans h.1, ?_⟩
      cases res with
      | none => exact h.2
      | some idx' =>
        obtain ⟨length, rest⟩ := h.2
        refine ⟨?_, rest⟩
        rw [length, length_append, length_singleton]
        omega

/-! ## The invariant of the system -/

def stages (s : Sys np nh) : Fin np → Stage := fun p => (s.point p).stage

/-- `ask` is what the processes have last called with. -/
structure Good (ask : Fin np → Option Ask) (s : Sys np nh) : Prop where
  calm : s.fault = none
  procs : ∀ p, (s.point p).inside = true → s.vdiskLock = some (.inl p)
  harts : ∀ h, (s.handler h).inside = true → s.vdiskLock = some (.inr h)
  more : ∀ h, s.handler h = .handle → s.usedIdx ≠ s.used.idx
  asks : ∀ p a, (s.point p).stage.ask = some a → ask p = some a ∧ s.lock a.b = some p
  inv : ∃ pend done, Inv s.toDisk (stages s) pend done

variable {ask ask' : Fin np → Option Ask}

theorem Good.bufs (g : Good ask s) {b} (h : (s.point p).stage.buf = some b) :
    s.lock b = some p := by
  obtain ⟨a, asked, rfl⟩ := map_eq_some_iff.1 h
  exact (g.asks p a asked).2

theorem Good.alone (g : Good ask s) (at_p : (s.point p).stage.buf = some r.b) (q : Fin np)
    (ne : q ≠ p) : (stages s q).buf ≠ some r.b := by
  intro other
  exact ne (Option.some.inj ((g.bufs other).symm.trans (g.bufs at_p)))

/-- Nobody else is in a section. -/
theorem Good.excludes (g : Good ask s) {who} (mine : s.vdiskLock = some who ∨ s.vdiskLock = none) :
    (∀ q, who ≠ .inl q → ¬ (s.point q).inside = true) ∧ ∀ h, who ≠ .inr h →
      ¬ (s.handler h).inside = true := by
  have other : ∀ x, who ≠ x → s.vdiskLock ≠ some x := by
    rintro x ne held
    obtain has | has := mine
    · exact ne (Option.some.inj (has.symm.trans held))
    · cases has.symm.trans held
  exact ⟨fun q ne inner => other _ ne (g.procs q inner),
    fun h ne inner => other _ ne (g.harts h inner)⟩

theorem goto_stages : stages (s.goto p pt) = update (stages s) p pt.stage := Function.comp_update ..

theorem update_stages : update (stages s) p (s.point p).stage = stages s := update_eq_self ..

variable {t : Sys np nh} {lock : Option (Fin np ⊕ Fin nh)}

/-- A section of a process that has `vdisk_lock`, or takes it. -/
theorem Good.acts (g : Good ask s) {pt0} (at_p : s.point p = pt0)
    (mine : s.vdiskLock = some (.inl p) ∨ s.vdiskLock = none) (alike : Alike s t)
    (inside : pt.inside = true → lock = some (.inl p))
    (same : ∀ a, pt.stage.ask = some a → pt0.stage.ask = some a)
    (inv : ∃ pend done, Inv t.toDisk (update (stages s) p pt.stage) pend done) :
    Good ask ({ t with vdiskLock := lock }.goto p pt) := by
  obtain ⟨no_proc, no_hart⟩ := g.excludes mine
  have outer : ∀ h, ¬ (t.handler h).inside = true := by
    rw [alike.handler]
    exact fun h => no_hart h Sum.inl_ne_inr
  refine ⟨alike.fault.trans g.calm, ?_, fun h inner => (outer h inner).elim, ?_, ?_, ?_⟩
  · refine (forall_update_iff t.point fun q x => x.inside = true → lock = some (.inl q)).2
      ⟨inside, ?_⟩
    intro q ne inner
    rw [alike.inside] at inner
    exact (no_proc q (fun eq => ne (Sum.inl.inj eq).symm) inner).elim
  · intro h at_h
    refine (outer h ?_).elim
    rw [show t.handler h = _ from at_h]
    rfl
  · refine (forall_update_iff t.point fun q x => ∀ a, x.stage.ask = some a →
      ask q = some a ∧ t.lock a.b = some q).2 ⟨?_, ?_⟩
    · intro a asked
      rw [alike.lock]
      exact g.asks p a (at_p ▸ same a asked)
    · intro q ne a
      rw [alike.stage, alike.lock]
      exact g.asks q a
  · rw [goto_stages]
    rwa [show stages { t with vdiskLock := lock } = stages s from funext alike.stage]

/-- A process that takes the lock, or goes on without a change to the disk, or waits. -/
theorem Good.turns (g : Good ask s) {pt0} (at_p : s.point p = pt0)
    (mine : s.vdiskLock = some (.inl p) ∨ s.vdiskLock = none) (same : pt.stage = pt0.stage)
    (inside : pt.inside = true → lock = some (.inl p)) :
    Good ask ({ s with vdiskLock := lock }.goto p pt) := by
  refine g.acts at_p mine .refl inside (fun b hb => same ▸ hb) ?_
  rw [same, ← at_p, update_stages]
  exact g.inv

/-! ## Steps -/

/-- Only one call at a time has formatted descriptors that are not posted. -/
theorem Good.only_filled (g : Good ask s) (mine : s.vdiskLock = some (.inl p)) {q r'}
    (h : stages s q = .filled r') : q = p := by
  have inside : (s.point q).inside = true := by
    unfold stages at h
    cases at_q : s.point q with
    | post r => rfl
    | idle | acquire | alloc | format | test => simp [at_q, Point.stage] at h
    | asleep w | woken w =>
      rw [at_q] at h
      cases w with
      | desc | buf => cases h
  exact (Sum.inl.inj (Option.some.inj (mine.symm.trans (g.procs q inside)))).symm

theorem three_idx {a} (length : idx.length = 3) :
    (⟨a, idx.getD 0 0, idx.getD 1 0, idx.getD 2 0⟩ : Request).idx = idx := by
  obtain ⟨i, j, k, rfl⟩ := length_eq_three.1 length
  rfl

/-- After a section of `p`. A call returns when the device has completed its request. -/
structure Turned (ask : Fin np → Option Ask) (s : Sys np nh) (p : Fin np)
    (x : Sys np nh × Option Ret) : Prop where
  good : Good ask x.1
  returns : ∀ ret, x.2 = some ret →
    s.point p = .test ret.r ret.n ∧ s.completed ret.n = some ret.r.transfer

theorem Turned.silent (h : Good ask s') : Turned ask s p (s', none) :=
  ⟨h, fun _ eq => by cases eq⟩

theorem alloc_good (g : Good ask s) {a} (at_p : s.point p = .alloc a) :
    Yields (rw s p) (Turned ask s p) := by
  have lock := g.procs p (by rw [at_p]; rfl)
  have asked : stages s p = .asked a := by rw [stages, at_p]; rfl
  obtain ⟨pend, done, inv⟩ := g.inv
  have none_yet : Grants s.toDisk [] :=
    ⟨nodup_nil, fun _ h => (not_mem_nil h).elim, fun _ h => (not_mem_nil h).elim⟩
  have start : s.toDisk = s.toDisk.grant [] := by simp [Disk.grant]
  have spec := allocDescs_ends 3 none_yet start
  unfold rw
  simp only [at_p]
  unfold alloc3Desc
  split
  · rename_i idx t eq
    obtain ⟨alike, length, grants, disk⟩ := spec.of_ok eq
    have three := three_idx (a := a) length
    refine .some (.silent (g.acts at_p (.inl lock) alike (fun _ => alike.vdiskLock.trans lock)
      (fun _ hb => hb) ⟨pend, done, inv.allocated asked ?_ ?_⟩))
    · rw [three]
      exact grants
    · rw [three]
      exact disk
  · rename_i t eq
    obtain ⟨alike, idx, grants, disk⟩ := spec.of_ok eq
    refine .some (.silent (g.acts at_p (.inl lock) alike (fun h => by cases h) (fun _ hb => hb)
      ⟨pend, done, ?_⟩))
    have same : (Point.asleep (.desc a)).stage = (s.point p).stage := by rw [at_p]; rfl
    rw [same, update_stages]
    exact inv.rolledBack grants disk
  · rename_i f eq
    rw [eq] at spec
    exact spec.elim

/-- The end of a call frees a chain that is in nobody's way. -/
theorem finish_good (g : Good ask s) (at_p : s.point p = .test r n) (ended : s.busy r.b = false) :
    ∃ s', finish s p r n = (s', some ⟨r, n⟩) ∧ Good ask s' := by
  have lock := g.procs p (by rw [at_p]; rfl)
  have posted : stages s p = .posted r n := by rw [stages, at_p]; rfl
  obtain ⟨pend, done, inv⟩ := g.inv
  have own : (stages s p).owned = r.idx := by rw [posted]; rfl
  have w := inv.chains p r (by rw [posted]; rfl)
  have bound := inv.owners.bound p
  have nodup := inv.owners.nodup p
  have taken : ∀ i ∈ r.idx, s.free i = false := by
    intro i hi
    exact (inv.owners.free i (bound i (own ▸ hi))).2 ⟨p, own ▸ hi⟩
  rw [own] at bound nodup
  unfold finish
  obtain ⟨t, ok, alike, disk⟩ := freeChain_ok (n := 6)
    (s := { s with info := update s.info r.idx0 { s.info r.idx0 with b := none } })
    w.first w.second w.third nodup bound taken
  dsimp only
  rw [show num + 1 = 6 + 3 from rfl, ok]
  exact ⟨_, rfl, g.acts at_p (.inl lock) (Alike.disk.trans alike) (fun h => by cases h)
    (fun _ h => by cases h) ⟨pend, done, inv.finished posted ended disk⟩⟩

theorem rw_good (g : Good ask s) : Yields (rw s p) (Turned ask s p) := by
  by_cases alloc : ∃ a, s.point p = .alloc a
  · obtain ⟨a, at_p⟩ := alloc
    exact alloc_good g at_p
  unfold rw
  split
  · exact .none
  · exact .none
  · rename_i a at_p
    exact .when fun free => .some (.silent (g.turns at_p (.inr free) rfl fun _ => rfl))
  · rename_i w at_p
    refine .when fun free => .some (.silent (g.turns at_p (.inr free) ?_ fun _ => rfl))
    cases w with
    | desc | buf => rfl
  · rename_i a at_p
    exact absurd ⟨a, at_p⟩ alloc
  · rename_i r at_p
    have lock := g.procs p (by rw [at_p]; rfl)
    have allocated : stages s p = .allocated r := by rw [stages, at_p]; rfl
    obtain ⟨pend, done, inv⟩ := g.inv
    refine .some (.silent (g.acts at_p (.inl lock) .disk (fun _ => lock) (fun _ hb => hb)
      ⟨pend, done, inv.formatted allocated (g.alone (by rw [at_p]; rfl)) ?_ rfl⟩))
    intro q r' filled
    obtain rfl := g.only_filled lock filled
    rw [allocated] at filled
    cases filled
  · rename_i r at_p
    have lock := g.procs p (by rw [at_p]; rfl)
    have filled : stages s p = .filled r := by rw [stages, at_p]; rfl
    obtain ⟨pend, done, inv⟩ := g.inv
    exact .some (.silent (g.acts at_p (.inl lock) .disk (fun _ => lock) (fun _ hb => hb)
      ⟨pend ++ [(s.nposted, r.idx0)], done, inv.posts filled (fun q r' => g.only_filled lock) rfl⟩))
  · rename_i r n at_p
    split
    · have lock := g.procs p (by rw [at_p]; rfl)
      exact .some (.silent (g.turns at_p (.inl lock) rfl fun h => by cases h))
    · rename_i ended
      replace ended : s.busy r.b = false := by simpa using ended
      obtain ⟨t, eq, good⟩ := finish_good g at_p ended
      rw [eq]
      refine .some ⟨good, ?_⟩
      rintro _ ⟨⟩
      obtain ⟨pend, done, inv⟩ := g.inv
      exact ⟨at_p, inv.flight.ended p r n (by rw [stages, at_p]; rfl) ended⟩

/-- A section of a hart that has `vdisk_lock`, or takes it. -/
theorem Good.interrupts (g : Good ask s) {x}
    (mine : s.vdiskLock = some (.inr h) ∨ s.vdiskLock = none)
    (alike : Alike s t) (inside : x.inside = true → lock = some (.inr h))
    (more : x = .handle → t.usedIdx ≠ t.used.idx)
    (inv : ∃ pend done, Inv t.toDisk (stages s) pend done) :
    Good ask ({ t with vdiskLock := lock }.enter h x) := by
  obtain ⟨no_proc, no_hart⟩ := g.excludes mine
  have outer : ∀ i, i ≠ h → ¬ (t.handler i).inside = true := by
    rw [alike.handler]
    exact fun i ne => no_hart i fun eq => ne (Sum.inr.inj eq).symm
  refine ⟨alike.fault.trans g.calm, ?_, ?_, ?_, ?_, ?_⟩
  · intro q inner
    exact (no_proc q Sum.inr_ne_inl (alike.inside q ▸ inner)).elim
  · exact (forall_update_iff t.handler fun i x => x.inside = true → lock = some (.inr i)).2
      ⟨inside, fun i ne inner => (outer i ne inner).elim⟩
  · refine (forall_update_iff t.handler fun _ x => x = .handle →
      t.usedIdx ≠ t.used.idx).2 ⟨more, ?_⟩
    intro i ne at_i
    exact (outer i ne (at_i ▸ rfl)).elim
  · intro q a
    show (t.point q).stage.ask = some a → ask q = some a ∧ t.lock a.b = some q
    rw [alike.stage, alike.lock]
    exact g.asks q a
  · have same : stages ({ t with vdiskLock := lock }.enter h x) = stages s := funext alike.stage
    rwa [same]

/-- An entry of the used ring is a chain that some call waits for. -/
theorem handle_good (g : Good ask s) (at_h : s.handler h = .handle) : Good ask (handle s h) := by
  have lock := g.harts h (by rw [at_h]; rfl)
  obtain ⟨pend, done, inv⟩ := g.inv
  obtain ⟨k, done', rfl⟩ := exists_cons_of_ne_nil (inv.used_ne.1 (g.more h at_h))
  have mem : k ∈ flying s.toDisk pend (k :: done') := mem_append_right _ mem_cons_self
  have cell : (s.used.ring (s.usedIdx.toNat % num)).toNat = k.2 := by
    rw [inv.rings.used.head]
    exact ofNat32 (inv.bound mem)
  obtain ⟨p, r, posted, first, _⟩ := (inv.flight.mem k).1 mem
  have stat : (s.info k.2).status = 0 := (inv.flight.done k mem_cons_self).1
  have buf : (s.info k.2).b = some r.b := first ▸ (inv.chains p r (by rw [posted]; rfl)).info
  unfold handle
  dsimp only
  rw [cell, stat, if_neg (by decide), buf]
  have alone := g.alone (show (stages s p).buf = some r.b by rw [posted]; rfl)
  have alike : Alike s ({ s with busy := update s.busy r.b false, usedIdx := s.usedIdx + 1 }.wakeup
      (Wait.onBuf r.b)) :=
    ⟨fun _ => wake_stage, fun _ => wake_inside, rfl, rfl, rfl, rfl⟩
  have next := g.interrupts (x := .loop) (.inl lock) alike (fun _ => lock) (fun h => by cases h)
    ⟨pend, done', inv.handled posted first alone rfl⟩
  exact next

theorem intr_good (g : Good ask s) : Yields (intr s h) (Good ask) := by
  unfold intr
  split
  · exact .none
  · refine .when fun free => .some ?_
    exact g.interrupts (.inr free) .refl (fun _ => rfl) (fun h => by cases h) g.inv
  · rename_i at_h
    have lock := g.harts h (by rw [at_h]; rfl)
    refine .some ?_
    split
    · rename_i more
      exact g.interrupts (.inl lock) .refl (fun _ => lock) (fun _ => more) g.inv
    · exact g.interrupts (.inl lock) .refl (fun h => by cases h) (fun h => by cases h) g.inv
  · rename_i at_h
    exact .some (handle_good g at_h)

/-- A step of the device. -/
theorem Good.device (g : Good ask s) (more : s.usedIdx ≠ s.used.idx → d.usedIdx ≠ d.used.idx)
    (inv : ∃ pend done, Inv d (stages s) pend done) : Good ask { s with toDisk := d } :=
  ⟨g.calm, g.procs, g.harts, fun h at_h => more (g.more h at_h), g.asks, inv⟩

/-- A process without a call, or asleep, has nothing that a change of who is awake could touch. -/
theorem Good.waits (g : Good ask s) (pt : Point) (same : pt.inside = false)
    (owned : pt.stage = (s.point p).stage ∨ (s.point p).stage = .out ∧ ∃ a, pt.stage = .asked a)
    (others : ∀ q, q ≠ p → ask' q = ask q)
    (own : ∀ a, pt.stage.ask = some a → ask' p = some a ∧ s.lock a.b = some p) :
    Good ask' (s.goto p pt) := by
  obtain ⟨pend, done, inv⟩ := g.inv
  refine ⟨g.calm, ?_, g.harts, g.more, ?_, pend, done, ?_⟩
  · refine (forall_update_iff s.point fun q x => x.inside = true → s.vdiskLock = some (.inl q)).2
      ⟨fun inner => ?_, fun q _ => g.procs q⟩
    cases same.symm.trans inner
  · exact (forall_update_iff s.point fun q x => ∀ a, x.stage.ask = some a →
      ask' q = some a ∧ s.lock a.b = some q).2 ⟨own, fun q ne => others q ne ▸ g.asks q⟩
  · rw [goto_stages]
    obtain same | ⟨was, a, asked⟩ := owned
    · rw [same, update_stages]
      exact inv
    · have was : stages s p = .out := was
      rw [asked]
      refine inv.stays (by simp [was]) (by simp) ?_ (fun _ _ _ _ w => w) (fun _ h => by cases h)
        inv.rings rfl rfl rfl (fun _ _ _ _ => rfl) (fun _ _ _ _ => rfl) ?_
      · exact inv.owners.same rfl (update_owned (by rw [was]; rfl))
      · intro q r h
        obtain ⟨_, h⟩ | ⟨_, h⟩ := update_stage h
        · cases h
        · exact inv.flight.filled q r h

theorem isIdle_iff (h : pt.isIdle = true) : pt = .idle := by
  cases pt with
  | idle => rfl
  | acquire | alloc | format | post | test | asleep | woken => cases h

theorem goto_same : s.goto p (s.point p) = s := by
  unfold Sys.goto
  rw [update_eq_self]

/-- What the processes have called with after one more act. -/
def Act.asks (ask : Fin np → Option Ask) : Act np nh → Fin np → Option Ask
  | .call p a => update ask p (some a)
  | _ => ask

theorem step_good {a} (g : Good ask s) : Yields (step s a) fun x => Good (a.asks ask) x.1 := by
  unfold step
  rw [if_pos g.calm]
  cases a with
  | acquiresleep p b =>
    refine .when fun may => .some ⟨g.calm, g.procs, g.harts, g.more, ?_, g.inv⟩
    intro q a at_q
    obtain ⟨asked, held⟩ := g.asks q a at_q
    have ne : a.b ≠ b := by
      rintro rfl
      cases may.2.symm.trans held
    exact ⟨asked, (update_of_ne ne ..).trans held⟩
  | releasesleep p b =>
    refine .when fun may => .some ⟨g.calm, g.procs, g.harts, g.more, ?_, g.inv⟩
    intro q a at_q
    obtain ⟨asked, held⟩ := g.asks q a at_q
    have ne : a.b ≠ b := by
      rintro rfl
      obtain rfl := Option.some.inj (may.2.symm.trans held)
      rw [show s.point p = .idle from isIdle_iff may.1] at at_q
      cases at_q
    exact ⟨asked, (update_of_ne ne ..).trans held⟩
  | call p a =>
    refine .when fun may => .some (g.waits (.acquire a) rfl (.inr ⟨?_, a, rfl⟩)
      (fun q ne => update_of_ne ne ..) ?_)
    · rw [isIdle_iff may.1]
      rfl
    · rintro _ ⟨⟩
      exact ⟨update_self .., may.2⟩
  | go p => exact fun x run => (rw_good g x run).good
  | kill p =>
    refine .some ?_
    cases outside : (s.point p).inside with
    | false =>
      refine g.waits _ (wake_inside.trans outside) (.inl wake_stage) (fun _ _ => rfl) ?_
      rw [wake_stage]
      exact g.asks p
    | true =>
      have same : wake (fun _ => true) (s.point p) = s.point p := by
        cases at_p : s.point p with
        | asleep w =>
          rw [at_p] at outside
          cases outside
        | idle | acquire | alloc | format | post | test | woken => rfl
      rw [same, goto_same]
      exact g
  | interrupt i =>
    refine .when fun idle => .some ⟨g.calm, g.procs, ?_, ?_, g.asks, g.inv⟩
    · exact (forall_update_iff s.handler fun j x => x.inside = true → s.vdiskLock = some (.inr j)).2
        ⟨by rintro ⟨⟩, fun j _ => g.harts j⟩
    · exact (forall_update_iff s.handler fun _ x => x = .handle → s.usedIdx ≠ s.used.idx).2
        ⟨by rintro ⟨⟩, fun j _ => g.more j⟩
  | intr i => exact .map (intr_good g)
  | take =>
    obtain ⟨pend, done, inv⟩ := g.inv
    refine .map fun d run => ?_
    obtain ⟨⟨usedIdx, used⟩, pend', inv'⟩ := inv.takes run
    exact g.device (by rw [usedIdx, used]; exact id) ⟨pend', done, inv'⟩
  | serve k =>
    obtain ⟨pend, done, inv⟩ := g.inv
    refine .map fun d run => ?_
    obtain ⟨⟨usedIdx, used⟩, inv'⟩ := inv.serves run
    exact g.device (by rw [usedIdx, used]; exact id) ⟨pend, done, inv'⟩
  | publish k =>
    obtain ⟨pend, done, inv⟩ := g.inv
    refine .map fun d run => ?_
    obtain ⟨done', some_done, inv'⟩ := inv.publishes run
    exact g.device (fun _ => inv'.used_ne.2 some_done) ⟨pend, done', inv'⟩

theorem init_owners :
    Owners (virtioDiskInit : Sys np nh).free (stages (virtioDiskInit : Sys np nh)) where
  bound _ _ h := (not_mem_nil h).elim
  nodup _ := nodup_nil
  single _ _ _ h := (not_mem_nil h).elim
  free i _ := by
    constructor
    · intro h
      cases h
    · rintro ⟨p, h⟩
      exact (not_mem_nil h).elim

theorem init_flight :
    Flight (virtioDiskInit : Sys np nh).toDisk (stages (virtioDiskInit : Sys np nh)) [] [] where
  ids := nodup_nil
  mem k := by
    constructor
    · intro h
      exact (not_mem_nil h).elim
    · rintro ⟨p, r, h, _⟩
      cases h
  filled _ _ h := by cases h
  serial _ _ _ _ _ h := by cases h
  posted _ _ _ h := by cases h
  served _ h := (not_mem_nil h).elim
  done _ h := (not_mem_nil h).elim
  ended _ _ _ h := by cases h

theorem init_good : Good (fun _ => none) (virtioDiskInit : Sys np nh) where
  calm := rfl
  procs _ inner := by cases inner
  harts _ inner := by cases inner
  more _ at_h := by cases at_h
  asks _ _ at_p := by cases at_p
  inv := ⟨[], [], {
    owners := init_owners
    chains := fun _ _ h => by cases h
    rings := ⟨.nil (by decide), .nil (by decide), rfl, rfl⟩
    flight := init_flight }⟩

/-- What each process has last called with. -/
def asked : List (Act np nh × Option Ret) → Fin np → Option Ask
  | [] => fun _ => none
  | l :: t => l.1.asks (asked t)

theorem run_good {t} (run : Run (ByEvent step) virtioDiskInit t s) : Good (asked t) s :=
  run.invariant (I := fun t => Good (asked t)) init_good fun _ _ _ _ _ good st =>
    step_good good _ st

/-! ## Matching -/

/-- The descriptors that a process has for its call. -/
def held (s : Sys np nh) (p : Fin np) : List Nat := (s.point p).stage.owned

/-- What holds between two steps, after the run `t`. -/
structure Matched (t : List (Act np nh × Option Ret)) (s : Sys np nh) : Prop where
  /-- no panic -/
  calm : s.fault = none
  /-- a call that returns does so after the device has completed its chain, which was for what the
  process called with -/
  returns : ∀ p s' ret, step s (.go p) = some (s', some ret) → s.point p = .test ret.r ret.n ∧
    asked t p = some ret.r.toAsk ∧ s.completed ret.n = some ret.r.transfer
  /-- no two calls have the same chain -/
  numbers : ∀ p q r r' n, (s.point p).stage = .posted r n → (s.point q).stage = .posted r' n → p = q
  /-- the chain of a call in flight, with its three descriptors -/
  chain : ∀ p r n, (s.point p).stage = .posted r n →
    held s p = [r.idx0, r.idx1, r.idx2] ∧ (held s p).Nodup ∧
      readChain s.toDisk r.idx0 = some (r.transfer, r.idx0)
  /-- every descriptor is free or of one call -/
  each : ∀ i, i < num → s.free i = true ∧ (∀ p, i ∉ held s p) ∨
    s.free i = false ∧ ∃ p, i ∈ held s p ∧ ∀ q, i ∈ held s q → q = p

theorem requests_matched {t : List (Act np nh × Option Ret)}
    (run : Run (ByEvent step) virtioDiskInit t s) : Matched t s := by
  have g := run_good run
  obtain ⟨pend, done, inv⟩ := g.inv
  refine ⟨g.calm, ?_, inv.flight.serial, ?_, ?_⟩
  · intro p s' ret h
    unfold step at h
    rw [if_pos g.calm] at h
    obtain ⟨at_p, completed⟩ := (rw_good g _ h).returns ret rfl
    exact ⟨at_p, (g.asks p _ (by rw [at_p]; rfl)).1, completed⟩
  · intro p r n posted
    have own : held s p = r.idx := by rw [held, posted]; rfl
    have bound := inv.owners.bound p
    rw [show (stages s p).owned = r.idx from own] at bound
    have w := inv.chains p r (by rw [show stages s p = _ from posted]; rfl)
    exact ⟨own, inv.owners.nodup p, w.readChain bound⟩
  · intro i bound
    have free := inv.owners.free i bound
    cases now : s.free i with
    | true =>
      refine .inl ⟨rfl, fun p own => ?_⟩
      have taken := free.2 ⟨p, own⟩
      rw [show s.toDisk.free i = _ from now] at taken
      cases taken
    | false =>
      obtain ⟨p, own⟩ := free.1 now
      exact .inr ⟨rfl, p, own, fun q other => inv.owners.single q p i other own⟩

theorem requests_matched_read :
    ∃ (t : List (Act 1 1 × Option Ret)) (s : Sys 1 1),
      Run (ByEvent step) virtioDiskInit t s ∧
        (∃ p, ((step s (.go p)).any fun x => x.2.isSome) = true) ∧ Matched t s := by
  let p : Fin 1 := ⟨0, Nat.zero_lt_one⟩
  let b : Buf := ⟨0, by decide⟩
  obtain ⟨t, s, run, ready⟩ := events_reach step (virtioDiskInit : Sys 1 1)
    [.acquiresleep p b, .call p ⟨b, 5, false⟩, .go p, .go p, .go p, .go p, .go p, .take,
    .serve 0, .publish 0,
      .interrupt p, .intr p, .intr p, .intr p, .intr p, .go p]
    (P := fun _ s => ((step s (.go p)).any fun x => x.2.isSome) = true) (by decide +kernel)
  exact ⟨t, s, run, ⟨p, ready⟩, requests_matched run⟩

end OsProject.Xv6.VirtioDisk
