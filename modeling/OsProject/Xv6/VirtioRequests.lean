import OsProject.Xv6.VirtioDisk

/-! # Requests in flight

A request that is posted is at one place: in the available ring, with the device, in the
used ring, or over and about to give its descriptors back. -/
namespace OsProject.Xv6.VirtioDisk
open Lib List
open Function (update update_of_ne update_self forall_update_iff exists_update_iff)

variable {np : Nat} {d d' : Disk} {p q : Fin np} {r : Request} {n : Nat}

/-! ## How far a call has come -/

inductive Stage where
  | out
  | asked (a : Ask)
  | allocated (r : Request)
  | filled (r : Request)
  | posted (r : Request) (n : Nat)

def Wait.stage : Wait → Stage
  | .desc a => .asked a
  | .buf r n => .posted r n

def Point.stage : Point → Stage
  | .idle => .out
  | .acquire a | .alloc a => .asked a
  | .asleep w | .woken w => w.stage
  | .format r => .allocated r
  | .post r => .filled r
  | .test r n => .posted r n

/-- The descriptors of a call. -/
def Stage.owned : Stage → List Nat
  | .out | .asked _ => []
  | .allocated r | .filled r | .posted r _ => r.idx

def Stage.ask : Stage → Option Ask
  | .out => none
  | .asked a => some a
  | .allocated r | .filled r | .posted r _ => some r.toAsk

def Stage.buf (st : Stage) : Option Buf := st.ask.map Ask.b

/-- The call whose descriptors are formatted. -/
def Stage.written : Stage → Option Request
  | .out | .asked _ | .allocated _ => none
  | .filled r | .posted r _ => some r

structure Owners (free : Nat → Bool) (st : Fin np → Stage) : Prop where
  bound : ∀ p, ∀ i ∈ (st p).owned, i < num
  nodup : ∀ p, (st p).owned.Nodup
  single : ∀ p q i, i ∈ (st p).owned → i ∈ (st q).owned → p = q
  free : ∀ i, i < num → (free i = false ↔ ∃ p, i ∈ (st p).owned)

/-- The descriptors are no longer free. -/
def Disk.grant (d : Disk) (idx : List Nat) : Disk :=
  { d with free := fun i => d.free i && decide (i ∉ idx) }

/-- Descriptors that can be handed out. -/
structure Grants (d : Disk) (idx : List Nat) : Prop where
  nodup : idx.Nodup
  bound : ∀ i ∈ idx, i < num
  free : ∀ i ∈ idx, d.free i = true

/-- The descriptors are free again. -/
def Disk.giveBack (d : Disk) (idx : List Nat) : Disk :=
  { d with
    desc := fun i => if i ∈ idx then Desc.zero else d.desc i
    free := fun i => d.free i || decide (i ∈ idx) }

theorem Disk.giveBack_append {idx idx'} :
    (d.giveBack idx).giveBack idx' = d.giveBack (idx ++ idx') := by
  unfold giveBack
  congr 1
  · funext i
    by_cases mem : i ∈ idx'
    · rw [if_pos mem, if_pos (mem_append_right _ mem)]
    · rw [if_neg mem]
      simp only [mem_append, mem, or_false]
  · funext i
    simp only [mem_append, Bool.or_assoc, Bool.decide_or]

structure Written (d : Disk) (r : Request) : Prop where
  first : d.desc r.idx0 = ⟨.op r.idx0, 16, flagNext, UInt16.ofNat r.idx1⟩
  second : d.desc r.idx1 =
    ⟨.data r.b, 1024, (if r.write then 0 else flagWrite) ||| flagNext, UInt16.ofNat r.idx2⟩
  third : d.desc r.idx2 = ⟨.status r.idx0, 1, flagWrite, 0⟩
  op : d.ops r.idx0 = ⟨r.type, 0, r.sector⟩
  info : (d.info r.idx0).b = some r.b

/-- Only the chain's own descriptors are read. -/
theorem Written.congr (w : Written d r) (desc : ∀ i ∈ r.idx, d'.desc i = d.desc i)
    (ops : d'.ops r.idx0 = d.ops r.idx0) (info : (d'.info r.idx0).b = (d.info r.idx0).b) :
    Written d' r where
  first := (desc _ (by simp [Request.idx])).trans w.first
  second := (desc _ (by simp [Request.idx])).trans w.second
  third := (desc _ (by simp [Request.idx])).trans w.third
  op := ops.trans w.op
  info := info.trans w.info

/-- A chain by its number and its first descriptor. -/
abbrev Key := Nat × Nat

def Job.key (j : Job) : Key := (j.serial, j.id)

/-- What is in the two rings: `pend` is for the device and `done` for the driver. -/
structure Rings (d : Disk) (pend done : List Key) : Prop where
  avail : Ring.Holds num (2 ^ 16) d.avail.ring d.taken.toNat d.avail.idx.toNat
    (pend.map fun k => UInt16.ofNat k.2)
  used : Ring.Holds num (2 ^ 16) d.used.ring d.usedIdx.toNat d.used.idx.toNat
    (done.map fun k => UInt32.ofNat k.2)
  numbers : pend.map Prod.fst = List.range' d.ntaken pend.length
  posted : d.nposted = d.ntaken + pend.length

def flying (d : Disk) (pend done : List Key) : List Key := pend ++ d.jobs.map Job.key ++ done

/-- Some call waits for the chain. -/
def Flies (d : Disk) (st : Fin np → Stage) (k : Key) : Prop :=
  ∃ p r, st p = .posted r k.1 ∧ r.idx0 = k.2 ∧ d.busy r.b = true

structure Flight (d : Disk) (st : Fin np → Stage) (pend done : List Key) : Prop where
  ids : ((flying d pend done).map Prod.snd).Nodup
  mem : ∀ k, k ∈ flying d pend done ↔ Flies d st k
  filled : ∀ p r, st p = .filled r →
    d.busy r.b = true ∧ d.avail.ring (d.avail.idx.toNat % num) = UInt16.ofNat r.idx0
  serial : ∀ p q r r' n, st p = .posted r n → st q = .posted r' n → p = q
  posted : ∀ p r n, st p = .posted r n → n < d.nposted
  served : ∀ j ∈ d.jobs, ∀ t, j.served = some t →
    (d.info j.id).status = 0 ∧ ∀ p r, st p = .posted r j.serial → t = r.transfer
  done : ∀ k ∈ done, (d.info k.2).status = 0 ∧
    ∀ p r, st p = .posted r k.1 → d.completed k.1 = some r.transfer
  ended : ∀ p r n, st p = .posted r n → d.busy r.b = false → d.completed n = some r.transfer

structure Inv (d : Disk) (st : Fin np → Stage) (pend done : List Key) : Prop where
  owners : Owners d.free st
  chains : ∀ p r, (st p).written = some r → Written d r
  rings : Rings d pend done
  flight : Flight d st pend done

section facts
variable {st st' : Fin np → Stage} {pend done : List Key} {k : Key}

theorem Inv.bound (inv : Inv d st pend done) (h : k ∈ flying d pend done) : k.2 < num := by
  obtain ⟨p, r, at_p, first, _⟩ := (inv.flight.mem k).1 h
  rw [← first]
  refine inv.owners.bound p r.idx0 ?_
  rw [at_p]
  exact mem_cons_self

theorem ofNat16 {i} (h : i < num) : (UInt16.ofNat i).toNat = i := by
  exact Nat.mod_eq_of_lt (lt_trans h (by decide))

theorem ofNat32 {i} (h : i < num) : (UInt32.ofNat i).toNat = i := by
  exact Nat.mod_eq_of_lt (lt_trans h (by decide))

theorem succ16 (x : UInt16) : (x + 1).toNat = (x.toNat + 1) % 2 ^ 16 := UInt16.toNat_add x 1

theorem num_dvd : num ∣ 2 ^ 16 := by decide

/-- There is a cell in a ring for one more chain. -/
theorem Inv.room (inv : Inv d st pend done) {ks : List Key} {i}
    (sub : ∀ k ∈ ks, k ∈ flying d pend done)
    (nodup : (ks.map Prod.snd).Nodup) (bound : i < num) (new : i ∉ ks.map Prod.snd) :
    ks.length < num := by
  have all : (i :: ks.map Prod.snd).Nodup := nodup_cons.2 ⟨new, nodup⟩
  have into : i :: ks.map Prod.snd ⊆ List.range num := by
    intro j hj
    rw [mem_range]
    obtain rfl | hj := mem_cons.1 hj
    · exact bound
    · obtain ⟨k, hk, rfl⟩ := mem_map.1 hj
      exact inv.bound (sub k hk)
  have short := (subperm_of_subset all into).length_le
  rw [length_cons, length_map, length_range] at short
  exact short

theorem Owners.same {free free'} (o : Owners free st) (now : free' = free)
    (owned : ∀ q, (st' q).owned = (st q).owned) : Owners free' st' where
  bound q := owned q ▸ o.bound q
  nodup q := owned q ▸ o.nodup q
  single p q i := by
    rw [owned, owned]
    exact o.single p q i
  free i hi := by
    simp only [owned, now]
    exact o.free i hi

/-- Nothing happens to the chains in flight, and what is no longer posted is over. -/
theorem Flight.same (f : Flight d st pend done)
    (sub : ∀ q r n, st' q = .posted r n → st q = .posted r n)
    (sup : ∀ q r n, st q = .posted r n → d.busy r.b = true → st' q = .posted r n)
    (jobs : d'.jobs = d.jobs) (nposted : d'.nposted = d.nposted)
    (completed : d'.completed = d.completed)
    (busy : ∀ q r n, st q = .posted r n → d'.busy r.b = d.busy r.b)
    (status : ∀ q r n, st q = .posted r n → (d'.info r.idx0).status = (d.info r.idx0).status)
    (filled : ∀ p r, st' p = .filled r →
      d'.busy r.b = true ∧ d'.avail.ring (d'.avail.idx.toNat % num) = UInt16.ofNat r.idx0) :
    Flight d' st' pend done := by
  have same : flying d' pend done = flying d pend done := by rw [flying, flying, jobs]
  have flies : ∀ k, Flies d' st' k ↔ Flies d st k := by
    intro k
    constructor
    · rintro ⟨q, r, at_q, first, flag⟩
      have was := sub q r k.1 at_q
      exact ⟨q, r, was, first, busy q r k.1 was ▸ flag⟩
    · rintro ⟨q, r, at_q, first, flag⟩
      exact ⟨q, r, sup q r k.1 at_q flag, first, (busy q r k.1 at_q).trans flag⟩
  have zero : ∀ k ∈ flying d pend done, (d'.info k.2).status = (d.info k.2).status := by
    intro k hk
    obtain ⟨q, r, at_q, first, _⟩ := (f.mem k).1 hk
    exact first ▸ status q r k.1 at_q
  refine ⟨same ▸ f.ids, ?_, filled, ?_, ?_, ?_, ?_, ?_⟩
  · intro k
    rw [same, flies k]
    exact f.mem k
  · exact fun p q r r' n hp hq => f.serial p q r r' n (sub p r n hp) (sub q r' n hq)
  · intro p r n h
    rw [nposted]
    exact f.posted p r n (sub p r n h)
  · rw [jobs]
    intro j hj t ht
    obtain ⟨stat, own⟩ := f.served j hj t ht
    refine ⟨(zero j.key ?_).trans stat, fun p r h => own p r (sub p r _ h)⟩
    simp only [flying, mem_append, mem_map]
    exact .inl (.inr ⟨j, hj, rfl⟩)
  · intro k hk
    obtain ⟨stat, own⟩ := f.done k hk
    refine ⟨(zero k (mem_append_right _ hk)).trans stat, fun p r h => ?_⟩
    rw [completed]
    exact own p r (sub p r _ h)
  · intro p r n h flag
    rw [completed]
    have was := sub p r n h
    exact f.ended p r n was ((busy p r n was).symm.trans flag)

end facts

/-! ## The driver's part -/

section driver
variable {st : Fin np → Stage} {pend done : List Key} {a : Ask}

theorem update_at (st : Fin np → Stage) (p : Fin np) (x : Stage) (q : Fin np) :
    q = p ∧ x = update st p x q ∨ q ≠ p ∧ st q = update st p x q := by
  by_cases eq : q = p
  · subst eq
    rw [update_self]
    exact .inl ⟨rfl, rfl⟩
  · rw [update_of_ne eq]
    exact .inr ⟨eq, rfl⟩

theorem update_stage {x y} (h : update st p x q = y) : q = p ∧ x = y ∨ q ≠ p ∧ st q = y :=
  h ▸ update_at st p x q

theorem written_owned {x : Stage} (h : x.written = some r) : x.owned = r.idx := by
  cases x with
  | out | asked | allocated => cases h
  | filled | posted => exact congrArg Request.idx (Option.some.inj h)

theorem update_owned {x} (same : x.owned = (st p).owned) (q : Fin np) :
    (update st p x q).owned = (st q).owned := by
  by_cases eq : q = p
  · subst eq
    rw [update_self, same]
  · rw [update_of_ne eq]

/-- A call that has not posted its chain goes on, and leaves the other chains alone. -/
theorem Inv.stays (inv : Inv d st pend done) {x} (old : ∀ r n, st p ≠ .posted r n)
    (new : ∀ r n, x ≠ .posted r n) (owners : Owners d'.free (update st p x))
    (chains : ∀ q r, q ≠ p → (st q).written = some r → Written d r → Written d' r)
    (own : ∀ r, x.written = some r → Written d' r) (rings : Rings d' pend done)
    (jobs : d'.jobs = d.jobs)
    (nposted : d'.nposted = d.nposted) (completed : d'.completed = d.completed)
    (busy : ∀ q r n, st q = .posted r n → d'.busy r.b = d.busy r.b)
    (status : ∀ q r n, st q = .posted r n → (d'.info r.idx0).status = (d.info r.idx0).status)
    (filled : ∀ q r, update st p x q = .filled r →
      d'.busy r.b = true ∧ d'.avail.ring (d'.avail.idx.toNat % num) = UInt16.ofNat r.idx0) :
    Inv d' (update st p x) pend done where
  owners := owners
  chains := by
    intro q r h
    by_cases eq : q = p
    · subst eq
      rw [update_self] at h
      exact own r h
    · rw [update_of_ne eq] at h
      exact chains q r eq h (inv.chains q r h)
  rings := rings
  flight := by
    refine inv.flight.same ?_ ?_ jobs nposted completed busy status filled
    · intro q r n h
      obtain ⟨_, h⟩ | ⟨_, h⟩ := update_stage h
      · exact absurd h (new r n)
      · exact h
    · intro q r n h _
      by_cases eq : q = p
      · subst eq
        exact absurd h (old r n)
      · rw [update_of_ne eq]
        exact h

theorem Owners.grant {free free'} (o : Owners free st) {x} (nothing : (st p).owned = [])
    (bound : ∀ i ∈ x.owned, i < num) (nodup : x.owned.Nodup) (were : ∀ i ∈ x.owned, free i = true)
    (now : ∀ i, free' i = (free i && decide (i ∉ x.owned))) : Owners free' (update st p x) := by
  have fresh : ∀ q, ∀ i ∈ x.owned, i ∉ (st q).owned := by
    intro q i hi own
    have taken := (o.free i (bound i hi)).2 ⟨q, own⟩
    rw [were i hi] at taken
    cases taken
  refine ⟨?_, ?_, ?_, ?_⟩
  · exact (forall_update_iff st fun _ y => ∀ i ∈ y.owned, i < num).2 ⟨bound, fun q _ => o.bound q⟩
  · exact (forall_update_iff st fun _ y => y.owned.Nodup).2 ⟨nodup, fun q _ => o.nodup q⟩
  · intro q q' i hq hq'
    obtain ⟨same, eq⟩ | ⟨_, eq⟩ := update_at st p x q <;> obtain ⟨same', eq'⟩ | ⟨_, eq'⟩ :=
      update_at st p x q' <;> rw [← eq] at hq <;> rw [← eq'] at hq'
    · exact same.trans same'.symm
    · exact absurd hq' (fresh q' i hq)
    · exact absurd hq (fresh q i hq')
    · exact o.single q q' i hq hq'
  · intro i hi
    rw [now i, Bool.and_eq_false_iff, o.free i hi, decide_eq_false_iff_not, not_not,
      exists_update_iff st fun _ y => i ∈ y.owned, or_comm]
    refine or_congr_right ⟨fun ⟨q, own⟩ => ⟨q, ?_, own⟩, fun ⟨q, _, own⟩ => ⟨q, own⟩⟩
    rintro rfl
    rw [nothing] at own
    cases own

theorem Owners.revoke {free free'} (o : Owners free st) {x} (nothing : x.owned = [])
    (now : ∀ i, free' i = (free i || decide (i ∈ (st p).owned))) :
    Owners free' (update st p x) := by
  have was : ∀ q, ∀ i ∈ (update st p x q).owned, q ≠ p ∧ i ∈ (st q).owned := by
    intro q i hi
    obtain ⟨_, eq⟩ | ⟨ne, eq⟩ := update_at st p x q
    · rw [← eq, nothing] at hi
      cases hi
    · exact ⟨ne, eq ▸ hi⟩
  refine ⟨fun q i hi => o.bound q i (was q i hi).2, ?_,
    fun q q' i hq hq' => o.single q q' i (was q i hq).2 (was q' i hq').2, ?_⟩
  · refine (forall_update_iff st fun _ y => y.owned.Nodup).2 ⟨?_, fun q _ => o.nodup q⟩
    rw [nothing]
    exact nodup_nil
  · intro i hi
    rw [now i, Bool.or_eq_false_iff, o.free i hi, decide_eq_false_iff_not]
    constructor
    · rintro ⟨⟨q, hq⟩, not_mine⟩
      have ne : q ≠ p := by
        rintro rfl
        exact not_mine hq
      refine ⟨q, ?_⟩
      rwa [update_of_ne ne]
    · rintro ⟨q, hq⟩
      obtain ⟨ne, own⟩ := was q i hq
      exact ⟨⟨q, own⟩, fun mine => ne (o.single q p i own mine)⟩

/-- `alloc3_desc` has found three descriptors. -/
theorem Inv.allocated (inv : Inv d st pend done) (asked : st p = .asked a) (g : Grants d r.idx)
    (eq : d' = d.grant r.idx) : Inv d' (update st p (.allocated r)) pend done := by
  subst eq
  refine inv.stays (by simp [asked]) (by simp) ?_
    (fun _ _ _ _ w => w.congr (fun _ _ => rfl) rfl rfl) (fun r h => by cases h) ⟨inv.rings.avail,
    inv.rings.used, inv.rings.numbers, inv.rings.posted⟩ rfl rfl rfl (fun _ _ _ _ => rfl)
    (fun _ _ _ _ => rfl) ?_
  · exact inv.owners.grant (by rw [asked]; rfl) g.bound g.nodup g.free fun _ => rfl
  · intro q r' h
    obtain ⟨_, h⟩ | ⟨_, h⟩ := update_stage h
    · cases h
    · exact inv.flight.filled q r' h

/-- `alloc3_desc` has not found enough and given back what it had. -/
theorem Inv.rolledBack (inv : Inv d st pend done) {idx : List Nat} (g : Grants d idx)
    (eq : d' = (d.grant idx).giveBack idx) : Inv d' st pend done := by
  have free : d'.free = d.free := by
    rw [eq]
    funext i
    show (d.free i && decide (i ∉ idx) || decide (i ∈ idx)) = d.free i
    by_cases mem : i ∈ idx
    · simp [mem, g.free i mem]
    · simp [mem]
  subst eq
  refine ⟨inv.owners.same free fun _ => rfl,
    fun p r h => (inv.chains p r h).congr (fun i own => ?_) rfl rfl,
    ⟨inv.rings.avail, inv.rings.used, inv.rings.numbers, inv.rings.posted⟩,
    inv.flight.same (fun _ _ _ h => h) (fun _ _ _ h _ => h) rfl rfl rfl (fun _ _ _ _ => rfl)
    (fun _ _ _ _ => rfl)
      inv.flight.filled⟩
  refine if_neg fun mem => ?_
  have taken := (inv.owners.free i (g.bound i mem)).2 ⟨p, written_owned h ▸ own⟩
  rw [g.free i mem] at taken
  cases taken

/-- Descriptors of a call that has not posted them are in no ring. -/
theorem Inv.grounded (inv : Inv d st pend done) {i} (own : i ∈ (st p).owned)
    (old : ∀ r n, st p ≠ .posted r n) : i ∉ (flying d pend done).map Prod.snd := by
  intro h
  obtain ⟨k, hk, rfl⟩ := mem_map.1 h
  obtain ⟨q, r, at_q, first, _⟩ := (inv.flight.mem k).1 hk
  have other : k.2 ∈ (st q).owned := by
    rw [at_q, ← first]
    exact mem_cons_self
  obtain rfl := inv.owners.single p q k.2 own other
  exact old r k.1 at_q

theorem mem_pend {k} (h : k ∈ pend) : k ∈ flying d pend done :=
  mem_append_left _ (mem_append_left _ h)

theorem Inv.pend_room (inv : Inv d st pend done) {i} (own : i ∈ (st p).owned)
    (old : ∀ r n, st p ≠ .posted r n) : pend.length < num := by
  have sub : (pend.map Prod.snd).Sublist ((flying d pend done).map Prod.snd) := by
    refine List.Sublist.map _ ?_
    exact (sublist_append_left _ _).trans (sublist_append_left _ _)
  refine inv.room (fun k => mem_pend) (inv.flight.ids.sublist sub) (inv.owners.bound p i own) ?_
  exact fun h => inv.grounded own old (sub.subset h)

/-- The formatting of one call's descriptors is not seen in another's. -/
theorem Written.keep {r'} (w : Written d r') (off : ∀ i ∈ r'.idx, i ∉ r.idx) :
    Written (format d r) r' := by
  have first : r'.idx0 ≠ r.idx0 := by
    intro eq
    exact off r'.idx0 mem_cons_self (eq ▸ mem_cons_self)
  refine w.congr (fun i hi => ?_) (update_of_ne first ..) (congrArg Info.b (update_of_ne first ..))
  have ne := off i hi
  simp only [Request.idx, mem_cons, not_mem_nil, or_false, not_or] at ne
  show update (update (update d.desc r.idx0 _) r.idx1 _) r.idx2 _ i = _
  rw [update_of_ne ne.2.2, update_of_ne ne.2.1, update_of_ne ne.1]

theorem format_written (nodup : r.idx.Nodup) : Written (format d r) r := by
  simp only [Request.idx, nodup_cons, mem_cons, not_mem_nil, or_false, not_or,
    nodup_nil, and_true, not_false_eq_true] at nodup
  obtain ⟨⟨ne01, ne02⟩, ne12⟩ := nodup
  refine ⟨?_, ?_, ?_, update_self .., ?_⟩
  · show update (update (update d.desc r.idx0 _) r.idx1 _) r.idx2 _ r.idx0 = _
    rw [update_of_ne ne02, update_of_ne ne01, update_self]
  · show update (update (update d.desc r.idx0 _) r.idx1 _) r.idx2 _ r.idx1 = _
    rw [update_of_ne ne12, update_self]
  · exact update_self ..
  · show (update d.info r.idx0 _ r.idx0).b = _
    rw [update_self]

theorem Inv.apart (inv : Inv d st pend done) {r' : Request} (ne : q ≠ p)
    (own : (st p).owned = r.idx) (other : (st q).written = some r') : ∀ i ∈ r'.idx, i ∉ r.idx := by
  intro i hi mine
  have hq : i ∈ (st q).owned := by
    rw [written_owned other]
    exact hi
  exact ne (inv.owners.single q p i hq (own ▸ mine))

/-- The descriptors are written, and the chain's entry in the available ring. -/
theorem Inv.formatted (inv : Inv d st pend done) (at_p : st p = .allocated r)
    (alone : ∀ q, q ≠ p → (st q).buf ≠ some r.b) (only : ∀ q r', st q ≠ .filled r')
    (eq : d' = format d r) : Inv d' (update st p (.filled r)) pend done := by
  have old : ∀ r n, st p ≠ .posted r n := by simp [at_p]
  have own : (st p).owned = r.idx := by rw [at_p]; rfl
  have mine : r.idx0 ∈ (st p).owned := by
    rw [own]
    exact mem_cons_self
  have room := inv.pend_room mine old
  have off : ∀ q r' n, st q = .posted r' n → q ≠ p := by
    rintro q r' n h rfl
    exact old r' n h
  subst eq
  refine inv.stays old (by simp) (inv.owners.same rfl (update_owned own.symm))
    (fun q r' ne other w => w.keep (inv.apart ne own other)) ?_
    ⟨?_, inv.rings.used, inv.rings.numbers, inv.rings.posted⟩ rfl rfl rfl ?_ ?_ ?_
  · rintro r' ⟨⟩
    exact format_written (own ▸ inv.owners.nodup p)
  · exact inv.rings.avail.write num_dvd (by rwa [length_map])
  · intro q r' n h
    refine update_of_ne (fun same => alone q (off q r' n h) ?_) ..
    rw [h, ← same]
    rfl
  · intro q r' n h
    have far := inv.apart (off q r' n h) own (by rw [h]; rfl) r'.idx0 mem_cons_self
    refine congrArg Info.status (update_of_ne ?_ ..)
    exact fun same => far (same ▸ mem_cons_self)
  · intro q r' h
    obtain ⟨_, h⟩ | ⟨_, h⟩ := update_stage h
    · obtain rfl := Stage.filled.inj h
      exact ⟨update_self .., update_self ..⟩
    · exact absurd h (only q r')

/-- The chain is the device's from here. -/
theorem Inv.posts (inv : Inv d st pend done) (at_p : st p = .filled r)
    (only : ∀ q r', st q = .filled r' → q = p) (eq : d' = post d) :
    Inv d' (update st p (.posted r d.nposted)) (pend ++ [(d.nposted, r.idx0)]) done := by
  have old : ∀ r n, st p ≠ .posted r n := by simp [at_p]
  have mine : r.idx0 ∈ (st p).owned := by
    rw [at_p]
    exact mem_cons_self
  have new := inv.grounded mine old
  subst eq
  obtain ⟨busy, cell⟩ := inv.flight.filled p r at_p
  have perm : (flying (post d) (pend ++ [(d.nposted, r.idx0)]) done).Perm
      ((d.nposted, r.idx0) :: flying d pend done) := by
    unfold flying
    rw [append_assoc, append_assoc, append_assoc]
    exact perm_middle
  have flies : ∀ k, Flies (post d) (update st p (.posted r d.nposted)) k ↔
      k = (d.nposted, r.idx0) ∨ Flies d st k := by
    intro k
    constructor
    · rintro ⟨q, r', at_q, first, flag⟩
      obtain ⟨_, h⟩ | ⟨_, h⟩ := update_stage at_q
      · obtain ⟨rfl, n⟩ := Stage.posted.inj h
        exact .inl (Prod.ext n.symm first.symm)
      · exact .inr ⟨q, r', h, first, flag⟩
    · rintro (rfl | ⟨q, r', h, first, flag⟩)
      · exact ⟨p, r, update_self .., rfl, busy⟩
      · have ne : q ≠ p := by
          rintro rfl
          exact old r' k.1 h
        exact ⟨q, r', by rwa [update_of_ne ne], first, flag⟩
  have fresh : ∀ k ∈ flying d pend done, k.1 ≠ d.nposted := by
    intro k hk
    obtain ⟨q, r', h, _⟩ := (inv.flight.mem k).1 hk
    exact ne_of_lt (inv.flight.posted q r' k.1 h)
  refine ⟨?_, ?_, ?_, ?_, ?_, ?_, ?_, ?_, ?_, ?_, ?_⟩
  · exact inv.owners.same rfl (update_owned (by rw [at_p]; rfl))
  · intro q r' h
    have same : (st q).written = some r' := by
      by_cases ne : q = p
      · subst ne
        rw [update_self] at h
        rw [at_p]
        exact h
      · rwa [update_of_ne ne] at h
    exact (inv.chains q r' same).congr (fun _ _ => rfl) rfl rfl
  · refine ⟨?_, inv.rings.used, ?_, ?_⟩
    · show Ring.Holds num (2 ^ 16) d.avail.ring d.taken.toNat (d.avail.idx + 1).toNat _
      rw [map_append, succ16]
      exact inv.rings.avail.advance num_dvd (by rw [length_map]; exact inv.pend_room mine old) cell
    · rw [map_append, inv.rings.numbers, length_append, length_singleton, range'_concat]
      rw [inv.rings.posted, one_mul]
      rfl
    · rw [length_append, length_singleton]
      show d.nposted + 1 = d.ntaken + (pend.length + 1)
      rw [inv.rings.posted]
      omega
  · rw [(perm.map Prod.snd).nodup_iff]
    exact nodup_cons.2 ⟨new, inv.flight.ids⟩
  · intro k
    rw [perm.mem_iff, mem_cons, flies k, inv.flight.mem k]
  · intro q r' h
    obtain ⟨_, h⟩ | ⟨ne, h⟩ := update_stage h
    · cases h
    · exact absurd (only q r' h) ne
  · intro q q' r1 r2 n h h'
    obtain ⟨rfl, e⟩ | ⟨ne, e⟩ := update_stage h
    · obtain ⟨rfl, e'⟩ | ⟨ne', e'⟩ := update_stage h'
      · rfl
      · obtain ⟨_, rfl⟩ := Stage.posted.inj e
        exact absurd (inv.flight.posted q' r2 _ e') (lt_irrefl _)
    · obtain ⟨rfl, e'⟩ | ⟨ne', e'⟩ := update_stage h'
      · obtain ⟨_, rfl⟩ := Stage.posted.inj e'
        exact absurd (inv.flight.posted q r1 _ e) (lt_irrefl _)
      · exact inv.flight.serial q q' r1 r2 n e e'
  · intro q r' n h
    show n < d.nposted + 1
    obtain ⟨_, e⟩ | ⟨_, e⟩ := update_stage h
    · obtain ⟨_, rfl⟩ := Stage.posted.inj e
      omega
    · have := inv.flight.posted q r' n e
      omega
  · intro j hj t ht
    obtain ⟨stat, own⟩ := inv.flight.served j hj t ht
    refine ⟨stat, fun q r' h => ?_⟩
    obtain ⟨_, e⟩ | ⟨_, e⟩ := update_stage h
    · have mem : j.key ∈ flying d pend done :=
        mem_append_left _ (mem_append_right _ (mem_map_of_mem hj))
      exact absurd (Stage.posted.inj e).2.symm (fresh j.key mem)
    · exact own q r' e
  · intro k hk
    obtain ⟨stat, own⟩ := inv.flight.done k hk
    refine ⟨stat, fun q r' h => ?_⟩
    obtain ⟨_, e⟩ | ⟨_, e⟩ := update_stage h
    · exact absurd (Stage.posted.inj e).2.symm (fresh k (mem_append_right _ hk))
    · exact own q r' e
  · intro q r' n h flag
    obtain ⟨_, e⟩ | ⟨_, e⟩ := update_stage h
    · obtain ⟨rfl, _⟩ := Stage.posted.inj e
      cases busy.symm.trans flag
    · exact inv.flight.ended q r' n e flag

/-- The call gives its descriptors back. -/
theorem Inv.finished (inv : Inv d st pend done) (at_p : st p = .posted r n)
    (ended : d.busy r.b = false)
    (eq : d' = { d with info := update d.info r.idx0 { d.info r.idx0 with b := none } }.giveBack
      r.idx) :
    Inv d' (update st p .out) pend done := by
  have own : (st p).owned = r.idx := by rw [at_p]; rfl
  have status : ∀ i, (d'.info i).status = (d.info i).status := by
    intro i
    rw [eq]
    show (update d.info r.idx0 _ i).status = _
    by_cases same : i = r.idx0
    · rw [same, update_self]
    · rw [update_of_ne same]
  subst eq
  refine ⟨inv.owners.revoke rfl fun i => ?_, fun q r' h => ?_,
    ⟨inv.rings.avail, inv.rings.used, inv.rings.numbers, inv.rings.posted⟩, ?_⟩
  · rw [own]
    rfl
  · by_cases ne : q = p
    · subst ne
      rw [update_self] at h
      cases h
    · rw [update_of_ne ne] at h
      have far := inv.apart ne own h
      refine (inv.chains q r' h).congr (fun i hi => if_neg (far i hi)) rfl
        (congrArg Info.b (update_of_ne ?_ ..))
      exact fun same => far r'.idx0 mem_cons_self (same ▸ mem_cons_self)
  · refine inv.flight.same ?_ ?_ rfl rfl rfl (fun _ _ _ _ => rfl) (fun _ _ _ _ => status _) ?_
    · intro q r' n' h
      obtain ⟨_, h⟩ | ⟨_, h⟩ := update_stage h
      · cases h
      · exact h
    · intro q r' n' h flag
      have ne : q ≠ p := by
        rintro rfl
        obtain ⟨rfl, _⟩ := Stage.posted.inj (at_p.symm.trans h)
        rw [ended] at flag
        cases flag
      rwa [update_of_ne ne]
    · intro q r' h
      obtain ⟨_, h⟩ | ⟨_, h⟩ := update_stage h
      · cases h
      · exact inv.flight.filled q r' h

/-- The interrupt handler takes the next chain from the used ring. -/
theorem Inv.handled {k} (inv : Inv d st pend (k :: done)) (at_p : st p = .posted r k.1)
    (first : r.idx0 = k.2) (alone : ∀ q, q ≠ p → (st q).buf ≠ some r.b)
    (eq : d' = { d with busy := update d.busy r.b false, usedIdx := d.usedIdx + 1 }) :
    Inv d' st pend done := by
  have other : ∀ (q : Fin np) (r' : Request), q ≠ p → (st q).buf = some r'.b →
      d'.busy r'.b = d.busy r'.b := by
    intro q r' ne h
    have off : r'.b ≠ r.b := by
      intro same
      exact alone q ne (h.trans (congrArg some same))
    rw [eq]
    exact update_of_ne off ..
  have mine : d'.busy r.b = false := by
    rw [eq]
    exact update_self ..
  have perm : (flying d pend (k :: done)).Perm (k :: flying d' pend done) := by
    rw [eq]
    exact perm_middle
  subst eq
  have ids := inv.flight.ids
  rw [(perm.map Prod.snd).nodup_iff, map_cons, nodup_cons] at ids
  refine ⟨inv.owners.same rfl fun _ => rfl,
    fun q r' h => (inv.chains q r' h).congr (fun _ _ => rfl) rfl rfl,
    ⟨inv.rings.avail, ?_, inv.rings.numbers, inv.rings.posted⟩, ids.2, ?_, ?_, inv.flight.serial,
    inv.flight.posted, inv.flight.served, fun k' h => inv.flight.done k' (mem_cons_of_mem _ h), ?_⟩
  · exact inv.rings.used.take num_dvd
  · intro k'
    have was := inv.flight.mem k'
    rw [perm.mem_iff, mem_cons] at was
    constructor
    · intro h
      obtain ⟨q, r', at_q, first', flag⟩ := was.1 (.inr h)
      have ne : q ≠ p := by
        rintro rfl
        obtain ⟨rfl, same⟩ := Stage.posted.inj (at_p.symm.trans at_q)
        exact ids.1 (mem_map.2 ⟨k', h, first'.symm.trans first⟩)
      exact ⟨q, r', at_q, first', (other q r' ne (by rw [at_q]; rfl)).trans flag⟩
    · rintro ⟨q, r', at_q, first', flag⟩
      have ne : q ≠ p := by
        rintro rfl
        obtain ⟨rfl, _⟩ := Stage.posted.inj (at_p.symm.trans at_q)
        rw [mine] at flag
        cases flag
      have flag' := (other q r' ne (by rw [at_q]; rfl)).symm.trans flag
      obtain rfl | h := was.2 ⟨q, r', at_q, first', flag'⟩
      · exact absurd (inv.flight.serial q p r' r k'.1 at_q at_p) ne
      · exact h
  · intro q r' h
    have ne : q ≠ p := by
      rintro rfl
      rw [at_p] at h
      cases h
    rw [other q r' ne (by rw [h]; rfl)]
    exact inv.flight.filled q r' h
  · intro q r' n h flag
    by_cases ne : q = p
    · subst ne
      obtain ⟨rfl, rfl⟩ := Stage.posted.inj (at_p.symm.trans h)
      exact (inv.flight.done k mem_cons_self).2 q r h
    · exact inv.flight.ended q r' n h ((other q r' ne (by rw [h]; rfl)).symm.trans flag)

end driver

/-! ## The device's part -/

section device
variable {st : Fin np → Stage} {pend done pend' done' : List Key}

/-- The device moves chains, and touches nothing but jobs, rings and status. -/
theorem Inv.device (inv : Inv d st pend done) (desc : d'.desc = d.desc) (ops : d'.ops = d.ops)
    (free : d'.free = d.free) (busy : d'.busy = d.busy) (avail : d'.avail = d.avail)
    (nposted : d'.nposted = d.nposted) (info : ∀ i, (d'.info i).b = (d.info i).b)
    (status : ∀ i, (d.info i).status = 0 → (d'.info i).status = 0)
    (perm : (flying d' pend' done').Perm (flying d pend done)) (rings : Rings d' pend' done')
    (served : ∀ j ∈ d'.jobs, ∀ t, j.served = some t →
      (d'.info j.id).status = 0 ∧ ∀ p r, st p = .posted r j.serial → t = r.transfer)
    (arrived : ∀ k ∈ done', k ∈ done ∨ (d'.info k.2).status = 0 ∧
      ∀ p r, st p = .posted r k.1 → d'.completed k.1 = some r.transfer)
    (completed : ∀ p r n, st p = .posted r n → d.completed n = some r.transfer →
      d'.completed n = some r.transfer) : Inv d' st pend' done' where
  owners := inv.owners.same free fun _ => rfl
  chains p r h := by
    have w := inv.chains p r h
    exact ⟨desc ▸ w.first, desc ▸ w.second, desc ▸ w.third, ops ▸ w.op, (info _).trans w.info⟩
  rings := rings
  flight := by
    refine ⟨?_, ?_, ?_, inv.flight.serial, ?_, served, ?_, ?_⟩
    · rw [(perm.map Prod.snd).nodup_iff]
      exact inv.flight.ids
    · intro k
      rw [perm.mem_iff, inv.flight.mem k, Flies, Flies, busy]
    · rw [busy, avail]
      exact inv.flight.filled
    · rw [nposted]
      exact inv.flight.posted
    · intro k hk
      obtain h | h := arrived k hk
      · obtain ⟨stat, own⟩ := inv.flight.done k h
        exact ⟨status _ stat, fun p r at_p => completed p r k.1 at_p (own p r at_p)⟩
      · exact h
    · rw [busy]
      exact fun p r n h flag => completed p r n h (inv.flight.ended p r n h flag)

/-- Some chain is there to be handled. -/
theorem Inv.used_ne (inv : Inv d st pend done) : d.usedIdx ≠ d.used.idx ↔ done ≠ [] := by
  have empty := inv.rings.used.empty_iff (by decide)
  rw [map_eq_nil_iff, UInt16.toNat_inj] at empty
  exact not_congr empty

/-- The next chain of the available ring, while there is one. -/
theorem Inv.takes (inv : Inv d st pend done) (h : take d = some d') :
    (d'.usedIdx = d.usedIdx ∧ d'.used = d.used) ∧ ∃ pend', Inv d' st pend' done := by
  obtain ⟨more, h⟩ := Option.ite_none_left_eq_some.1 h
  have eq := (Option.some.inj h).symm
  have some_pend : pend ≠ [] := by
    intro nil
    have empty := inv.rings.avail.empty_iff (by decide)
    exact more (UInt16.toNat_inj.1 (empty.2 (by rw [nil]; rfl)))
  obtain ⟨k, pend', rfl⟩ := exists_cons_of_ne_nil some_pend
  have number : k.1 = d.ntaken := (List.cons.inj inv.rings.numbers).1
  have bound : k.2 < num := inv.bound (mem_append_left _ (mem_append_left _ mem_cons_self))
  have cell : (d.avail.ring (d.taken.toNat % num)).toNat = k.2 := by
    rw [inv.rings.avail.head]
    exact ofNat16 bound
  have jobs : d'.jobs = d.jobs ++ [⟨k.1, k.2, none⟩] := by
    rw [eq, number]
    rw [cell]
  have split : flying d' pend' done = pend' ++ d.jobs.map Job.key ++ k :: done := by
    simp [flying, jobs, Job.key]
  subst eq
  refine ⟨⟨rfl, rfl⟩, pend', inv.device rfl rfl rfl rfl rfl rfl (fun _ => rfl) (fun _ h => h)
    ?_ ?_ ?_ (fun _ h => .inl h) fun _ _ _ _ h => h⟩
  · rw [split]
    exact perm_middle
  · refine ⟨?_, inv.rings.used, ?_, ?_⟩
    · exact inv.rings.avail.take num_dvd
    · exact (List.cons.inj inv.rings.numbers).2
    · show d.nposted = d.ntaken + 1 + pend'.length
      rw [inv.rings.posted, length_cons]
      omega
  · intro j hj t ht
    obtain hj | hj := mem_append.1 hj
    · exact inv.flight.served j hj t ht
    · obtain rfl := mem_singleton.1 hj
      cases ht

/-- What the device finds in a chain is the request of the call that waits for it. -/
theorem Written.readChain (w : Written d r) (bound : ∀ i ∈ r.idx, i < num) :
    readChain d r.idx0 = some (r.transfer, r.idx0) := by
  have second : (UInt16.ofNat r.idx1).toNat = r.idx1 := ofNat16 (bound _ (by simp [Request.idx]))
  have third : (UInt16.ofNat r.idx2).toNat = r.idx2 := ofNat16 (bound _ (by simp [Request.idx]))
  have flags : ((if r.write then 0 else flagWrite) ||| flagNext) &&& flagNext ≠ 0 := by
    cases r.write with
    | true => decide
    | false => decide
  unfold VirtioDisk.readChain
  simp only [w.first, second, w.second, third, w.third]
  rw [if_pos ⟨by decide, flags, by decide⟩, w.op]
  rfl

theorem Inv.job (inv : Inv d st pend done) {j} (h : j ∈ d.jobs) :
    ∃ p r, st p = .posted r j.serial ∧ r.idx0 = j.id ∧ d.busy r.b = true :=
  (inv.flight.mem j.key).1 (mem_append_left _ (mem_append_right _ (mem_map_of_mem h)))

theorem Inv.reads (inv : Inv d st pend done) {j} (h : j ∈ d.jobs) :
    ∃ p r, st p = .posted r j.serial ∧ r.idx0 = j.id ∧
      readChain d j.id = some (r.transfer, j.id) := by
  obtain ⟨p, r, at_p, first, _⟩ := inv.job h
  have w := inv.chains p r (by rw [at_p]; rfl)
  have bound := inv.owners.bound p
  rw [at_p] at bound
  exact ⟨p, r, at_p, first, first ▸ w.readChain bound⟩

theorem Inv.serves (inv : Inv d st pend done) {k} (h : serve d k = some d') :
    (d'.usedIdx = d.usedIdx ∧ d'.used = d.used) ∧ Inv d' st pend done := by
  unfold serve at h
  split at h
  · cases h
  · rename_i j found
    obtain ⟨_, h⟩ := Option.ite_none_right_eq_some.1 h
    have mem := mem_of_getElem? found
    obtain ⟨p, r, at_p, _, chain⟩ := inv.reads mem
    rw [chain] at h
    have eq := (Option.some.inj h).symm
    have info : ∀ i, (d'.info i).b = (d.info i).b ∧
        ((d.info i).status = 0 → (d'.info i).status = 0) := by
      intro i
      rw [eq]
      show (update d.info j.id _ i).b = _ ∧ (_ → (update d.info j.id _ i).status = 0)
      by_cases same : i = j.id
      · rw [same, update_self]
        exact ⟨rfl, fun _ => rfl⟩
      · rw [update_of_ne same]
        exact ⟨rfl, id⟩
    have now : (d'.info j.id).status = 0 := by
      rw [eq]
      show (update d.info j.id _ j.id).status = 0
      rw [update_self]
    have keys : d'.jobs.map Job.key = d.jobs.map Job.key := by
      obtain ⟨short, rfl⟩ := List.getElem?_eq_some_iff.1 found
      rw [eq, map_set]
      show (d.jobs.map Job.key).set k d.jobs[k].key = _
      rw [← getElem_map Job.key (h := by rwa [length_map])]
      exact set_getElem_self ..
    subst eq
    refine ⟨⟨rfl, rfl⟩, inv.device rfl rfl rfl rfl rfl rfl (fun i => (info i).1)
      (fun i => (info i).2) ?_ ⟨inv.rings.avail, inv.rings.used, inv.rings.numbers,
        inv.rings.posted⟩ ?_ (fun _ h => .inl h) fun _ _ _ _ h => h⟩
    · rw [flying, flying, keys]
    · intro j' hj' t ht
      obtain hj' | rfl := mem_or_eq_of_mem_set hj'
      · obtain ⟨stat, own⟩ := inv.flight.served j' hj' t ht
        exact ⟨(info _).2 stat, own⟩
      · refine ⟨now, fun q r' at_q => ?_⟩
        obtain rfl := inv.flight.serial q p r' r j.serial at_q at_p
        obtain ⟨rfl, _⟩ := Stage.posted.inj (at_p.symm.trans at_q)
        exact (Option.some.inj ht).symm

theorem Inv.publishes (inv : Inv d st pend done) {k} (h : publish d k = some d') :
    ∃ done', done' ≠ [] ∧ Inv d' st pend done' := by
  unfold publish at h
  split at h
  · cases h
  · rename_i j found
    obtain ⟨t, served, eq⟩ := Option.map_eq_some_iff.1 h
    have eq := eq.symm
    have mem := mem_of_getElem? found
    obtain ⟨stat, own⟩ := inv.flight.served j mem t served
    have perm : (flying d' pend (done ++ [j.key])).Perm (flying d pend done) := by
      have all : (j :: d.jobs.eraseIdx k).Perm d.jobs := by
        obtain ⟨short, rfl⟩ := List.getElem?_eq_some_iff.1 found
        exact getElem_cons_eraseIdx_perm short
      have moved : (d'.jobs.map Job.key ++ (done ++ [j.key])).Perm
          (d.jobs.map Job.key ++ done) := by
        rw [eq]
        refine List.Perm.trans ?_ ((all.map Job.key).append_right done)
        rw [← append_assoc]
        exact perm_append_singleton ..
      unfold flying
      rw [append_assoc, append_assoc]
      exact moved.append_left pend
    have completed : ∀ p r n, st p = .posted r n → d'.completed n = d.completed n ∨
        d'.completed n = some r.transfer := by
      intro p r n at_p
      rw [eq]
      show update d.completed j.serial _ n = _ ∨ update d.completed j.serial _ n = _
      by_cases same : n = j.serial
      · rw [same, update_self]
        exact .inr (congrArg some (own p r (same ▸ at_p)))
      · rw [update_of_ne same]
        exact .inl rfl
    subst eq
    refine ⟨done ++ [j.key], by simp,
      inv.device rfl rfl rfl rfl rfl rfl (fun _ => rfl) (fun _ h => h) perm ?_
      (fun j' hj' => inv.flight.served j' (mem_of_mem_eraseIdx hj')) ?_ ?_⟩
    · have room : done.length < num := by
        refine inv.room (fun k hk => mem_append_right _ hk) ?_ (inv.bound (k := j.key) ?_) ?_
        · refine inv.flight.ids.sublist (List.Sublist.map _ ?_)
          exact sublist_append_right ..
        · exact mem_append_left _ (mem_append_right _ (mem_map_of_mem mem))
        · have ids := inv.flight.ids
          unfold flying at ids
          rw [map_append, nodup_append] at ids
          intro h
          refine ids.2.2 j.key.2 ?_ j.key.2 h rfl
          exact mem_map_of_mem (mem_append_right _ (mem_map_of_mem mem))
      refine ⟨inv.rings.avail, ?_, inv.rings.numbers, inv.rings.posted⟩
      rw [map_append, succ16]
      exact inv.rings.used.put num_dvd (by rwa [length_map])
    · intro k hk
      obtain hk | hk := mem_append.1 hk
      · exact .inl hk
      · obtain rfl := mem_singleton.1 hk
        refine .inr ⟨stat, fun p r at_p => ?_⟩
        show update d.completed j.serial (some t) j.serial = _
        rw [update_self, own p r at_p]
    · intro p r n at_p was
      obtain same | now := completed p r n at_p
      · exact same.trans was
      · exact now

end device
end OsProject.Xv6.VirtioDisk
