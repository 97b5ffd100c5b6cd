import OsProject.Xv6.BufferRefs

/-! # The sections of the buffer cache

Every section keeps the invariant, and leaves its process with what the code after it relies
on. -/
namespace OsProject.Xv6.BufferCache
open Lib.Circular Lib.Threads Lib.Count List
open Bio (Block nbuf)
open Log (logBlocks)
open Function (update update_of_ne update_self update_eq_self)

variable {np : Nat} {g : Device} {s s' : Cache np} {ls : Fin np → Option Loc} {p q : Fin np}
  {b c : Buffer} {k : UInt32} {l l' : Loc} {x : Option Loc}

/-! ## Touching a buffer -/

theorem setBuf_self {y} : (s.setBuf b y).buf b = y := update_self ..

theorem Touch.refl : Touch s s b :=
  ⟨⟨rfl, rfl⟩, fun _ _ => rfl, fun _ _ => rfl, fun _ _ _ => rfl, fun _ _ => ⟨rfl, rfl, rfl, rfl⟩⟩

theorem Touch.setBuf {y} (t : Touch s s' b) (dev : y.dev = (s.buf b).dev)
    (blockno : y.blockno = (s.buf b).blockno) : Touch s (s'.setBuf b y) b :=
  { t with
    key := by
      rw [setBuf_self]
      exact ⟨dev, blockno⟩
    buf := fun c ne => (update_of_ne ne ..).trans (t.buf c ne) }

theorem Touch.setLock {y} (t : Touch s s' b) : Touch s (s'.setLock b y) b :=
  { t with lock := fun c ne => (update_of_ne ne ..).trans (t.lock c ne) }

variable {w v : Pinner} {n : Nat} {h : Hand}

theorem setPins_self : (s.setPins w b n).pins w b = n := by
  show update s.pins w (update (s.pins w) b n) w b = n
  rw [update_self, update_self]

theorem setPins_ne (ne : v ≠ w) : (s.setPins w b n).pins v = s.pins v := update_of_ne ne ..

theorem setPins_away (ne : c ≠ b) : (s.setPins w b n).pins v c = s.pins v c := by
  by_cases eq : v = w
  · subst eq
    show update s.pins v (update (s.pins v) b n) v c = s.pins v c
    rw [update_self, update_of_ne ne]
  · rw [setPins_ne eq]

theorem Touch.setPins (t : Touch s s' b) : Touch s (s'.setPins w b n) b :=
  { t with pins := fun c w ne => (setPins_away ne).trans (t.pins c w ne) }

theorem Touch.note (t : Touch s s' b) : Touch s (s'.note b) b := by
  refine { t with block := fun k ne => ?_ }
  obtain ⟨disk, last, dirty, kept⟩ := t.block k ne
  have ne' : k ≠ (s'.buf b).blockno := by rwa [t.key.2]
  exact ⟨disk, last, dirty, (update_of_ne ne' ..).trans kept⟩

theorem Touch.enter (t : Touch s s' b) : Touch s (s'.enter k) b := { t with }

theorem Touch.settle (t : Touch s s' b) : Touch s (s'.settle k) b := { t with }

theorem note_kept (h : (s.note b).kept (s.buf b).blockno = true) :
    s.kept (s.buf b).blockno = true ∧ s.safe b = true := by
  have := (update_self (s.buf b).blockno _ s.kept).symm.trans h
  exact Bool.and_eq_true_iff.1 this

/-- The parts of what a process knows that do not depend on its hands. -/
theorem Touch.fact (t : Touch s s' b) (same : SameLog s s') (old : l.Fact g s p)
    (hand : l'.hand.Fact g s' p)
    (commit : l'.commit = l.commit) (owns : ∀ c k, l'.owns c = some k → c ≠ b ∧ l.owns c = some k ∨
      c = b ∧ s'.lock b = some p ∧ Caches g s b k) : l'.Fact g s' p where
  hand := hand
  owns c k h := by
    obtain ⟨ne, had⟩ | ⟨rfl, lock, caches⟩ := owns c k h
    · obtain ⟨lock, caches⟩ := old.owns c k had
      exact ⟨(t.lock c ne).trans lock, t.caches.2 caches⟩
    · exact ⟨lock, t.caches.2 caches⟩
  commit c h := by
    rw [same.committing, same.lh, same.installed]
    exact old.commit c (commit ▸ h)

/-- What the process has in its hands is about the buffer `b`, if it is a reference. -/
def Hand.About (b : Buffer) : Hand → Prop
  | .free | .got .. => True
  | .ticket c _ | .fresh c _ => c = b

theorem Hand.About.has_eq (about : h.About b) (ne : c ≠ b) : h.ticketed ≠ some c := by
  cases h with
  | ticket d k =>
    obtain rfl : d = b := about
    exact fun eq => ne (Option.some.inj eq).symm
  | free | fresh | got => exact fun eq => by cases eq

theorem has_away (about : h.About b) (ne : c ≠ b) (eq : l.hand = h) : has c (some l) = 0 := by
  rw [has, eq]
  exact if_neg (about.has_eq ne)

/-- A section of a process in its code on one buffer, with the log as before. -/
theorem Inv.act (inv : Inv g s ls) (had : ls p = some l) (t : Touch s s' b)
    (here : Caches g s b (s.buf b).blockno) (ring : ∃ order, Tied s'.links order ∧ ∀ b, b ∈ order)
    (same : SameLog s s') (lock : ∀ q, q ≠ p → (s'.lock b = some q ↔ s.lock b = some q))
    (body : ∀ q, q ≠ p → s.lock b = some q → (s'.buf b).valid = (s.buf b).valid ∧
      (s'.buf b).data = (s.buf b).data ∧ s'.last (s.buf b).blockno = s.last (s.buf b).blockno)
    (kept : s'.kept (s.buf b).blockno = true → s.kept (s.buf b).blockno = true)
    (old : l.hand.About b) (new : l'.hand.About b)
    (refs : (s'.buf b).refcnt + held s b + has b (some l) =
      (s.buf b).refcnt + held s' b + has b (some l'))
    (valid : s'.lock b = some p → (s'.buf b).valid = true ∨ ∃ k, l'.hand = .fresh b k)
    (hand : l'.hand.Fact g s' p) (commit : l'.commit = l.commit)
    (owns : ∀ c k, l'.owns c = some k → c ≠ b ∧ l.owns c = some k ∨ c = b ∧ s'.lock b = some p ∧
      Caches g s b k)
    (stored : s'.kept (s.buf b).blockno = true → Stored s b (s.buf b).blockno →
      Stored s' b (s.buf b).blockno) : Inv g s' (update ls p (some l')) := by
  refine inv.touch t here ring (inv.log.same same t) ?_ lock body kept ?_ ?_ ?_ ?_ ?_ ?_ stored
  · intro now _
    exact ⟨same.committing.trans now, same.lh, same.installed⟩
  · rw [had]
    exact refs
  · intro c ne
    rw [had, has_away old ne rfl, has_away new ne rfl]
  · intro locked
    refine (valid locked).imp_right ?_
    rintro ⟨k, hand⟩
    exact ⟨l', k, rfl, hand⟩
  · intro c m k ne own fresh
    rw [had] at own
    cases own
    rw [fresh] at old
    exact absurd old ne
  · rintro m ⟨⟩
    exact t.fact same (inv.facts p l had) hand commit owns
  · rintro m ⟨⟩ h
    exact ⟨l, had, commit ▸ h⟩

/-- The process has no reference in its hands. -/
def Hand.Settled : Hand → Prop
  | .free | .got .. => True
  | .ticket .. | .fresh .. => False

theorem Hand.Settled.about (settled : h.Settled) : h.About b := by
  cases h with
  | free | got => trivial
  | ticket | fresh => exact settled.elim

theorem Hand.Settled.has (settled : h.Settled) (eq : l.hand = h) : has b (some l) = 0 := by
  rw [BufferCache.has, eq]
  cases h with
  | free | got => exact if_neg fun eq => by cases eq
  | ticket | fresh => exact settled.elim

theorem has_ticket (eq : l.hand = .ticket b k) : has b (some l) = 1 := by
  rw [has, eq]
  exact if_pos rfl

theorem has_fresh (eq : l.hand = .fresh c k) : has b (some l) = 0 := by
  rw [has, eq]
  exact if_neg fun eq => by cases eq

theorem Loc.Fact.keep (old : l.Fact g s p) (lock : s'.lock b = s.lock b) (c : Buffer) (k : UInt32)
    (h : l.owns c = some k) :
    c ≠ b ∧ l.owns c = some k ∨ c = b ∧ s'.lock b = some p ∧ Caches g s b k := by
  by_cases eq : c = b
  · subst eq
    obtain ⟨locked, caches⟩ := old.owns c k h
    exact .inr ⟨rfl, lock.trans locked, caches⟩
  · exact .inl ⟨eq, h⟩

theorem gain_owns {j} (lock : s'.lock b = some p) (caches : Caches g s b k)
    (h : update l.owns b (some k) c = some j) :
    c ≠ b ∧ l.owns c = some j ∨ c = b ∧ s'.lock b = some p ∧ Caches g s b j := by
  obtain ⟨rfl, rfl⟩ | ⟨eq, h⟩ := update_some h
  · exact .inr ⟨rfl, lock, caches⟩
  · exact .inl ⟨eq, h⟩

/-- A process that has the lock, and has looked if the buffer is valid. -/
theorem Inv.valid_of_hand (inv : Inv g s ls) (had : ls p = some l) (no : ∀ k, l.hand ≠ .fresh b k)
    (lock : s.lock b = some p) : (s.buf b).valid = true := by
  obtain valid | ⟨m, k, own, fresh⟩ := inv.valid b p lock
  · exact valid
  · rw [had] at own
    cases own
    exact absurd fresh (no k)

theorem Hand.Settled.not_fresh (settled : h.Settled) : h ≠ .fresh c k := by
  rintro rfl
  exact settled

theorem Inv.valid_of_settled (inv : Inv g s ls) (had : ls p = some l) (settled : l.hand.Settled)
    (lock : s.lock b = some p) : (s.buf b).valid = true :=
  inv.valid_of_hand had (fun _ => settled.not_fresh) lock

theorem Inv.valid_of_idle (inv : Inv g s ls) (idle : ls p = none) (lock : s.lock b = some p) :
    (s.buf b).valid = true := by
  obtain valid | ⟨m, k, own, fresh⟩ := inv.valid b p lock
  · exact valid
  · rw [idle] at own
    cases own

theorem held_free (free : s.lock b = none) : held s b = s.pins .log b + s.pins .other b := by
  unfold held
  rw [free]
  rfl

theorem held_locked (lock : s.lock b = some p) :
    held s b = s.pins .log b + s.pins .other b + 1 := by
  unfold held
  rw [lock]
  rfl

theorem other_lock (lock : s.lock b = some p) (ne : q ≠ p) : s.lock b ≠ some q := by
  rw [lock]
  exact fun eq => ne (Option.some.inj eq).symm

/-! ## `bread` -/

/-- `bget` finds the block in the cache. -/
theorem cached_inv (inv : Inv g s ls) (had : ls p = some l) (settled : l.hand.Settled)
    (caches : Caches g s b k)
    (eq : s' = s.setBuf b { s.buf b with refcnt := (s.buf b).refcnt + 1 }) :
    Inv g s' (update ls p (some { l with hand := .ticket b k })) := by
  have t : Touch s s' b := eq ▸ Touch.refl.setBuf rfl rfl
  have buf : s'.buf b = { s.buf b with refcnt := (s.buf b).refcnt + 1 } := eq ▸ setBuf_self
  subst eq
  refine inv.act had t ⟨caches.1, rfl⟩ inv.shape.ring ⟨rfl, rfl, rfl, rfl, rfl, rfl, rfl⟩
    (fun _ _ => .rfl) ?_ id settled.about rfl ?_ ?_ (t.caches.2 caches) rfl
    ((inv.facts p l had).keep rfl) ?_
  · intro q _ _
    rw [buf]
    exact ⟨rfl, rfl, rfl⟩
  · rw [settled.has rfl, has_ticket rfl, buf]
    show (s.buf b).refcnt + 1 + held s b + 0 = (s.buf b).refcnt + held s b + 1
    omega
  · rw [buf]
    exact fun locked => .inl (inv.valid_of_settled had settled locked)
  · exact fun _ st => st.congr (by rw [buf]) (by rw [buf]) rfl rfl rfl rfl fun _ => id

theorem acquired_inv (inv : Inv g s ls) (had : ls p = some l) (hand : l.hand = .ticket b k)
    (free : s.lock b = none) (eq : s' = s.setLock b (some p)) :
    Inv g s' (update ls p (some { l with hand := .fresh b k })) := by
  have t : Touch s s' b := eq ▸ Touch.refl.setLock
  have lock : s'.lock b = some p := eq ▸ update_self ..
  have fact := inv.facts p l had
  have caches : Caches g s b k := by
    have := fact.hand
    rwa [hand] at this
  have unlocked : ∀ q, s.lock b ≠ some q := fun q => by
    rw [free]
    exact fun no => by cases no
  subst eq
  refine inv.act had t ⟨caches.1, rfl⟩ inv.shape.ring ⟨rfl, rfl, rfl, rfl, rfl, rfl, rfl⟩ ?_
    (fun q _ locked => absurd locked (unlocked q)) id (hand ▸ rfl) rfl ?_ (fun _ => .inr ⟨k, rfl⟩)
    ⟨lock, t.caches.2 caches, ?_⟩ rfl ?_ fun _ st => .locked lock st.invalid st.clean
  · exact fun q ne => iff_of_false (other_lock lock ne) (unlocked q)
  · rw [has_ticket hand, has_fresh rfl, held_free free, held_locked lock]
    show (s.buf b).refcnt + (s.pins .log b + s.pins .other b) + 1 =
      (s.buf b).refcnt + (s.pins .log b + s.pins .other b + 1) + 0
    omega
  · exact fun valid kept => ((inv.content k kept).stored b caches).left valid free
  · intro c k' h
    refine .inl ⟨?_, h⟩
    rintro rfl
    exact unlocked p (fact.owns c k' h).1

theorem fill_touch : Touch s (fill s b) b := by
  unfold fill
  split
  · exact .refl
  · exact Touch.refl.setBuf rfl rfl

theorem filled_inv (inv : Inv g s ls) (had : ls p = some l) (hand : l.hand = .fresh b k)
    (eq : s' = fill s b) : Inv g s' (update ls p
      (some { l with hand := .got b k, owns := update l.owns b (some k) })) := by
  obtain ⟨lock, caches, data⟩ : s.lock b = some p ∧ Caches g s b k ∧
      ((s.buf b).valid = true → s.kept k = true → (s.buf b).data = s.last k) := by
    have := (inv.facts p l had).hand
    rwa [hand] at this
  have t : Touch s s' b := eq ▸ fill_touch
  have rest : s'.links = s.links ∧ SameLog s s' ∧ s'.lock = s.lock ∧ s'.last = s.last ∧
    s'.kept = s.kept ∧
      s'.pins = s.pins ∧ s'.disk = s.disk ∧ s'.dirty = s.dirty := by
    rw [eq, fill]
    split <;> exact ⟨rfl, ⟨rfl, rfl, rfl, rfl, rfl, rfl, rfl⟩, rfl, rfl, rfl, rfl, rfl, rfl⟩
  obtain ⟨links, same, lock', last, kept, pins, disk, dirty⟩ := rest
  have buf : (s'.buf b).valid = true ∧ (s'.buf b).refcnt = (s.buf b).refcnt ∧
      (s'.buf b).data = if (s.buf b).valid then (s.buf b).data else s.disk k := by
    rw [eq, fill, ← caches.2]
    split
    · rename_i valid
      exact ⟨valid, rfl, rfl⟩
    · rw [setBuf_self]
      exact ⟨rfl, rfl, rfl⟩
  obtain ⟨valid, refcnt, contents⟩ := buf
  refine inv.act had t ⟨caches.1, rfl⟩ (links ▸ inv.shape.ring) same (fun q _ => by rw [lock'])
    (fun q ne locked => absurd locked (other_lock lock ne)) (by rw [kept]; exact id)
    (hand ▸ rfl) trivial ?_ (fun _ => .inl valid) ⟨lock' ▸ lock, t.caches.2 caches, valid, ?_⟩ rfl
    (fun c k' => gain_owns (lock' ▸ lock) caches) ?_
  · rw [has_fresh hand, Hand.Settled.has (h := .got b k) trivial rfl, refcnt]
    unfold held
    rw [lock', pins]
  · rw [kept, last, contents]
    intro hk
    split
    · rename_i was
      exact data was hk
    · rename_i was
      exact (((inv.content k hk).stored b caches).invalid (by simpa using was)).1
  · intro _ st
    rw [caches.2] at st ⊢
    refine .locked (lock' ▸ lock) ?_ ?_
    · rw [valid]
      exact fun h => by cases h
    · rw [disk, dirty, contents]
      intro _ clean
      split
      · rename_i was
        exact st.clean was clean
      · rfl

/-- The block of a buffer that nobody refers to is on disk as it was left. -/
theorem Inv.recyclable (inv : Inv g s ls) (caches : Caches g s b k) (zero : (s.buf b).refcnt = 0)
    (kept : s.kept k = true) : s.disk k = s.last k ∧ s.dirty k = false := by
  obtain ⟨free, unpinned, _⟩ := inv.unused zero
  have st := (inv.content k kept).stored b caches
  have clean : s.dirty k = false := by
    by_contra dirty
    obtain locked | pinned := st.safe (by simpa using dirty)
    · rw [free] at locked
      cases locked
    · rw [unpinned] at pinned
      cases pinned
  cases valid : (s.buf b).valid with
  | true => exact ⟨(st.clean valid clean).trans (st.left valid free), clean⟩
  | false => exact st.invalid valid

/-- `bget` recycles a buffer. -/
theorem recycled_inv (inv : Inv g s ls) (had : ls p = some l) (settled : l.hand.Settled)
    (absent : ∀ c, ¬ Caches g s c k) (zero : (s.buf b).refcnt = 0)
    (eq : s' = s.setBuf b { s.buf b with dev := g.dev, blockno := k, valid := false, refcnt := 1 })
      :
    Inv g s' (update ls p (some { l with hand := .ticket b k })) := by
  obtain ⟨free, unpinned, no_log⟩ := inv.unused zero
  have fact := inv.facts p l had
  have buf : s'.buf b = { s.buf b with dev := g.dev, blockno := k, valid := false, refcnt := 1 } :=
    eq ▸ setBuf_self
  have away : ∀ c, c ≠ b → s'.buf c = s.buf c := fun c ne => eq ▸ update_of_ne ne ..
  have here : Caches g s' b k := by
    unfold Caches
    rw [buf]
    exact ⟨rfl, rfl⟩
  -- the other buffers keep their blocks, and none of them is this one
  have caches : ∀ c j, Caches g s' c j ↔ c = b ∧ j = k ∨ c ≠ b ∧ Caches g s c j := by
    intro c j
    by_cases eq : c = b
    · subst eq
      constructor
      · exact fun h => .inl ⟨rfl, h.2.symm.trans here.2⟩
      · rintro (⟨_, rfl⟩ | ⟨ne, _⟩)
        · exact here
        · exact absurd rfl ne
    · unfold Caches
      rw [away c eq]
      simp [eq]
  have other : ∀ c, 0 < (s.buf c).refcnt → c ≠ b := by
    rintro c pos rfl
    omega
  have fresh_k : k ∉ pending s := by
    intro mem
    obtain ⟨c, hc⟩ := inv.log.cached k mem
    exact absent c hc
  have old_k : (s.buf b).dev = g.dev → (s.buf b).blockno ∉ pending s := by
    intro dev mem
    have one := inv.log.pins b
    rw [if_pos ⟨dev, mem⟩, no_log] at one
    cases one
  subst eq
  refine inv.next ⟨?_, fun _ _ _ => .rfl, ?_, fun _ _ _ _ _ _ => ⟨rfl, id⟩,
    fun now _ => ⟨now, rfl, rfl⟩⟩ ⟨inv.shape.ring, ?_, ?_⟩
    ⟨inv.log.nodup, inv.log.short, ?_, ?_, inv.log.closed, inv.log.started, inv.log.counted⟩
    ?_ ?_ ?_ ?_ ?_
  · intro c pos
    rw [away c (other c pos)]
    exact ⟨rfl, rfl⟩
  · intro c q _ locked
    rw [away c (other c (inv.lock_pos locked))]
    exact ⟨rfl, rfl⟩
  · intro c c' j now now'
    obtain ⟨rfl, rfl⟩ | ⟨ne, hc⟩ := (caches c j).1 now <;> obtain ⟨rfl, eq'⟩ | ⟨ne', hc'⟩ :=
      (caches c' _).1 now'
    · rfl
    · exact absurd hc' (absent c')
    · exact absurd (eq' ▸ hc) (absent c)
    · exact inv.shape.single c c' j hc hc'
  · intro c ne
    have apart : c ≠ b := by
      rintro rfl
      exact ne here.1
    rw [away c apart] at ne ⊢
    exact inv.shape.device c ne
  · intro j mem
    obtain ⟨c, hc⟩ := inv.log.cached j mem
    refine ⟨c, (caches c j).2 (.inr ⟨?_, hc⟩)⟩
    rintro rfl
    exact old_k hc.1 (hc.2 ▸ mem)
  · intro c
    by_cases eq : c = b
    · subst eq
      rw [buf]
      exact no_log.trans (if_neg fun h => fresh_k h.2).symm
    · rw [away c eq]
      exact inv.log.pins c
  · intro c
    rw [had, settled.has rfl]
    by_cases eq : c = b
    · subst eq
      rw [buf, zero, has_ticket rfl]
      show 1 + held s c + 0 = 0 + held s c + 1
      omega
    · rw [away c eq, has_away (h := .ticket b k) rfl eq rfl]
      rfl
  · intro c locked
    rw [away c (other c (inv.lock_pos locked))]
    exact .inl (inv.valid_of_settled had settled locked)
  · rintro m ⟨⟩
    refine ⟨here, fun c j h => ?_, fact.commit⟩
    obtain ⟨locked, hc⟩ := fact.owns c j h
    exact ⟨locked, (caches c j).2 (.inr ⟨other c (inv.lock_pos locked), hc⟩)⟩
  · rintro m ⟨⟩ h
    exact .inr ⟨l, had, h⟩
  · intro j kept
    have old := inv.content j kept
    refine ⟨?_, ?_⟩
    · intro gone
      by_cases was : ∃ c, Caches g s c j
      · obtain ⟨c, hc⟩ := was
        have : c = b := by
          by_contra ne
          exact gone c ((caches c j).2 (.inr ⟨ne, hc⟩))
        subst this
        exact inv.recyclable hc zero kept
      · exact old.absent fun c hc => was ⟨c, hc⟩
    · intro c hc
      obtain ⟨rfl, rfl⟩ | ⟨ne, hc⟩ := (caches c j).1 hc
      · obtain ⟨disk, clean⟩ := old.absent absent
        refine ⟨fun _ => ⟨disk, clean⟩, ?_, ?_,
          fun dirty => absurd (clean.symm.trans dirty) (by simp)⟩ <;> rw [buf]
        · exact fun h => by cases h
        · exact fun h => by cases h
      · exact (old.stored c hc).congr (by rw [away c ne]) (by rw [away c ne]) rfl rfl rfl
          rfl fun _ => id

/-! ## The holder of a lock -/

/-- The process has nothing in its hands, and knows `x` after its section. -/
structure Turn (g : Device) (s' : Cache np) (p : Fin np) (y x : Option Loc) : Prop where
  has_eq : ∀ c, has c y = has c x
  quiet : ∀ l, y = some l → l.hand.Settled
  own : ∀ l, x = some l → l.Fact g s' p
  commit : ∀ l, x = some l → l.commit ≠ none → ∃ m, y = some m ∧ m.commit ≠ none

theorem Turn.idle (idle : x = none) : Turn g s p x none := by
  subst idle
  exact ⟨fun _ => rfl, by rintro _ ⟨⟩, by rintro _ ⟨⟩, by rintro _ ⟨⟩⟩

theorem Turn.settled (had : x = some l) (settled : l.hand.Settled) (settled' : l'.hand.Settled)
    (own : l'.Fact g s p) (commit : l'.commit ≠ none → l.commit ≠ none) :
    Turn g s p x (some l') := by
  subst had
  refine ⟨fun c => ?_, ?_, ?_, ?_⟩
  · rw [settled.has rfl, settled'.has rfl]
  · rintro m ⟨⟩
    exact settled
  · rintro m ⟨⟩
    exact own
  · rintro m ⟨⟩ h
    exact ⟨l, rfl, commit h⟩

/-- What the holder of a lock does to the buffer's contents; `x` is what it knows after. -/
theorem Inv.alter (inv : Inv g s ls) (t : Touch s s' b) (lock : s.lock b = some p)
    (links : s'.links = s.links) (same : SameLog s s') (lock' : s'.lock = s.lock)
    (pins : s'.pins = s.pins) (kept : s'.kept = s.kept)
    (refcnt : (s'.buf b).refcnt = (s.buf b).refcnt) (valid' : (s'.buf b).valid = true)
    (disk : s'.dirty (s.buf b).blockno = false → s'.disk (s.buf b).blockno = (s'.buf b).data)
    (turn : Turn g s' p (ls p) x) : Inv g s' (update ls p x) := by
  refine inv.touch t (inv.caches (inv.lock_pos lock)) (links ▸ inv.shape.ring)
    (inv.log.same same t) ?_ (fun q _ => by rw [lock'])
    (fun q ne locked => absurd locked (other_lock lock ne)) (by rw [kept]; exact id) ?_
    (fun c _ => turn.has_eq c) (fun _ => .inl valid')
    (fun _ l _ _ had fresh => absurd fresh (turn.quiet l had).not_fresh) turn.own turn.commit ?_
  · intro now _
    exact ⟨same.committing.trans now, same.lh, same.installed⟩
  · rw [← turn.has_eq b, refcnt]
    unfold held
    rw [lock', pins]
  · intro _ _
    refine .locked (lock' ▸ lock) ?_ fun _ => disk
    rw [valid']
    exact fun h => by cases h

theorem write_touch : Touch s (write s b) b where
  key := ⟨rfl, rfl⟩
  buf _ _ := rfl
  lock _ _ := rfl
  pins _ _ _ := rfl
  block _ ne := ⟨update_of_ne ne .., rfl, update_of_ne ne .., rfl⟩

theorem written_inv (inv : Inv g s ls) (had : ls p = some l) (settled : l.hand.Settled)
    (owns : l.owns b = some k) (eq : s' = write s b) : Inv g s' (update ls p (some l)) := by
  subst eq
  have fact := inv.facts p l had
  have lock := (fact.owns b k owns).1
  exact inv.alter write_touch lock rfl ⟨rfl, rfl, rfl, rfl, rfl, rfl, rfl⟩ rfl rfl rfl rfl
    (inv.valid_of_settled had settled lock) (fun _ => update_self ..)
    (.settled had settled settled ⟨fact.hand, fact.owns, fact.commit⟩ id)

theorem store_touch {v} : Touch s (store s b v) b where
  key := by
    show ((s.setBuf b _).buf b).dev = _ ∧ ((s.setBuf b _).buf b).blockno = _
    rw [setBuf_self]
    exact ⟨rfl, rfl⟩
  buf _ ne := update_of_ne ne ..
  lock _ _ := rfl
  pins _ _ _ := rfl
  block _ ne := ⟨rfl, rfl, update_of_ne ne .., rfl⟩

/-- New contents by the holder of the lock, in its code or outside of it. -/
theorem stored_inv (inv : Inv g s ls) {v} (lock : s.lock b = some p)
    (valid : (s.buf b).valid = true) (turn : Turn g (store s b v) p (ls p) x) :
    Inv g (store s b v) (update ls p x) := by
  have buf : (store s b v).buf b = { s.buf b with data := v } := setBuf_self
  refine inv.alter store_touch lock rfl ⟨rfl, rfl, rfl, rfl, rfl, rfl, rfl⟩ rfl rfl rfl
    (by rw [buf]) (by rw [buf]; exact valid) ?_ turn
  intro clean
  have dirty : (store s b v).dirty (s.buf b).blockno = true := update_self ..
  exact absurd (clean.symm.trans dirty) (by simp)

theorem safe_unlocked (free : s.lock b = none) (h : s.safe b = true)
    (dirty : s.dirty (s.buf b).blockno = true) : s.pinned b = true := by
  unfold Cache.safe at h
  rw [free, dirty] at h
  exact h

theorem releasesleep_touch : Touch s (releasesleep s b) b := by
  refine .note ⟨⟨rfl, rfl⟩, fun _ _ => rfl, fun c ne => update_of_ne ne ..,
    fun _ _ _ => rfl, ?_⟩
  exact fun k ne => ⟨rfl, update_of_ne ne .., rfl, rfl⟩

/-- `releasesleep` in `brelse`. -/
theorem unlocked_inv (inv : Inv g s ls) (had : ls p = some l) (settled : l.hand.Settled)
    (owns : l.owns b = some k) (eq : s' = releasesleep s b) : Inv g s' (update ls p
      (some { l with hand := .ticket b k, owns := update l.owns b none })) := by
  have fact := inv.facts p l had
  obtain ⟨lock, caches⟩ := fact.owns b k owns
  have valid := inv.valid_of_settled had settled lock
  have lock' : s'.lock b = none := eq ▸ update_self ..
  have t : Touch s s' b := eq ▸ releasesleep_touch
  have last : s'.last (s.buf b).blockno = (s.buf b).data := eq ▸ update_self ..
  have noted : s'.kept (s.buf b).blockno = true → s.kept (s.buf b).blockno = true ∧
      (s.dirty (s.buf b).blockno = true → s.pinned b = true) := by
    intro h
    rw [eq] at h
    obtain ⟨kept, safe⟩ := note_kept h
    exact ⟨kept, safe_unlocked (s := s.unlock b) (update_self ..) safe⟩
  subst eq
  refine inv.act had t ⟨caches.1, rfl⟩ inv.shape.ring ⟨rfl, rfl, rfl, rfl, rfl, rfl, rfl⟩ ?_
    (fun q ne locked => absurd locked (other_lock lock ne)) (fun h => (noted h).1)
    settled.about rfl ?_ ?_ (t.caches.2 caches) rfl ?_ ?_
  · intro q ne
    rw [lock']
    exact iff_of_false (by simp) (other_lock lock ne)
  · rw [settled.has rfl, has_ticket rfl, held_locked lock, held_free lock']
    show (s.buf b).refcnt + (s.pins .log b + s.pins .other b + 1) + 0 =
      (s.buf b).refcnt + (s.pins .log b + s.pins .other b) + 1
    omega
  · rw [lock']
    exact fun h => by cases h
  · intro c j h
    have h : update l.owns b none c = some j := h
    have ne : c ≠ b := by
      rintro rfl
      rw [update_self] at h
      cases h
    rw [update_of_ne ne] at h
    exact .inl ⟨ne, h⟩
  · intro hk st
    refine ⟨fun no => ?_, st.clean, fun _ _ => last.symm, fun dirty => .inr ((noted hk).2 dirty)⟩
    exact absurd (valid.symm.trans no) (by simp)

/-! ## References and pins -/

theorem ring_front {links} (h : ∃ order, Tied links order ∧ ∀ b, b ∈ order) (b : Buffer) :
    ∃ order, Tied ((links.unlink b).pushFront b) order ∧ ∀ b, b ∈ order := by
  obtain ⟨order, tied, all⟩ := h
  obtain ⟨pre, post, rfl⟩ := append_of_mem (all b)
  have out : b ∉ pre ++ post := by
    have nodup := tied.nodup
    rw [nodup_middle, nodup_cons] at nodup
    exact nodup.1
  refine ⟨b :: (pre ++ post), tied.unlink.pushFront out, fun c => ?_⟩
  simpa [or_left_comm] using all c

theorem release_touch : Touch s (release s b) b := by
  have t : Touch s (s.setBuf b { s.buf b with refcnt := (s.buf b).refcnt - 1 }) b :=
    Touch.refl.setBuf rfl rfl
  unfold release
  dsimp only
  split
  · exact { t with }
  · exact t

/-- The section at the end of `brelse`. -/
theorem released_inv (inv : Inv g s ls) (had : ls p = some l) (hand : l.hand = .ticket b k)
    (eq : s' = release s b) : Inv g s' (update ls p (some { l with hand := .free })) := by
  have fact := inv.facts p l had
  have caches : Caches g s b k := by
    have := fact.hand
    rwa [hand] at this
  have pos := inv.ticket_pos had hand
  have t : Touch s s' b := eq ▸ release_touch
  have rest : SameLog s s' ∧ s'.lock = s.lock ∧ s'.pins = s.pins ∧ s'.last = s.last ∧
      s'.kept = s.kept ∧ s'.disk = s.disk ∧ s'.dirty = s.dirty ∧
      s'.buf b = { s.buf b with refcnt := (s.buf b).refcnt - 1 } ∧
      ∃ order, Tied s'.links order ∧ ∀ b, b ∈ order := by
    rw [eq, release]
    split
    · exact ⟨⟨rfl, rfl, rfl, rfl, rfl, rfl, rfl⟩, rfl, rfl, rfl, rfl, rfl, rfl, setBuf_self,
        ring_front inv.shape.ring b⟩
    · exact ⟨⟨rfl, rfl, rfl, rfl, rfl, rfl, rfl⟩, rfl, rfl, rfl, rfl, rfl, rfl, setBuf_self,
        inv.shape.ring⟩
  obtain ⟨same, lock, pins, last, kept, disk, dirty, buf, ring⟩ := rest
  refine inv.act had t ⟨caches.1, rfl⟩ ring same (fun q _ => by rw [lock]) ?_
    (by rw [kept]; exact id) (hand ▸ rfl) trivial ?_ ?_ trivial rfl (fact.keep (by rw [lock]))
    fun _ st => ?_
  · intro q _ _
    rw [buf, last]
    exact ⟨rfl, rfl, rfl⟩
  · rw [has_ticket hand, Hand.Settled.has (h := .free) trivial rfl, buf]
    have : held s' b = held s b := by
      unfold held
      rw [lock, pins]
    show (s.buf b).refcnt - 1 + _ + 1 = _
    omega
  · intro locked
    rw [lock] at locked
    rw [buf]
    refine .inl (inv.valid_of_hand had (fun j fresh => ?_) locked)
    cases hand.symm.trans fresh
  · refine st.congr (by rw [buf]) (by rw [buf]) (by rw [lock]) (by rw [disk]) (by rw [last])
      (by rw [dirty]) ?_
    rw [Cache.pinned, Cache.pinned, pins]
    exact fun _ => id

/-- One reference more or less with a pin more or less, by a process that knows `x` before and
after. -/
theorem Inv.repin (inv : Inv g s ls) (t : Touch s s' b) (pos : 0 < (s.buf b).refcnt)
    (links : s'.links = s.links) (log : LogPart g s')
    (commits : s.committing = true → (∀ l, ls p = some l → l.commit = none) →
      s'.committing = true ∧ s'.lh = s.lh ∧ s'.installed = s.installed)
    (lock : s'.lock = s.lock) (last : s'.last = s.last) (disk : s'.disk = s.disk)
    (dirty : s'.dirty = s.dirty)
    (valid : (s'.buf b).valid = (s.buf b).valid) (data : (s'.buf b).data = (s.buf b).data)
    (kept : s'.kept (s.buf b).blockno = true → s.kept (s.buf b).blockno = true)
    (refs : (s'.buf b).refcnt + held s b = (s.buf b).refcnt + held s' b)
    (turn : Turn g s' p (ls p) x)
    (safe : s'.kept (s.buf b).blockno = true → s.dirty (s.buf b).blockno = true →
      (s.lock b).isSome = true ∨ s.pinned b = true → (s.lock b).isSome = true ∨
        s'.pinned b = true) :
    Inv g s' (update ls p x) := by
  have settled : ∀ c l k, ls p = some l → l.hand ≠ .fresh c k :=
    fun _ l _ had => (turn.quiet l had).not_fresh
  refine inv.touch t (inv.caches pos) (links ▸ inv.shape.ring) log commits
    (fun q _ => by rw [lock]) ?_ kept ?_ (fun c _ => turn.has_eq c) ?_
    (fun c l j _ had fresh => absurd fresh (settled c l j had)) turn.own turn.commit fun hk st =>
    st.congr valid data (by rw [lock]) (by rw [disk]) (by rw [last]) (by rw [dirty]) (safe hk)
  · intro q _ _
    rw [last]
    exact ⟨valid, data, rfl⟩
  · rw [turn.has_eq b]
    omega
  · intro locked
    rw [lock] at locked
    obtain was | ⟨m, j, had, fresh⟩ := inv.valid b p locked
    · exact .inl (valid.trans was)
    · exact absurd fresh (settled b m j had)

theorem update_none (idle : ls p = none) : update ls p none = ls := by
  rw [← idle, update_eq_self]

theorem bpin_buf : (bpin s w b).buf b = { s.buf b with refcnt := (s.buf b).refcnt + 1 } :=
  setBuf_self

theorem bpin_touch : Touch s (bpin s w b) b := by
  refine .setPins (.setBuf .refl ?_ ?_)
  · rfl
  · rfl

theorem bpin_other (ne : v ≠ w) : (bpin s w b).pins v = s.pins v := update_of_ne ne ..

theorem bpin_held : held (bpin s w b) b = held s b + 1 := by
  have here : (bpin s w b).pins w b = s.pins w b + 1 := setPins_self
  unfold held
  rw [show (bpin s w b).lock = s.lock from rfl]
  cases w with
  | log =>
    rw [here, bpin_other (v := .other) (by decide)]
    omega
  | other =>
    rw [here, bpin_other (v := .log) (by decide)]
    omega

theorem bunpin_buf :
    (bunpin s w b).buf b = { s.buf b with refcnt := (s.buf b).refcnt - 1 } := setBuf_self

theorem bunpin_touch : Touch s (bunpin s w b) b := by
  refine .note (.setPins (.setBuf .refl ?_ ?_))
  · rfl
  · rfl

theorem bunpin_other (ne : v ≠ w) : (bunpin s w b).pins v = s.pins v := update_of_ne ne ..

theorem bunpin_self : (bunpin s w b).pins w b = s.pins w b - 1 :=
  setPins_self (s := s.setBuf b { s.buf b with refcnt := (s.buf b).refcnt - 1 })

theorem bunpin_held (pos : 0 < s.pins w b) : held (bunpin s w b) b + 1 = held s b := by
  have here := bunpin_self (s := s) (b := b) (w := w)
  unfold held
  rw [show (bunpin s w b).lock = s.lock from rfl]
  cases w with
  | log =>
    rw [here, bunpin_other (v := .other) (by decide)]
    omega
  | other =>
    rw [here, bunpin_other (v := .log) (by decide)]
    omega

/-- What a `bunpin` that loses no modification leaves. -/
theorem bunpin_kept (h : (bunpin s w b).kept (s.buf b).blockno = true) :
    s.kept (s.buf b).blockno = true ∧ (s.dirty (s.buf b).blockno = true →
      (s.lock b).isSome = true ∨ (bunpin s w b).pinned b = true) := by
  have key := ((Touch.refl (s := s) (b := b)).setBuf
    (y := { s.buf b with refcnt := (s.buf b).refcnt - 1 }) rfl rfl).key.2
  obtain ⟨kept, safe⟩ := note_kept (s := (s.setBuf b { s.buf b with
    refcnt := (s.buf b).refcnt - 1 }).setPins w b (s.pins w b - 1)) (b := b) (by
      show (bunpin s w b).kept ((s.setBuf b _).buf b).blockno = true
      rw [key]
      exact h)
  have kept : s.kept ((s.setBuf b _).buf b).blockno = true := kept
  rw [key] at kept
  refine ⟨kept, fun dirty => ?_⟩
  have safe : (!s.dirty ((s.setBuf b _).buf b).blockno || (s.lock b).isSome ||
      (bunpin s w b).pinned b) = true := safe
  rw [key, dirty] at safe
  simpa using safe

theorem bpin_pinned : (bpin s w b).pinned b = true := by
  have here : (bpin s w b).pins w b = s.pins w b + 1 := by
    show update s.pins w (update (s.pins w) b (s.pins w b + 1)) w b = _
    rw [update_self, update_self]
  unfold Cache.pinned
  rw [decide_eq_true_iff]
  cases w with
  | log => omega
  | other => omega

theorem bpin_inv (inv : Inv g s ls) (idle : ls p = none) (pos : 0 < (s.buf b).refcnt) :
    Inv g (bpin s .other b) ls := by
  rw [← update_none idle]
  refine inv.repin bpin_touch pos rfl
    (inv.log.same ⟨rfl, rfl, rfl, rfl, bpin_other (by decide), rfl, rfl⟩ bpin_touch)
    (fun now _ => ⟨now, rfl, rfl⟩) rfl rfl rfl rfl (by rw [bpin_buf]) (by rw [bpin_buf]) id ?_
    (.idle idle) fun _ _ _ => .inr bpin_pinned
  rw [bpin_buf, bpin_held]
  show (s.buf b).refcnt + 1 + _ = _
  omega

theorem bunpin_inv (inv : Inv g s ls) (pos : 0 < s.pins .other b) (idle : ls p = none) :
    Inv g (bunpin s .other b) ls := by
  have refcnt : 0 < (s.buf b).refcnt := by
    refine inv.pin_pos ?_
    unfold Cache.pinned
    rw [decide_eq_true_iff]
    omega
  rw [← update_none idle]
  refine inv.repin bunpin_touch refcnt rfl
    (inv.log.same ⟨rfl, rfl, rfl, rfl, bunpin_other (by decide), rfl, rfl⟩ bunpin_touch)
    (fun now _ => ⟨now, rfl, rfl⟩) rfl rfl rfl rfl (by rw [bunpin_buf]) (by rw [bunpin_buf])
    (fun h => (bunpin_kept h).1) ?_ (.idle idle) fun hk dirty _ => (bunpin_kept hk).2 dirty
  have := bunpin_held pos
  rw [bunpin_buf]
  show (s.buf b).refcnt - 1 + _ = _
  omega

/-! ## The log -/

theorem logWrite_inv (inv : Inv g s ls) (idle : ls p = none) (lock : s.lock b = some p)
    (h : logWrite s b = some s') : Inv g s' ls := by
  obtain ⟨room, h⟩ := Option.ite_none_left_eq_some.1 h
  obtain ⟨trans, h⟩ := Option.ite_none_left_eq_some.1 h
  split at h
  · cases h
    exact inv
  · rename_i fresh
    cases h
    -- nothing is being installed while operations run
    have running : s.committing = false := by
      by_contra now
      have := inv.log.closed (by simpa using now)
      omega
    have none_installed := inv.log.started running
    have all : pending s = s.lh := by
      unfold pending
      rw [none_installed, drop_zero]
    have here := inv.caches (inv.lock_pos lock)
    have t : Touch s ((bpin s .log b).enter (s.buf b).blockno) b := bpin_touch.enter
    have all' : pending ((bpin s .log b).enter (s.buf b).blockno) =
        s.lh ++ [(s.buf b).blockno] := by
      show (s.lh ++ [(s.buf b).blockno]).drop s.installed = _
      rw [none_installed, drop_zero]
    rw [← update_none idle]
    refine inv.repin t (inv.lock_pos lock) rfl ⟨?_, ?_, ?_, ?_, ?_, ?_, ?_⟩ ?_ rfl rfl rfl rfl
      ?_ ?_ id ?_ (.idle idle) ?_
    · refine nodup_append.2 ⟨inv.log.nodup, by simp, ?_⟩
      intro k hk j hj eq
      exact fresh (mem_singleton.1 hj ▸ eq ▸ hk)
    · show (s.lh ++ [_]).length ≤ logBlocks
      rw [length_append, length_singleton]
      omega
    · rw [all']
      intro k mem
      obtain mem | eq := mem_append.1 mem
      · obtain ⟨c, hc⟩ := inv.log.cached k (all ▸ mem)
        exact ⟨c, t.caches.2 hc⟩
      · obtain rfl := mem_singleton.1 eq
        exact ⟨b, t.caches.2 here⟩
    · intro c
      have old := inv.log.pins c
      rw [all', (t.keys c).1, (t.keys c).2]
      rw [all] at old
      by_cases eq : c = b
      · subst eq
        rw [if_neg fun h => fresh h.2] at old
        rw [if_pos ⟨here.1, by simp⟩]
        have : (bpin s .log c).pins .log c = s.pins .log c + 1 := setPins_self
        exact this.trans (by rw [old])
      · have apart : (s.buf c).dev = g.dev → (s.buf c).blockno ≠ (s.buf b).blockno := by
          intro dev same
          exact eq (inv.shape.single c b _ ⟨dev, same⟩ here)
        have : (bpin s .log b).pins .log c = s.pins .log c := setPins_away eq
        refine this.trans (old.trans ?_)
        refine if_congr ?_ rfl rfl
        rw [mem_append, mem_singleton]
        constructor
        · exact fun h => ⟨h.1, .inl h.2⟩
        · exact fun h => ⟨h.1, h.2.resolve_right (apart h.1)⟩
    · exact inv.log.closed
    · exact inv.log.started
    · intro k
      have old := inv.log.counted k
      rw [all']
      rw [all] at old
      show update s.entered _ _ k = s.unpinned k + _
      by_cases eq : k = (s.buf b).blockno
      · subst eq
        rw [if_neg fresh] at old
        rw [update_self, if_pos (by simp)]
        show s.entered _ + 1 = _
        rw [old]
      · rw [update_of_ne eq, old]
        simp [eq]
    · intro now _
      rw [running] at now
      cases now
    · show ((bpin s .log b).buf b).valid = _
      rw [bpin_buf]
    · show ((bpin s .log b).buf b).data = _
      rw [bpin_buf]
    · show ((bpin s .log b).buf b).refcnt + held s b = (s.buf b).refcnt + held (bpin s .log b) b
      rw [bpin_buf, bpin_held]
      show (s.buf b).refcnt + 1 + _ = _
      omega
    · rw [lock]
      exact fun _ _ _ => .inl rfl

/-- The next entry is installed. -/
theorem settled_log (log : LogPart g s) (single : ∀ c, Caches g s c k → c = b)
    (here : Caches g s b k)
    (committing : s.committing = true) (next : s.lh[s.installed]? = some k)
    (eq : s' = unpinInstalled s b) : LogPart g s' ∧ 0 < s.pins .log b := by
  have t : Touch s s' b := eq ▸ bunpin_touch.settle
  obtain ⟨lt, get⟩ := List.getElem?_eq_some_iff.1 next
  have before : pending s = k :: pending s' := by
    rw [eq]
    unfold pending
    rw [drop_eq_getElem_cons lt, get]
    rfl
  have out : k ∉ pending s' := by
    have nodup : (pending s).Nodup := log.nodup.sublist (drop_sublist ..)
    rw [before] at nodup
    exact (nodup_cons.1 nodup).1
  have one : s.pins .log b = 1 := by
    rw [log.pins b, before]
    refine if_pos ⟨here.1, ?_⟩
    rw [here.2]
    exact mem_cons_self
  refine ⟨⟨?_, ?_, ?_, ?_, ?_, ?_, ?_⟩, by omega⟩
  · rw [eq]
    exact log.nodup
  · rw [eq]
    exact log.short
  · intro j mem
    obtain ⟨c, hc⟩ := log.cached j (before ▸ mem_cons_of_mem _ mem)
    exact ⟨c, t.caches.2 hc⟩
  · intro c
    rw [(t.keys c).1, (t.keys c).2]
    by_cases ne : c = b
    · subst ne
      rw [here.2, if_neg fun h => out h.2, eq]
      exact (bunpin_self (w := .log)).trans (by rw [one])
    · have apart : (s.buf c).dev = g.dev → (s.buf c).blockno ≠ k :=
        fun dev same => ne (single c ⟨dev, same⟩)
      have kept : s'.pins .log c = s.pins .log c := t.pins c .log ne
      rw [kept, log.pins c, before]
      refine if_congr ?_ rfl rfl
      rw [mem_cons]
      constructor
      · exact fun h => ⟨h.1, h.2.resolve_left (apart h.1)⟩
      · exact fun h => ⟨h.1, .inr h.2⟩
  · rw [eq]
    exact log.closed
  · intro stopped
    rw [eq] at stopped
    exact absurd (committing.symm.trans stopped) (by simp)
  · intro j
    have old := log.counted j
    rw [before] at old
    by_cases eq' : j = k
    · subst eq'
      rw [if_pos mem_cons_self] at old
      rw [if_neg out, show s'.entered j = s.entered j by rw [eq]; rfl, old, eq]
      show _ = update s.unpinned (s.buf b).blockno _ j + 0
      rw [here.2, update_self]
      rfl
    · rw [show s'.entered j = s.entered j by rw [eq]; rfl, old,
        show s'.unpinned j = s.unpinned j by
          rw [eq]
          show update s.unpinned (s.buf b).blockno _ j = _
          rw [here.2, update_of_ne eq']]
      simp [eq']

variable (inv : Inv g s ls) (had : ls p = some l) (settled : l.hand.Settled)
include inv had settled

/-- `bunpin` of an entry that was installed. -/
theorem unpinned_inv {lh t}
    (owns : l.owns b = some k) (commit : l.commit = some (lh, t)) (next : lh[t]? = some k)
    (eq : s' = unpinInstalled s b) :
    Inv g s' (update ls p (some { l with hand := .free, commit := some (lh, t + 1) })) := by
  have fact := inv.facts p l had
  obtain ⟨lock, caches⟩ := fact.owns b k owns
  obtain ⟨now, lh_eq, installed⟩ := fact.commit _ commit
  obtain ⟨log, pos⟩ := settled_log inv.log (fun c hc => inv.shape.single c b k hc caches) caches now
    (by rw [lh_eq, installed]; exact next) eq
  have touch : Touch s s' b := eq ▸ bunpin_touch.settle
  have buf : s'.buf b = { s.buf b with refcnt := (s.buf b).refcnt - 1 } :=
    eq ▸ bunpin_buf (w := .log)
  have refcnt := inv.lock_pos lock
  subst eq
  refine inv.repin touch refcnt rfl log ?_ rfl rfl rfl rfl (by rw [buf]) (by rw [buf])
    (fun h => (bunpin_kept h).1) ?_
    (.settled had settled trivial ⟨trivial, fun c j h => ?_, ?_⟩ (by simp [commit]))
    fun hk dirty _ => (bunpin_kept hk).2 dirty
  · intro _ no
    rw [no l had] at commit
    cases commit
  · have := bunpin_held pos
    rw [buf]
    show (s.buf b).refcnt - 1 + _ = _ + held (bunpin s .log b) b
    omega
  · obtain ⟨locked, hc⟩ := fact.owns c j h
    exact ⟨locked, touch.caches.2 hc⟩
  · rintro c ⟨⟩
    exact ⟨now, lh_eq, congrArg (· + 1) installed⟩

/-- A section that touches no buffer. -/
theorem Inv.logs
    (cache : s'.buf = s.buf ∧ s'.links = s.links ∧ s'.lock = s.lock ∧ s'.disk = s.disk ∧
      s'.pins = s.pins ∧
      s'.last = s.last ∧ s'.dirty = s.dirty ∧ s'.kept = s.kept) (log : LogPart g s')
    (commits : s.committing = true → l.commit = none →
      s'.committing = true ∧ s'.lh = s.lh ∧ s'.installed = s.installed) {c}
    (own : ∀ d, c = some d → s'.committing = true ∧ s'.lh = d.1 ∧ s'.installed = d.2)
    (alone : c ≠ none → s.committing = false ∨ l.commit ≠ none) :
    Inv g s' (update ls p (some { l with hand := .free, commit := c })) := by
  obtain ⟨buf, links, lock, disk, pins, last, dirty, kept⟩ := cache
  have fact := inv.facts p l had
  have caches : ∀ c k, Caches g s' c k ↔ Caches g s c k := by
    intro c k
    unfold Caches
    rw [buf]
  have f : Frame g s s' p (ls p) := by
    refine ⟨?_, fun _ _ _ => by rw [lock], ?_, ?_, ?_⟩
    · rw [buf]
      exact fun _ _ => ⟨rfl, rfl⟩
    · rw [buf]
      exact fun _ _ _ _ => ⟨rfl, rfl⟩
    · rw [last, kept]
      exact fun _ _ _ _ _ _ => ⟨rfl, id⟩
    · exact fun now h => commits now (h l had)
  refine inv.next f ⟨links ▸ inv.shape.ring, ?_, ?_⟩ log ?_ ?_ ?_ ?_ ?_
  · intro c c' k hc hc'
    exact inv.shape.single c c' k ((caches c k).1 hc) ((caches c' k).1 hc')
  · rw [buf]
    exact inv.shape.device
  · intro c
    rw [had, settled.has rfl, Hand.Settled.has (h := .free) trivial rfl, buf]
    unfold held
    rw [pins, lock]
  · intro c locked
    rw [lock] at locked
    rw [buf]
    exact .inl (inv.valid_of_settled had settled locked)
  · rintro m ⟨⟩
    refine ⟨trivial, fun c k h => ?_, own⟩
    obtain ⟨locked, hc⟩ := fact.owns c k h
    exact ⟨lock ▸ locked, (caches c k).2 hc⟩
  · rintro m ⟨⟩ h
    exact (alone h).imp_right fun was => ⟨l, had, was⟩
  · intro k hk
    rw [kept] at hk
    obtain ⟨absent, stored⟩ := inv.content k hk
    refine ⟨fun gone => ?_, fun c hc => ?_⟩
    · rw [disk, last, dirty]
      exact absent fun c hc => gone c ((caches c k).2 hc)
    · refine (stored c ((caches c k).1 hc)).congr (by rw [buf]) (by rw [buf]) (by rw [lock])
        (by rw [disk]) (by rw [last]) (by rw [dirty]) ?_
      rw [Cache.pinned, Cache.pinned, pins]
      exact fun _ => id

/-- The operations are counted, and the entries of the log stay. -/
theorem Inv.counts {n : Int} {now : Bool} {c}
    (closed : now = true → n ≤ 0) (started : now = false → s.installed = 0)
    (commits : s.committing = true → l.commit = none → now = true)
    (own : ∀ d, c = some d → now = true ∧ s.lh = d.1 ∧ s.installed = d.2)
    (alone : c ≠ none → s.committing = false ∨ l.commit ≠ none) :
    Inv g { s with outstanding := n, committing := now }
      (update ls p (some { l with hand := .free, commit := c })) := by
  refine inv.logs had settled ?_ ?_ ?_ ?_ alone
  · exact ⟨rfl, rfl, rfl, rfl, rfl, rfl, rfl, rfl⟩
  · exact inv.log.congr (fun _ => ⟨rfl, rfl⟩) rfl rfl rfl rfl rfl closed started
  · exact fun was idle => ⟨commits was idle, rfl, rfl⟩
  · exact own

theorem begun_inv
    (running : s.committing = false) (eq : s' = { s with outstanding := s.outstanding + 1 }) :
    Inv g s' (update ls p (some { l with hand := .free })) := by
  have not_now : s.committing ≠ true := by simp [running]
  subst eq
  exact inv.counts had settled (fun now => absurd now not_now) inv.log.started
    (fun now => absurd now not_now) (inv.facts p l had).commit fun _ => .inl running

/-- `end_op` of an operation that does not commit. -/
theorem ended_inv
    (eq : s' = { s with outstanding := s.outstanding - 1 }) :
    Inv g s' (update ls p (some { l with hand := .free })) := by
  subst eq
  refine inv.counts had settled (fun now => ?_) inv.log.started (fun now _ => now)
    (inv.facts p l had).commit .inr
  have := inv.log.closed now
  omega

/-- `end_op` of the last operation. -/
theorem committing_inv
    (running : s.committing = false) (last : s.outstanding - 1 = 0)
    (eq : s' = { s with outstanding := s.outstanding - 1, committing := true }) :
    Inv g s' (update ls p (some { l with hand := .free, commit := some (s.lh, 0) })) := by
  subst eq
  refine inv.counts had settled (fun _ => by omega) (fun no => by cases no) (fun _ _ => rfl) ?_
    fun _ => .inl running
  rintro d ⟨⟩
  exact ⟨rfl, rfl, inv.log.started running⟩

/-- `log.lh.n = 0` in `commit`. -/
theorem cleared_inv {lh}
    (commit : l.commit = some (lh, lh.length)) (eq : s' = { s with lh := [], installed := 0 }) :
    Inv g s' (update ls p (some { l with hand := .free, commit := some ([], 0) })) := by
  obtain ⟨now, lh_eq, installed⟩ := (inv.facts p l had).commit _ commit
  have done : pending s = [] := by
    unfold pending
    rw [lh_eq, installed, drop_length]
  have pins := inv.log.pins
  have counted := inv.log.counted
  rw [done] at pins counted
  subst eq
  refine inv.logs had settled ?_ ?_ ?_ ?_ fun _ => .inr (by simp [commit])
  · exact ⟨rfl, rfl, rfl, rfl, rfl, rfl, rfl, rfl⟩
  · exact ⟨nodup_nil, zero_le, by rintro k ⟨⟩, pins, inv.log.closed, fun _ => rfl, counted⟩
  · intro _ no
    rw [no] at commit
    cases commit
  · rintro d ⟨⟩
    exact ⟨now, rfl, rfl⟩

theorem finished_inv
    (commit : l.commit = some ([], 0)) (eq : s' = { s with committing := false }) :
    Inv g s' (update ls p (some { l with hand := .free, commit := none })) := by
  obtain ⟨_, _, installed⟩ := (inv.facts p l had).commit _ commit
  subst eq
  refine inv.counts had settled (fun no => by cases no) (fun _ => installed) (fun _ no => ?_)
    (by rintro d ⟨⟩) fun no => absurd rfl no
  rw [no] at commit
  cases commit

end OsProject.Xv6.BufferCache
