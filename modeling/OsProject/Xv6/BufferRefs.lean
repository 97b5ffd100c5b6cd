import OsProject.Lib.Count
import OsProject.Xv6.BufferCache

/-! # References, pins and contents of buffers

A process in `bget` or at the end of `brelse` has a reference without the lock, its ticket.
With the tickets, the pins and the locks every reference is counted, so a buffer that is
recycled is of use to nobody and its block is as it was left. -/
namespace OsProject.Xv6.BufferCache
open Lib.Circular Lib.Threads Lib.Count
open Bio (Block nbuf)
open Log (logBlocks)
open Function (update update_of_ne update_self)

variable {np : Nat} {g : Device}

def Caches (g : Device) (s : Cache np) (b : Buffer) (k : UInt32) : Prop :=
  (s.buf b).dev = g.dev ∧ (s.buf b).blockno = k

/-! ## What a process knows -/

inductive Hand where
  | free
  | ticket (b : Buffer) (k : UInt32)
  /-- has the lock, and has not looked if the buffer is valid -/
  | fresh (b : Buffer) (k : UInt32)
  /-- has read the block, and not changed it -/
  | got (b : Buffer) (k : UInt32)

structure Loc where
  hand : Hand
  owns : Buffer → Option UInt32
  /-- the log it commits, and how many entries it has installed -/
  commit : Option (List UInt32 × Nat)

def Hand.Fact (g : Device) (s : Cache np) (p : Fin np) : Hand → Prop
  | .free => True
  | .ticket b k => Caches g s b k
  | .fresh b k => s.lock b = some p ∧ Caches g s b k ∧
    ((s.buf b).valid = true → s.kept k = true → (s.buf b).data = s.last k)
  | .got b k => s.lock b = some p ∧ Caches g s b k ∧ (s.buf b).valid = true ∧
    (s.kept k = true → (s.buf b).data = s.last k)

structure Loc.Fact (g : Device) (s : Cache np) (p : Fin np) (l : Loc) : Prop where
  hand : l.hand.Fact g s p
  owns : ∀ b k, l.owns b = some k → s.lock b = some p ∧ Caches g s b k
  commit : ∀ c, l.commit = some c → s.committing = true ∧ s.lh = c.1 ∧ s.installed = c.2

def Hand.ticketed : Hand → Option Buffer
  | .ticket b _ => some b
  | .free | .fresh .. | .got .. => none

/-- The references of a process that has no lock for them. -/
def has (b : Buffer) : Option Loc → Nat
  | some l => if l.hand.ticketed = some b then 1 else 0
  | none => 0

def held (s : Cache np) (b : Buffer) : Nat :=
  s.pins .log b + s.pins .other b + if (s.lock b).isSome then 1 else 0

/-! ## The invariant -/

structure Shape (g : Device) (s : Cache np) : Prop where
  ring : ∃ order, Tied s.links order ∧ ∀ b, b ∈ order
  single : ∀ b b' k, Caches g s b k → Caches g s b' k → b = b'
  device : ∀ b, (s.buf b).dev ≠ g.dev → (s.buf b).refcnt = 0

/-- The entries of the log that are still to be installed. -/
def pending (s : Cache np) : List UInt32 := s.lh.drop s.installed

structure LogPart (g : Device) (s : Cache np) : Prop where
  nodup : s.lh.Nodup
  short : s.lh.length ≤ logBlocks
  cached : ∀ k ∈ pending s, ∃ b, Caches g s b k
  pins : ∀ b, s.pins .log b = if (s.buf b).dev = g.dev ∧ (s.buf b).blockno ∈ pending s then 1 else 0
  closed : s.committing = true → s.outstanding ≤ 0
  started : s.committing = false → s.installed = 0
  counted : ∀ k, s.entered k = s.unpinned k + if k ∈ pending s then 1 else 0

/-- The block in its buffer. -/
structure Stored (s : Cache np) (b : Buffer) (k : UInt32) : Prop where
  invalid : (s.buf b).valid = false → s.disk k = s.last k ∧ s.dirty k = false
  clean : (s.buf b).valid = true → s.dirty k = false → s.disk k = (s.buf b).data
  left : (s.buf b).valid = true → s.lock b = none → (s.buf b).data = s.last k
  safe : s.dirty k = true → (s.lock b).isSome = true ∨ s.pinned b = true

structure Content (g : Device) (s : Cache np) (k : UInt32) : Prop where
  absent : (∀ b, ¬ Caches g s b k) → s.disk k = s.last k ∧ s.dirty k = false
  stored : ∀ b, Caches g s b k → Stored s b k

structure Inv (g : Device) (s : Cache np) (ls : Fin np → Option Loc) : Prop where
  shape : Shape g s
  log : LogPart g s
  refs : ∀ b, (s.buf b).refcnt = held s b + ∑ p, has b (ls p)
  valid : ∀ b p, s.lock b = some p →
    (s.buf b).valid = true ∨ ∃ l k, ls p = some l ∧ l.hand = .fresh b k
  facts : ∀ p l, ls p = some l → l.Fact g s p
  alone : ∀ p q l m, ls p = some l → ls q = some m → l.commit ≠ none → m.commit ≠ none → p = q
  content : ∀ k, s.kept k = true → Content g s k

section facts
variable {s s' : Cache np} {ls : Fin np → Option Loc} {p q : Fin np} {b b' : Buffer}
    {k : UInt32} {l : Loc}

theorem Inv.lock_pos (inv : Inv g s ls) (h : s.lock b = some p) : 0 < (s.buf b).refcnt := by
  rw [inv.refs b, held, h, Option.isSome_some, if_pos rfl]
  omega

theorem Inv.ticket_pos (inv : Inv g s ls) (own : ls p = some l) (h : l.hand = .ticket b k) :
    0 < (s.buf b).refcnt := by
  have mine : has b (ls p) = 1 := by
    rw [own, has, h]
    exact if_pos rfl
  have most := le_sum (fun p => has b (ls p)) p
  rw [inv.refs b]
  omega

theorem Inv.pin_pos (inv : Inv g s ls) (h : s.pinned b = true) : 0 < (s.buf b).refcnt := by
  unfold Cache.pinned at h
  rw [decide_eq_true_iff] at h
  rw [inv.refs b, held]
  omega

theorem Inv.caches (inv : Inv g s ls) (pos : 0 < (s.buf b).refcnt) :
    Caches g s b (s.buf b).blockno := by
  refine ⟨?_, rfl⟩
  by_contra ne
  have := inv.shape.device b ne
  omega

/-- Nobody refers to a buffer with no reference. -/
theorem Inv.unused (inv : Inv g s ls) (zero : (s.buf b).refcnt = 0) :
    s.lock b = none ∧ s.pinned b = false ∧ s.pins .log b = 0 := by
  have all := inv.refs b
  rw [zero, held] at all
  refine ⟨?_, ?_, by omega⟩
  · cases lock : s.lock b with
    | none => rfl
    | some p =>
      have := inv.lock_pos lock
      omega
  · unfold Cache.pinned
    rw [decide_eq_false_iff_not]
    omega

end facts

/-! ## One process moves -/

/-- What a section of `p`, who had `x`, leaves of what the others know. -/
structure Frame (g : Device) (s s' : Cache np) (p : Fin np) (x : Option Loc) : Prop where
  key : ∀ b, 0 < (s.buf b).refcnt →
    (s'.buf b).dev = (s.buf b).dev ∧ (s'.buf b).blockno = (s.buf b).blockno
  lock : ∀ b q, q ≠ p → (s'.lock b = some q ↔ s.lock b = some q)
  body : ∀ b q, q ≠ p → s.lock b = some q →
    (s'.buf b).valid = (s.buf b).valid ∧ (s'.buf b).data = (s.buf b).data
  past : ∀ b q k, q ≠ p → s.lock b = some q → Caches g s b k →
    s'.last k = s.last k ∧ (s'.kept k = true → s.kept k = true)
  log : s.committing = true → (∀ l, x = some l → l.commit = none) →
    s'.committing = true ∧ s'.lh = s.lh ∧ s'.installed = s.installed

section moves
variable {s s' : Cache np} {ls : Fin np → Option Loc} {p q : Fin np} {b : Buffer}
    {k : UInt32} {l : Loc}
  {x : Option Loc}

theorem Frame.caches (f : Frame g s s' p x) (pos : 0 < (s.buf b).refcnt) (h : Caches g s b k) :
    Caches g s' b k := ⟨(f.key b pos).1.trans h.1, (f.key b pos).2.trans h.2⟩

theorem Frame.fact (f : Frame g s s' p (ls p)) (inv : Inv g s ls) (ne : q ≠ p)
    (own : ls q = some l) : l.Fact g s' q := by
  obtain ⟨hand, owns, commit⟩ := inv.facts q l own
  refine ⟨?_, ?_, ?_⟩
  · cases eq : l.hand with
    | free => trivial
    | ticket b k =>
      rw [eq] at hand
      exact f.caches (inv.ticket_pos own eq) hand
    | fresh b k =>
      rw [eq] at hand
      obtain ⟨lock, caches, data⟩ := hand
      refine ⟨(f.lock b q ne).2 lock, f.caches (inv.lock_pos lock) caches, ?_⟩
      obtain ⟨last, kept⟩ := f.past b q k ne lock caches
      rw [(f.body b q ne lock).1, (f.body b q ne lock).2, last]
      exact fun valid h => data valid (kept h)
    | got b k =>
      rw [eq] at hand
      obtain ⟨lock, caches, valid, data⟩ := hand
      obtain ⟨last, kept⟩ := f.past b q k ne lock caches
      refine ⟨(f.lock b q ne).2 lock, f.caches (inv.lock_pos lock) caches, ?_, ?_⟩
      · rw [(f.body b q ne lock).1]
        exact valid
      · rw [(f.body b q ne lock).2, last]
        exact fun h => data (kept h)
  · intro b k h
    obtain ⟨lock, caches⟩ := owns b k h
    exact ⟨(f.lock b q ne).2 lock, f.caches (inv.lock_pos lock) caches⟩
  · intro c h
    obtain ⟨now, lh, installed⟩ := commit c h
    have other : ∀ m, ls p = some m → m.commit = none := by
      intro m mine
      by_contra some_commit
      exact ne (inv.alone q p l m own mine (by simp [h]) some_commit)
    obtain ⟨now', lh', installed'⟩ := f.log now other
    exact ⟨now', lh'.trans lh, installed'.trans installed⟩

theorem Inv.next (inv : Inv g s ls) (f : Frame g s s' p (ls p)) (shape : Shape g s')
    (log : LogPart g s')
    (refs : ∀ b, (s'.buf b).refcnt + held s b + has b (ls p) =
      (s.buf b).refcnt + held s' b + has b x)
    (valid : ∀ b, s'.lock b = some p →
      (s'.buf b).valid = true ∨ ∃ l k, x = some l ∧ l.hand = .fresh b k)
    (own : ∀ l, x = some l → l.Fact g s' p) (alone : ∀ l, x = some l → l.commit ≠ none →
      s.committing = false ∨ ∃ m, ls p = some m ∧ m.commit ≠ none)
    (content : ∀ k, s'.kept k = true → Content g s' k) : Inv g s' (update ls p x) where
  shape := shape
  log := log
  refs b := by
    have old := inv.refs b
    have change := refs b
    have sum := sum_change (fun p => has b (ls p)) (fun q => has b (update ls p x q)) p fun q ne =>
      by rw [update_of_ne ne]
    rw [update_self] at sum
    omega
  valid := by
    intro b q h
    by_cases eq : q = p
    · subst eq
      rw [update_self]
      exact valid b h
    · rw [update_of_ne eq]
      have lock := (f.lock b q eq).1 h
      rw [(f.body b q eq lock).1]
      exact inv.valid b q lock
  facts := by
    intro q l h
    obtain ⟨rfl, mine⟩ | ⟨ne, h⟩ := update_eq_some h
    · exact own l mine
    · exact f.fact inv ne h
  alone := by
    have mine : ∀ q l m, q ≠ p → x = some l → ls q = some m → l.commit ≠ none →
        m.commit ≠ none → False := by
      intro q l m ne hx hq hl hm
      obtain idle | ⟨m', had, was⟩ := alone l hx hl
      · obtain ⟨c, hc⟩ := Option.ne_none_iff_exists'.1 hm
        have := ((inv.facts q m hq).commit c hc).1
        rw [idle] at this
        cases this
      · exact ne (inv.alone q p m m' hq had hm was)
    intro q r l m now now' hl hm
    obtain ⟨rfl, hx⟩ | ⟨ne, hq⟩ := update_eq_some now <;> obtain ⟨rfl, hx'⟩ | ⟨ne', hr⟩ :=
      update_eq_some now'
    · rfl
    · exact (mine r l m ne' hx hr hl hm).elim
    · exact (mine q m l ne hx' hq hm hl).elim
    · exact inv.alone q r l m hq hr hl hm
  content := content

/-- The cache and the log stay as they are. -/
theorem Inv.think (inv : Inv g s ls) (has_eq : ∀ b, has b (ls p) = has b x)
    (valid : ∀ b l k, ls p = some l → l.hand = .fresh b k → ∃ l', x = some l' ∧
      l'.hand = .fresh b k)
    (own : ∀ l, x = some l → l.Fact g s p)
    (commit : ∀ l, x = some l → l.commit ≠ none → ∃ m, ls p = some m ∧ m.commit ≠ none) :
    Inv g s (update ls p x) := by
  have f : Frame g s s p (ls p) :=
    ⟨fun _ _ => ⟨rfl, rfl⟩, fun _ _ _ => .rfl, fun _ _ _ _ => ⟨rfl, rfl⟩,
      fun _ _ _ _ _ _ => ⟨rfl, id⟩, fun now _ => ⟨now, rfl, rfl⟩⟩
  refine inv.next f inv.shape inv.log ?_ ?_ own (fun l hx hl => .inr (commit l hx hl)) inv.content
  · intro b
    rw [has_eq b]
  · intro b lock
    obtain valid' | ⟨l, k, had, fresh⟩ := inv.valid b p lock
    · exact .inl valid'
    · obtain ⟨l', hx, fresh'⟩ := valid b l k had fresh
      exact .inr ⟨l', k, hx, fresh'⟩

end moves

/-! ## Sections on one buffer -/

/-- Only the buffer `b` and its block are touched, and the buffer keeps its block. -/
structure Touch (s s' : Cache np) (b : Buffer) : Prop where
  key : (s'.buf b).dev = (s.buf b).dev ∧ (s'.buf b).blockno = (s.buf b).blockno
  buf : ∀ c, c ≠ b → s'.buf c = s.buf c
  lock : ∀ c, c ≠ b → s'.lock c = s.lock c
  pins : ∀ c w, c ≠ b → s'.pins w c = s.pins w c
  block : ∀ k, k ≠ (s.buf b).blockno → s'.disk k = s.disk k ∧ s'.last k = s.last k ∧
    s'.dirty k = s.dirty k ∧ s'.kept k = s.kept k

/-- The log is as it was. -/
structure SameLog (s s' : Cache np) : Prop where
  lh : s'.lh = s.lh
  installed : s'.installed = s.installed
  outstanding : s'.outstanding = s.outstanding
  committing : s'.committing = s.committing
  pins : s'.pins .log = s.pins .log
  entered : s'.entered = s.entered
  unpinned : s'.unpinned = s.unpinned

section touch
variable {s s' : Cache np} {ls : Fin np → Option Loc} {p q : Fin np} {b c : Buffer}
    {k : UInt32} {l : Loc}
  {x : Option Loc}

theorem Touch.keys (t : Touch s s' b) (c : Buffer) :
    (s'.buf c).dev = (s.buf c).dev ∧ (s'.buf c).blockno = (s.buf c).blockno := by
  by_cases eq : c = b
  · rw [eq]
    exact t.key
  · rw [t.buf c eq]
    exact ⟨rfl, rfl⟩

theorem Touch.caches (t : Touch s s' b) : Caches g s' c k ↔ Caches g s c k := by
  unfold Caches
  rw [(t.keys c).1, (t.keys c).2]

theorem Touch.held (t : Touch s s' b) (ne : c ≠ b) : held s' c = held s c := by
  unfold BufferCache.held
  rw [t.pins c .log ne, t.pins c .other ne, t.lock c ne]

theorem Touch.pinned (t : Touch s s' b) (ne : c ≠ b) : s'.pinned c = s.pinned c := by
  unfold Cache.pinned
  rw [t.pins c .log ne, t.pins c .other ne]

/-- The log is about the blocks of the buffers, and not about their contents. -/
theorem LogPart.congr (h : LogPart g s)
    (keys : ∀ c, (s'.buf c).dev = (s.buf c).dev ∧ (s'.buf c).blockno = (s.buf c).blockno)
    (lh : s'.lh = s.lh)
    (installed : s'.installed = s.installed) (pins : s'.pins .log = s.pins .log)
    (entered : s'.entered = s.entered)
    (unpinned : s'.unpinned = s.unpinned) (closed : s'.committing = true → s'.outstanding ≤ 0)
    (started : s'.committing = false → s'.installed = 0) : LogPart g s' := by
  have rest : pending s' = pending s := by
    unfold pending
    rw [lh, installed]
  refine ⟨lh ▸ h.nodup, lh ▸ h.short, fun k mem => ?_, fun c => ?_, closed, started, fun k => ?_⟩
  · rw [rest] at mem
    obtain ⟨c, hc⟩ := h.cached k mem
    exact ⟨c, (keys c).1.trans hc.1, (keys c).2.trans hc.2⟩
  · rw [pins, rest, (keys c).1, (keys c).2]
    exact h.pins c
  · rw [entered, unpinned, rest]
    exact h.counted k

theorem LogPart.same (h : LogPart g s) (same : SameLog s s') (t : Touch s s' b) : LogPart g s' := by
  refine h.congr t.keys same.lh same.installed same.pins same.entered same.unpinned ?_ ?_
  · rw [same.committing, same.outstanding]
    exact h.closed
  · rw [same.committing, same.installed]
    exact h.started

theorem Stored.congr (h : Stored s c k) (valid : (s'.buf c).valid = (s.buf c).valid)
    (data : (s'.buf c).data = (s.buf c).data) (lock : s'.lock c = s.lock c)
    (disk : s'.disk k = s.disk k) (last : s'.last k = s.last k) (dirty : s'.dirty k = s.dirty k)
    (safe : s.dirty k = true → (s.lock c).isSome = true ∨ s.pinned c = true →
      (s.lock c).isSome = true ∨ s'.pinned c = true) : Stored s' c k := by
  refine ⟨?_, ?_, ?_, ?_⟩
  · rw [valid, disk, last, dirty]
    exact h.invalid
  · rw [valid, data, disk, dirty]
    exact h.clean
  · rw [valid, data, lock, last]
    exact h.left
  · rw [lock, dirty]
    exact fun now => safe now (h.safe now)

/-- The block in a buffer that somebody has locked. -/
theorem Stored.locked (lock : s.lock c = some p)
    (invalid : (s.buf c).valid = false → s.disk k = s.last k ∧ s.dirty k = false)
    (clean : (s.buf c).valid = true → s.dirty k = false → s.disk k = (s.buf c).data) :
    Stored s c k := by
  refine ⟨invalid, clean, ?_, ?_⟩ <;> rw [lock]
  · exact fun _ no => by cases no
  · exact fun _ => .inl rfl

theorem Stored.other (h : Stored s c k) (t : Touch s s' b) (ne : c ≠ b)
    (nk : k ≠ (s.buf b).blockno) : Stored s' c k := by
  obtain ⟨disk, last, dirty, _⟩ := t.block k nk
  refine h.congr ?_ ?_ (t.lock c ne) disk last dirty ?_
  · rw [t.buf c ne]
  · rw [t.buf c ne]
  · rw [t.pinned ne]
    exact fun _ => id

theorem Inv.touch (inv : Inv g s ls) (t : Touch s s' b) (here : Caches g s b (s.buf b).blockno)
    (ring : ∃ order, Tied s'.links order ∧ ∀ b, b ∈ order) (log : LogPart g s')
    (commits : s.committing = true → (∀ l, ls p = some l → l.commit = none) →
      s'.committing = true ∧ s'.lh = s.lh ∧ s'.installed = s.installed)
    (lock : ∀ q, q ≠ p → (s'.lock b = some q ↔ s.lock b = some q))
    (body : ∀ q, q ≠ p → s.lock b = some q → (s'.buf b).valid = (s.buf b).valid ∧
      (s'.buf b).data = (s.buf b).data ∧ s'.last (s.buf b).blockno = s.last (s.buf b).blockno)
    (kept : s'.kept (s.buf b).blockno = true → s.kept (s.buf b).blockno = true)
    (refs : (s'.buf b).refcnt + held s b + has b (ls p) = (s.buf b).refcnt + held s' b + has b x)
    (has_eq : ∀ c, c ≠ b → has c (ls p) = has c x)
    (valid : s'.lock b = some p → (s'.buf b).valid = true ∨ ∃ l k, x = some l ∧ l.hand = .fresh b k)
    (fresh : ∀ c l k, c ≠ b → ls p = some l → l.hand = .fresh c k → ∃ l', x = some l' ∧
      l'.hand = .fresh c k)
    (own : ∀ l, x = some l → l.Fact g s' p)
    (commit : ∀ l, x = some l → l.commit ≠ none → ∃ m, ls p = some m ∧ m.commit ≠ none)
    (stored : s'.kept (s.buf b).blockno = true → Stored s b (s.buf b).blockno →
      Stored s' b (s.buf b).blockno) : Inv g s' (update ls p x) := by
  have apart : ∀ c k, c ≠ b → Caches g s c k → k ≠ (s.buf b).blockno := by
    rintro c k ne hc rfl
    exact ne (inv.shape.single c b _ hc here)
  have f : Frame g s s' p (ls p) := by
    refine ⟨fun c _ => t.keys c, ?_, ?_, ?_, commits⟩
    · intro c q ne
      by_cases eq : c = b
      · rw [eq]
        exact lock q ne
      · rw [t.lock c eq]
    · intro c q ne locked
      by_cases eq : c = b
      · rw [eq] at locked ⊢
        exact ⟨(body q ne locked).1, (body q ne locked).2.1⟩
      · rw [t.buf c eq]
        exact ⟨rfl, rfl⟩
    · intro c q k ne locked caches
      by_cases eq : c = b
      · rw [eq] at locked caches
        rw [← caches.2]
        exact ⟨(body q ne locked).2.2, kept⟩
      · obtain ⟨_, last, _, same⟩ := t.block k (apart c k eq caches)
        rw [last, same]
        exact ⟨rfl, id⟩
  refine inv.next f ⟨ring, ?_, ?_⟩ log ?_ ?_ own (fun l hx hl => .inr (commit l hx hl)) ?_
  · intro c c' k hc hc'
    exact inv.shape.single c c' k (t.caches.1 hc) (t.caches.1 hc')
  · intro c ne
    rw [(t.keys c).1] at ne
    have other : c ≠ b := by
      rintro rfl
      exact ne here.1
    rw [t.buf c other]
    exact inv.shape.device c ne
  · intro c
    by_cases eq : c = b
    · rw [eq]
      exact refs
    · rw [t.buf c eq, t.held eq, has_eq c eq]
  · intro c locked
    by_cases eq : c = b
    · rw [eq] at locked ⊢
      exact valid locked
    · rw [t.lock c eq] at locked
      rw [t.buf c eq]
      refine (inv.valid c p locked).imp_right ?_
      rintro ⟨l, k, had, hand⟩
      obtain ⟨l', hx, hand'⟩ := fresh c l k eq had hand
      exact ⟨l', k, hx, hand'⟩
  · intro k hk
    by_cases eq : k = (s.buf b).blockno
    · subst eq
      have old := inv.content _ (kept hk)
      refine ⟨fun absent => absurd (t.caches.2 here) (absent b), ?_⟩
      intro c hc
      obtain rfl := inv.shape.single c b _ (t.caches.1 hc) here
      exact stored hk (old.stored c here)
    · obtain ⟨disk, last, dirty, same⟩ := t.block k eq
      rw [same] at hk
      have old := inv.content k hk
      refine ⟨?_, ?_⟩
      · intro absent
        rw [disk, last, dirty]
        exact old.absent fun c hc => absent c (t.caches.2 hc)
      · intro c hc
        have ne : c ≠ b := by
          rintro rfl
          exact eq (t.caches.1 hc).2.symm
        exact (old.stored c (t.caches.1 hc)).other t ne eq

end touch

end OsProject.Xv6.BufferCache
