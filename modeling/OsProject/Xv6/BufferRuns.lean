import OsProject.Lib.Outcome
import OsProject.Xv6.BufferSteps

/-! # The buffer cache over whole runs

The code of `bio.c` and of `commit` keeps to what the sections need, so every interleaving
keeps the invariant. -/
namespace OsProject.Xv6.BufferCache
open Lib.Circular Lib.Outcome Lib.Threads Lib.Transition List Option
open Bio (Block nbuf)
open Log (logBlocks)
open Function (update update_of_ne update_self update_idem)

variable {np : Nat} {g : Device} {s s' : Cache np} {ls : Fin np → Option Loc} {p : Fin np}
  {b : Buffer} {k : UInt32} {l l' : Loc}

/-! ## What the sections need and leave -/

def Loc.Owns (l : Loc) (b : Buffer) : Prop := ∃ k, l.owns b = some k

def pre (_ : Fin np) (o : Op) (l : Loc) : Prop :=
  match o with
  | .acquiresleep b | .release b => ∃ k, l.hand = .ticket b k
  | .fill b => ∃ k, l.hand = .fresh b k
  | .bget _ | .holdingsleep _ | .data _ | .beginOp | .endOp | .panic => l.hand.Settled
  | .write b | .releasesleep b | .store b _ => l.hand.Settled ∧ l.Owns b
  | .unpinInstalled b =>
    l.hand.Settled ∧ ∃ lh t k, l.commit = some (lh, t) ∧ lh[t]? = some k ∧ l.owns b = some k
  | .header => l.hand.Settled ∧ l.commit ≠ none
  | .clear => l.hand.Settled ∧ ∃ lh, l.commit = some (lh, lh.length)
  | .finish => l.hand.Settled ∧ l.commit = some ([], 0)

/-- The answer of `holdingsleep`, and what follows from it. -/
def Answers (b : Buffer) (l l' : Loc) : Bool → Prop
  | true => ∃ k, l' = { l with owns := update l.owns b (some k) } ∧ ∀ j, l.owns b = some j → j = k
  | false => l.owns b = none ∧ l' = l

/-- The process starts to commit, or not. -/
def Ends (l l' : Loc) : Bool → Prop
  | true => ∃ lh, lh.length ≤ logBlocks ∧ l' = { l with hand := .free, commit := some (lh, 0) }
  | false => l' = { l with hand := .free }

def post (_ : Fin np) (o : Op) (l : Loc) (r : Res o) (l' : Loc) : Prop :=
  match o with
  | .bget k =>
    let b : Buffer := r
    l' = { l with hand := .ticket b k }
  | .acquiresleep b => ∃ k, l.hand = .ticket b k ∧ l' = { l with hand := .fresh b k }
  | .fill b => ∃ k, l.hand = .fresh b k ∧
    l' = { l with hand := .got b k, owns := update l.owns b (some k) }
  | .holdingsleep b => Answers b l l' r
  | .write _ | .data _ => l' = l
  | .releasesleep b => ∃ k, l.owns b = some k ∧
    l' = { l with hand := .ticket b k, owns := update l.owns b none }
  | .release _ | .store .. | .beginOp => l' = { l with hand := .free }
  | .unpinInstalled _ => ∃ lh t, l.commit = some (lh, t) ∧
    l' = { l with hand := .free, commit := some (lh, t + 1) }
  | .header => l' = l ∧ ∃ t, l.commit = some (r, t)
  | .clear => l' = { l with hand := .free, commit := some ([], 0) }
  | .endOp => Ends l l' r
  | .finish => l' = { l with hand := .free, commit := none }
  | .panic => False

/-! ## The sections keep to it -/

theorem order_short {order : List Buffer} (nodup : order.Nodup) : order.length < rounds := by
  have := nodup.length_le_card
  exact Nat.lt_succ_of_le this

/-- What `bget` comes to. -/
theorem bget_cases (shape : Shape g s) {r : Option Buffer} (h : bget g s k = some (r, s')) :
    (∃ b, r = some b ∧ Caches g s b k ∧
      s' = s.setBuf b { s.buf b with refcnt := (s.buf b).refcnt + 1 }) ∨
    (∃ b, r = some b ∧ (∀ c, ¬ Caches g s c k) ∧ (s.buf b).refcnt = 0 ∧
      s' = s.setBuf b { s.buf b with dev := g.dev, blockno := k, valid := false, refcnt := 1 }) ∨
    r = none ∧ s' = s := by
  obtain ⟨order, tied, all⟩ := shape.ring
  have short := order_short tied.nodup
  unfold bget at h
  rw [tied.scan_next short, tied.scan_prev short] at h
  cases found : order.find? fun b => decide ((s.buf b).dev = g.dev ∧ (s.buf b).blockno = k) with
  | some b =>
    rw [found] at h
    cases h
    exact .inl ⟨b, rfl, by simpa [Caches] using find?_some found, rfl⟩
  | none =>
    have absent : ∀ c, ¬ Caches g s c k := by
      intro c hc
      have := find?_eq_none.1 found c (all c)
      exact this (by simpa [Caches] using hc)
    rw [found] at h
    cases free : order.reverse.find? fun b => decide ((s.buf b).refcnt = 0) with
    | some b =>
      rw [free] at h
      cases h
      exact .inr (.inl ⟨b, rfl, absent, by simpa using find?_some free, rfl⟩)
    | none =>
      rw [free] at h
      cases h
      exact .inr (.inr ⟨rfl, rfl⟩)

/-- Nothing in the cache changes, and the process has nothing in its hands. -/
theorem Inv.know (inv : Inv g s ls) (had : ls p = some l) (settled : l.hand.Settled) (l' : Loc)
    (hand : l'.hand = l.hand) (commit : l'.commit = l.commit)
    (owns : ∀ c j, l'.owns c = some j → s.lock c = some p ∧ Caches g s c j) :
    Inv g s (update ls p (some l')) := by
  have fact := inv.facts p l had
  refine inv.think ?_ ?_ ?_ ?_
  · intro c
    rw [had, settled.has rfl, settled.has hand]
  · intro c m j own fresh
    rw [had] at own
    cases own
    rw [fresh] at settled
    exact settled.elim
  · intro m hm
    cases hm
    exact ⟨hand ▸ fact.hand, owns, fun c hc => fact.commit c (commit ▸ hc)⟩
  · intro m hm h
    cases hm
    exact ⟨l, had, commit ▸ h⟩

theorem Inv.leave (inv : Inv g s ls) (had : ls p = some l) (settled : l.hand.Settled) :
    Inv g s (update ls p none) := by
  refine inv.think ?_ ?_ (fun m hm => by cases hm) fun m hm => by cases hm
  · intro c
    rw [had, settled.has rfl]
    rfl
  · intro c m j own fresh
    rw [had] at own
    cases own
    rw [fresh] at settled
    exact settled.elim

theorem exec_leaves {o c} (inv : Inv g s ls) (had : ls p = some l) (need : pre p o l) :
    Yields (exec g p o c s) (Leaves (Inv g) ls p (post p o l)) := by
  have fact := inv.facts p l had
  cases o with
  | bget k =>
    rintro ⟨r, s'⟩ h
    obtain ⟨b, rfl, caches, rfl⟩ | ⟨b, rfl, absent, zero, rfl⟩ | ⟨rfl, rfl⟩ :=
      bget_cases inv.shape h
    · exact ⟨_, rfl, cached_inv inv had need caches rfl⟩
    · exact ⟨_, rfl, recycled_inv inv had need absent zero rfl⟩
    · exact inv.leave had need
  | acquiresleep b =>
    obtain ⟨k, hand⟩ := need
    exact .when fun free => .some ⟨_, ⟨k, hand, rfl⟩, acquired_inv inv had hand free rfl⟩
  | fill b =>
    obtain ⟨k, hand⟩ := need
    exact .some ⟨_, ⟨k, hand, rfl⟩, filled_inv inv had hand rfl⟩
  | holdingsleep b =>
    refine .some ?_
    by_cases lock : s.lock b = some p
    · rw [decide_eq_true lock]
      have here := inv.caches (inv.lock_pos lock)
      refine ⟨_, ⟨_, rfl, fun j hj => (fact.owns b j hj).2.2.symm⟩, inv.know had need _ rfl rfl ?_⟩
      intro c j hc
      obtain ⟨_, hc⟩ | ⟨rfl, _, caches⟩ := gain_owns lock here hc
      · exact fact.owns c j hc
      · exact ⟨lock, caches⟩
    · rw [decide_eq_false lock]
      refine ⟨l, ⟨?_, rfl⟩, inv.know had need l rfl rfl fact.owns⟩
      cases own : l.owns b with
      | none => rfl
      | some j => exact absurd (fact.owns b j own).1 lock
  | write b =>
    obtain ⟨settled, k, owns⟩ := need
    exact .some ⟨l, rfl, written_inv inv had settled owns rfl⟩
  | releasesleep b =>
    obtain ⟨settled, k, owns⟩ := need
    exact .some ⟨_, ⟨k, owns, rfl⟩, unlocked_inv inv had settled owns rfl⟩
  | release b =>
    obtain ⟨k, hand⟩ := need
    exact .some ⟨_, rfl, released_inv inv had hand rfl⟩
  | data b => exact .some ⟨l, rfl, inv.know had need l rfl rfl fact.owns⟩
  | store b v =>
    obtain ⟨settled, k, owns⟩ := need
    have lock := (fact.owns b k owns).1
    refine .some ⟨_, rfl, stored_inv inv lock (inv.valid_of_settled had settled lock)
      (.settled had settled trivial ?_ id)⟩
    exact store_touch.fact ⟨rfl, rfl, rfl, rfl, rfl, rfl, rfl⟩ fact trivial rfl (fact.keep rfl)
  | unpinInstalled b =>
    obtain ⟨settled, lh, t, k, commit, next, owns⟩ := need
    exact .some ⟨_, ⟨lh, t, commit, rfl⟩, unpinned_inv inv had settled owns commit next rfl⟩
  | header =>
    obtain ⟨settled, some_commit⟩ := need
    obtain ⟨c, hc⟩ := ne_none_iff_exists'.1 some_commit
    have lh := (fact.commit c hc).2.1
    refine .some ⟨l, ⟨rfl, c.2, ?_⟩, inv.know had settled l rfl rfl fact.owns⟩
    rw [hc, lh]
    rfl
  | clear =>
    obtain ⟨settled, lh, commit⟩ := need
    exact .some ⟨_, rfl, cleared_inv inv had settled commit rfl⟩
  | beginOp =>
    refine .whenNot fun running => .whenNot fun _ => .some ⟨_, rfl, ?_⟩
    exact begun_inv inv had need (by simpa using running) rfl
  | endOp =>
    unfold exec
    dsimp only
    split
    · have next := ended_inv inv had need rfl
      have left := next.leave (update_self ..) trivial
      rw [update_idem] at left
      exact .some left
    · rename_i running
      have running : s.committing = false := by simpa using running
      split
      · rename_i last
        exact .some ⟨_, ⟨s.lh, inv.log.short, rfl⟩, committing_inv inv had need running last rfl⟩
      · exact .some ⟨_, rfl, ended_inv inv had need rfl⟩
  | finish => exact .some ⟨_, rfl, finished_inv inv had need.1 need.2 rfl⟩
  | panic => exact .some (inv.leave had need)

/-- What a process has when its call returns. -/
def done : Ret → Loc → Prop
  | .bread k b, l => l.hand = .got b k
  | .unit, l => l.hand.Settled

def protocol (np : Nat) (g : Device) :
    Protocol (exec g : Exec (Fin np) Res Unit (Cache np)) Loc Ret where
  Inv := Inv g
  pre := pre
  post := post
  done := done
  sound inv had need st := exec_leaves inv had need _ st
  gone inv had need st := exec_leaves inv had need _ st
  leave := by
    intro s ls i l a inv had fin
    refine inv.leave had ?_
    cases a with
    | bread k b =>
      rw [show l.hand = .got b k from fin]
      trivial
    | unit => exact fin

/-! ## The code keeps to it -/

section rules
open Protocol

theorem wp_bread {Q} (settled : l.hand.Settled)
    (h : ∀ b, Q b { l with hand := .got b k, owns := update l.owns b (some k) }) :
    (protocol np g).wp p (bread k) Q l := by
  refine wp_bind (wp_perform settled ?_)
  rintro b _ rfl
  refine wp_bind (wp_perform ⟨k, rfl⟩ ?_)
  rintro _ _ ⟨j, eq, rfl⟩
  obtain ⟨_, rfl⟩ := Hand.ticket.inj eq
  refine wp_bind (wp_perform ⟨k, rfl⟩ ?_)
  rintro _ _ ⟨j, eq, rfl⟩
  obtain ⟨_, rfl⟩ := Hand.fresh.inj eq
  exact h b

/-- The test of the lock, by a process that may have it. -/
theorem wp_holdingsleep {Q} (settled : l.hand.Settled)
    (yes : ∀ k, (∀ j, l.owns b = some j → j = k) →
      Q true { l with owns := update l.owns b (some k) })
    (no : l.owns b = none → Q false l) : (protocol np g).wp p (holdingsleep b) Q l := by
  refine wp_perform settled ?_
  intro r l' ans
  cases r with
  | true =>
    obtain ⟨k, rfl, same⟩ := ans
    exact yes k same
  | false =>
    obtain ⟨free, rfl⟩ := ans
    exact no free

theorem wp_panic {Q} (settled : l.hand.Settled) :
    (protocol np g).wp p panic Q l := wp_perform settled fun _ _ no => no.elim

/-- `bwrite`, which comes back only to the holder of the lock. -/
theorem wp_bwrite {Q} (settled : l.hand.Settled) (h : ∀ k, (∀ j, l.owns b = some j → j = k) →
      Q () { l with owns := update l.owns b (some k) }) :
    (protocol np g).wp p (bwrite b) Q l := by
  refine wp_bind (wp_holdingsleep settled ?_ fun _ => wp_panic settled)
  intro k same
  refine wp_perform ⟨settled, k, update_self ..⟩ ?_
  rintro _ _ rfl
  exact h k same

theorem wp_brelse {Q} (settled : l.hand.Settled)
    (h : Q () { l with hand := .free, owns := update l.owns b none }) :
    (protocol np g).wp p (brelse b) Q l := by
  refine wp_bind (wp_holdingsleep settled ?_ fun _ => wp_panic settled)
  intro k _
  refine wp_bind (wp_perform ⟨settled, k, update_self ..⟩ ?_)
  rintro _ _ ⟨j, _, rfl⟩
  refine wp_perform ⟨j, rfl⟩ ?_
  rintro _ _ rfl
  have same : update (update l.owns b (some k)) b none = update l.owns b none := update_idem ..
  rw [same]
  exact h

theorem wp_dataOf {Q} (settled : l.hand.Settled) (h : ∀ v, Q v l) :
    (protocol np g).wp p (dataOf b) Q l := by
  refine wp_perform settled ?_
  rintro v _ rfl
  exact h v

theorem wp_setData {v Q} (settled : l.hand.Settled) (owns : l.Owns b)
    (h : Q () { l with hand := .free }) : (protocol np g).wp p (setData b v) Q l := by
  refine wp_perform ⟨settled, owns⟩ ?_
  rintro _ _ rfl
  exact h

theorem wp_header {lh t Q} (settled : l.hand.Settled)
    (commit : l.commit = some (lh, t)) (h : Q lh l) : (protocol np g).wp p header Q l := by
  refine wp_perform ⟨settled, by simp [commit]⟩ ?_
  rintro r _ ⟨rfl, u, eq⟩
  cases commit.symm.trans eq
  exact h

/-- The process commits `lh`, and has installed `t` entries of it. -/
structure Commits (lh : List UInt32) (t : Nat) (l : Loc) : Prop where
  settled : l.hand.Settled
  commit : l.commit = some (lh, t)

theorem wp_copyEntry {lh t tail} (h : Commits lh t l) :
    (protocol np g).wp p (copyEntry g tail k) (fun _ => Commits lh t) l := by
  refine wp_bind (wp_bread h.settled fun a => ?_)
  refine wp_bind (wp_bread trivial fun b => ?_)
  refine wp_bind (wp_dataOf trivial fun v => ?_)
  have owns : ∃ j, update (update l.owns a (some (g.block tail))) b (some k) a = some j := by
    by_cases eq : a = b
    · rw [eq, update_self]
      exact ⟨k, rfl⟩
    · rw [update_of_ne eq, update_self]
      exact ⟨_, rfl⟩
  refine wp_bind (wp_setData trivial owns ?_)
  refine wp_bind (wp_bwrite trivial fun _ _ => ?_)
  refine wp_bind (wp_brelse trivial ?_)
  refine wp_brelse trivial ?_
  exact ⟨trivial, h.commit⟩

theorem wp_installEntry {lh tail} (h : Commits lh tail l) (entry : lh[tail]? = some k) :
    (protocol np g).wp p (installEntry g tail k) (fun _ => Commits lh (tail + 1)) l := by
  refine wp_bind (wp_bread h.settled fun a => ?_)
  refine wp_bind (wp_bread trivial fun b => ?_)
  refine wp_bind (wp_dataOf trivial fun v => ?_)
  refine wp_bind (wp_setData trivial ⟨k, update_self ..⟩ ?_)
  refine wp_bind (wp_bwrite trivial fun j same => ?_)
  obtain rfl := same k (update_self ..)
  refine wp_bind (wp_perform ⟨trivial, lh, tail, k, h.commit, entry, update_self ..⟩ ?_)
  rintro _ _ ⟨lh', t', eq, rfl⟩
  cases h.commit.symm.trans eq
  refine wp_bind (wp_brelse trivial ?_)
  refine wp_brelse trivial ?_
  exact ⟨trivial, rfl⟩

/-- A loop over the entries, with what holds before each of them. -/
theorem wp_eachEntry {body lh} {P : Nat → Loc → Prop}
    {Q} (knows : ∀ i l, P i l → ∃ t, Commits lh t l)
    (next : ∀ i k l, P i l → lh[i]? = some k →
      (protocol np g).wp p (body i k) (fun _ => P (i + 1)) l)
    (exit : ∀ i l, P i l → lh.length ≤ i → Q () l) (n i : Nat) (l : Loc) (h : P i l)
    (enough : lh.length ≤ i + n) : (protocol np g).wp p (eachEntry body n i) Q l := by
  induction n generalizing i l with
  | zero => exact exit i l h enough
  | succ n ih =>
    obtain ⟨t, commits⟩ := knows i l h
    refine wp_bind (wp_header commits.settled commits.commit ?_)
    cases entry : lh[i]? with
    | none => exact exit i l h (getElem?_eq_none_iff.1 entry)
    | some k =>
      refine wp_bind (wp_mono (next i k l h entry) ?_)
      intro _ l' h'
      exact ih (i + 1) l' h' (by omega)

theorem wp_writeHead {lh t} (h : Commits lh t l) :
    (protocol np g).wp p (writeHead g) (fun _ => Commits lh t) l := by
  refine wp_bind (wp_bread h.settled fun a => ?_)
  refine wp_bind (wp_header trivial (h.commit : _ = some (lh, t)) ?_)
  refine wp_bind (wp_dataOf trivial fun v => ?_)
  refine wp_bind (wp_setData trivial ⟨_, update_self ..⟩ ?_)
  refine wp_bind (wp_bwrite trivial fun _ _ => ?_)
  refine wp_brelse trivial ?_
  exact ⟨trivial, h.commit⟩

theorem wp_commit {lh} (short : lh.length ≤ logBlocks) (h : Commits lh 0 l) :
    (protocol np g).wp p (commit g) (fun _ => Commits [] 0) l := by
  refine wp_bind (wp_header h.settled h.commit ?_)
  by_cases some_entry : 0 < lh.length
  · rw [if_pos some_entry]
    refine wp_bind (wp_eachEntry (P := fun _ => Commits lh 0) (fun _ l h => ⟨0, h⟩)
      (fun _ _ _ h _ => wp_copyEntry h) (fun _ l h _ => ?_) _ 0 l h (by omega))
    refine wp_bind (wp_mono (wp_writeHead h) fun _ l h => ?_)
    refine wp_bind (wp_eachEntry (P := fun i l => i ≤ lh.length ∧ Commits lh i l)
      (fun i l h => ⟨i, h.2⟩) ?_ ?_ _ 0 l ⟨zero_le, h⟩ (by omega))
    · intro i k l h entry
      refine wp_mono (wp_installEntry h.2 entry) fun _ l h => ⟨?_, h⟩
      exact (List.getElem?_eq_some_iff.1 entry).1
    · intro i l h last
      obtain rfl := le_antisymm h.1 last
      refine wp_bind (wp_perform ⟨h.2.settled, lh, h.2.commit⟩ ?_)
      rintro _ _ rfl
      exact wp_writeHead ⟨trivial, rfl⟩
  · obtain rfl := length_eq_zero_iff.1 (Nat.eq_zero_of_not_pos some_entry)
    exact h

theorem wp_call {c : Call} (settled : l.hand.Settled) : (protocol np g).wp p (c.code g) done l := by
  cases c with
  | bread k =>
    refine wp_bind (wp_bread settled fun b => ?_)
    exact rfl
  | bwrite b =>
    refine wp_bind (wp_bwrite settled fun _ _ => ?_)
    exact settled
  | brelse b =>
    refine wp_bind (wp_brelse settled ?_)
    exact trivial
  | beginOp =>
    refine wp_bind (wp_perform settled ?_)
    rintro _ _ rfl
    exact trivial
  | endOp =>
    refine wp_bind (wp_bind (wp_perform settled ?_))
    intro r l' h
    cases r with
    | false =>
      obtain rfl := h
      exact trivial
    | true =>
      obtain ⟨lh, short, rfl⟩ := h
      refine wp_bind (wp_mono (wp_commit short ⟨trivial, rfl⟩) ?_)
      intro _ l h
      refine wp_perform ⟨h.settled, h.commit⟩ ?_
      rintro _ _ rfl
      exact trivial

end rules

/-! ## Runs -/

theorem binit_inv (g : Device) (disk : UInt32 → Block) :
    Inv g (binit disk : Cache np) fun _ => none where
  shape := by
    refine ⟨⟨(List.finRange nbuf).reverse ++ [], ?_, fun b => by simp⟩, ?_, fun _ _ => rfl⟩
    · exact Tied.empty.foldl (nodup_finRange nbuf) fun _ _ mem => by cases mem
    · intro b b' k hb
      exact absurd hb.1.symm g.mounted
  log := by
    refine ⟨nodup_nil, zero_le, ?_, ?_, ?_, fun _ => rfl, fun _ => rfl⟩
    · exact fun _ mem => by cases mem
    · exact fun _ => (if_neg fun h => by cases h.2).symm
    · exact fun h => by cases h
  refs _ := by
    show 0 = 0 + ∑ _p : Fin np, 0
    rw [Finset.sum_const_zero, zero_add]
  valid _ _ h := by cases h
  facts _ _ h := by cases h
  alone _ _ _ _ h := by cases h
  content k _ := ⟨fun _ => ⟨rfl, rfl⟩, fun b hb => absurd hb.1.symm g.mounted⟩

theorem step_holds {s : Sys np} {a} (inv : (protocol np g).Holds s) :
    Yields (step g s a) fun r => (protocol np g).Holds r.1 := by
  cases a with
  | go p => exact fun r st => Protocol.advance_holds inv st
  | call p c =>
    refine .when fun idle => .some (Protocol.call_holds inv (isNone_iff_eq_none.1 idle) ?_)
    intro ls inv' none'
    refine ⟨⟨.free, fun _ => none, none⟩, ?_, wp_call trivial⟩
    refine Inv.think inv' ?_ ?_ ?_ ?_
    · intro c
      rw [none', Hand.Settled.has (h := .free) trivial rfl]
      rfl
    · intro c l k own
      rw [none'] at own
      cases own
    · intro l hl
      cases hl
      refine ⟨trivial, ?_, ?_⟩
      · exact fun _ _ h => by cases h
      · exact fun _ h => by cases h
    · intro l hl h
      cases hl
      exact absurd rfl h
  | change p b v =>
    refine .when fun may => .some (Protocol.section_holds inv (isNone_iff_eq_none.1 may.1) ?_)
    intro ls inv' idle
    have next := stored_inv (v := v) inv' may.2 (inv'.valid_of_idle idle may.2) (.idle idle)
    rwa [update_none idle] at next
  | logWrite p b =>
    refine .when fun may => .map fun sh ok =>
      Protocol.section_holds inv (isNone_iff_eq_none.1 may.1) fun ls inv' idle => ?_
    exact logWrite_inv inv' idle may.2 ok
  | bpin p b =>
    refine .when fun may => .some (Protocol.section_holds inv (isNone_iff_eq_none.1 may.1) ?_)
    exact fun ls inv' idle => bpin_inv inv' idle may.2
  | bunpin p b =>
    refine .when fun may => .some (Protocol.section_holds inv (isNone_iff_eq_none.1 may.1) ?_)
    exact fun ls inv' idle => bunpin_inv inv' may.2 idle

theorem run_holds {disk t s}
    (run : Run (ByEvent (step g)) (boot disk) t s) : (protocol np g).Holds s :=
  run.keeps ⟨fun _ => none, binit_inv g disk, fun _ => trivial⟩ fun _ _ _ inv st =>
    step_holds inv _ st

/-- The buffer keeps its block. -/
def Keeps (s s' : Cache np) (b : Buffer) : Prop :=
  (s'.buf b).dev = (s.buf b).dev ∧ (s'.buf b).blockno = (s.buf b).blockno

theorem bget_keeps (pos : 0 < (s.buf b).refcnt) : Yields (bget g s k) fun r => Keeps s r.2 b := by
  unfold bget
  split
  · rename_i c _
    have t : Touch s (s.setBuf c { s.buf c with refcnt := (s.buf c).refcnt + 1 }) c :=
      Touch.refl.setBuf rfl rfl
    exact .some (t.keys b)
  · split
    · rename_i c found
      have zero := scan_test found
      rw [decide_eq_true_eq] at zero
      have ne : b ≠ c := by
        rintro rfl
        omega
      have same : (s.setBuf c
        { s.buf c with dev := g.dev, blockno := k, valid := false, refcnt := 1 }).buf b =
          s.buf b := update_of_ne ne ..
      refine .some ?_
      unfold Keeps
      rw [same]
      exact ⟨rfl, rfl⟩
    · exact .some ⟨rfl, rfl⟩
    · exact .none
  · exact .none

theorem exec_keeps {o c} (pos : 0 < (s.buf b).refcnt) :
    Yields (exec g p o c s) fun r => Keeps s r.2 b := by
  cases o with
  | bget k => exact bget_keeps pos
  | fill c => exact .some (fill_touch.keys b)
  | release c => exact .some (release_touch.keys b)
  | store c v => exact .some (store_touch.keys b)
  | unpinInstalled c => exact .some (bunpin_touch.settle.keys b)
  | holdingsleep | write | releasesleep | data | header | clear | finish | panic =>
    exact .some ⟨rfl, rfl⟩
  | acquiresleep => exact .when fun _ => .some ⟨rfl, rfl⟩
  | beginOp => exact .whenNot fun _ => .whenNot fun _ => .some ⟨rfl, rfl⟩
  | endOp =>
    unfold exec
    dsimp only
    split
    · exact .some ⟨rfl, rfl⟩
    · split <;> exact .some ⟨rfl, rfl⟩

theorem enter_shared {s : Sys np} {sh x} : (s.enter p sh x).1.shared = sh := by
  cases x with
  | ret a => rfl
  | op o k => rfl

/-- A buffer with references is not recycled, whoever does what. -/
theorem step_keeps {s : Sys np} {a} (pos : 0 < (s.shared.buf b).refcnt) :
    Yields (step g s a) fun r => Keeps s.shared r.1.shared b := by
  cases a with
  | go p =>
    unfold step Pool.advance
    dsimp only
    split
    · split
      · rename_i ex
        refine .some ?_
        rw [enter_shared]
        exact exec_keeps pos _ ex
      · rename_i ex
        exact .some (exec_keeps pos _ ex)
      · exact .none
    · exact .none
  | call p c =>
    refine .when fun _ => .some ?_
    rw [enter_shared]
    exact ⟨rfl, rfl⟩
  | change p c v => exact .when fun _ => .some (store_touch.keys b)
  | logWrite p c =>
    refine .when fun _ => .map (.whenNot fun _ => .whenNot fun _ => ?_)
    split
    · exact .some ⟨rfl, rfl⟩
    · exact .some ((bpin_touch (w := .log)).enter.keys b)
  | bpin p c => exact .when fun _ => .some ((bpin_touch (w := .other)).keys b)
  | bunpin p c => exact .when fun _ => .some ((bunpin_touch (w := .other)).keys b)

/-! ## Coherence -/

/-- What holds between two steps. -/
structure Coherent (g : Device) (s : Sys np) : Prop where
  ring : ∃ order, Tied s.shared.links order ∧ ∀ b, b ∈ order
  single : ∀ b b', 0 < (s.shared.buf b).refcnt → 0 < (s.shared.buf b').refcnt →
    (s.shared.buf b).dev = (s.shared.buf b').dev → (s.shared.buf b).blockno =
    (s.shared.buf b').blockno → b = b'
  /-- a buffer that is in use is not recycled -/
  keeps : ∀ a s' e, step g s a = some (s', e) → ∀ b, 0 < (s.shared.buf b).refcnt →
    Keeps s.shared s'.shared b
  /-- what `bread` returns -/
  reads : ∀ p s' k b, step g s (.go p) = some (s', some (.bread k b)) →
    s'.shared.lock b = some p ∧ Caches g s'.shared b k ∧ (s'.shared.buf b).valid = true ∧
      (s'.shared.kept k = true → (s'.shared.buf b).data = s'.shared.last k)
  /-- no block is twice in the log, and each is pinned from its `log_write` to its install -/
  entries : s.shared.lh.Nodup
  cached : ∀ k ∈ pending s.shared, ∃ b, Caches g s.shared b k
  pinned : ∀ b, s.shared.pins .log b =
    if (s.shared.buf b).dev = g.dev ∧ (s.shared.buf b).blockno ∈ pending s.shared then 1 else 0
  counted : ∀ k, s.shared.entered k = s.shared.unpinned k + if k ∈ pending s.shared then 1 else 0

theorem Inv.single (inv : Inv g s ls) {b'} (pos : 0 < (s.buf b).refcnt)
    (pos' : 0 < (s.buf b').refcnt) (same : (s.buf b).blockno = (s.buf b').blockno) : b = b' :=
  inv.shape.single b b' _ (inv.caches pos) (same ▸ inv.caches pos')

/-- `bread` returns a locked buffer with what was left in the block. -/
theorem bread_returns {s s'} (inv : (protocol np g).Holds s)
    (h : step g s (.go p) = some (s', some (.bread k b))) :
    s'.shared.lock b = some p ∧ Caches g s'.shared b k ∧ (s'.shared.buf b).valid = true ∧
      (s'.shared.kept k = true → (s'.shared.buf b).data = s'.shared.last k) := by
  obtain ⟨ls, l, inv', own, fin⟩ := Protocol.advance_returns inv h
  have hand := (Inv.facts inv' p l own).hand
  rw [show l.hand = .got b k from fin] at hand
  exact hand

theorem device_fits : (2 : UInt32).toNat + logBlocks < 2 ^ 32 := by decide

theorem device_mounted : (1 : UInt32) ≠ 0 := by decide

/-- A device whose log starts at block 2. -/
def device : Device := ⟨⟨2, device_fits⟩, 1, device_mounted⟩

end OsProject.Xv6.BufferCache
