import Mathlib.Algebra.BigOperators.Group.Finset.Basic
import Mathlib.Algebra.Order.BigOperators.Group.Finset
import OsProject.Xv6.Log

/-! # Room in the log and in the cache

`begin_op` reserves `MAXOPBLOCKS` entries for every operation. What the
operations in progress have not used of that fits behind the entries that are
there, so a block that is not in the log always finds room. But `log_write`
looks at the room before it looks whether the block is there already, and
`NBUF` is no more than `LOGBLOCKS`: the last entry is one too many. -/
namespace OsProject.Xv6.LogSpace
open Lib.Transition Bio Log List Option
open Function (update update_of_ne update_self)
open Option (ite_none_right_eq_some)

/-- No operation logs more than `MAXOPBLOCKS` blocks. -/
def Bounded (s : Sys) : Ev → Prop
  | .write i b _ => ∀ own ∈ s.ops i, (own.insert b).length ≤ maxOpBlocks
  | _ => True

instance (s : Sys) (e : Ev) : Decidable (Bounded s e) := by
  cases e <;> unfold Bounded <;> infer_instance

/-- The entries that operation `i` may still need. -/
def left (ops : Nat → Option (List UInt32)) (i : Nat) : Nat :=
  maxOpBlocks - ((ops i).getD []).length

/-- The operations `act` are in progress, and there is room for all of them. -/
structure Admitted (s : Sys) (act : Finset Nat) : Prop where
  mem : ∀ i, i ∈ act ↔ s.ops i ≠ none
  card : s.outstanding = act.card
  own : ∀ i, ∀ bs ∈ s.ops i, bs ⊆ s.lh
  room : s.lh.length + ∑ i ∈ act, left s.ops i ≤ logBlocks

section admitted
variable {g : LogArea} {s s' : Sys} {act : Finset Nat} {e : Ev} {i : Nat} {b : UInt32}
  {ops : Nat → Option (List UInt32)} {x : Option (List UInt32)} {want : UInt32 → Block}

theorem left_le : left ops i ≤ maxOpBlocks := Nat.sub_le ..

theorem sum_left_le : ∑ i ∈ act, left ops i ≤ act.card * maxOpBlocks :=
  Finset.sum_le_card_nsmul _ _ _ fun _ _ => left_le

/-- Only the share of operation `i` changes. -/
theorem sum_left_update (no : i ∉ act) :
    ∑ j ∈ act, left (update ops i x) j = ∑ j ∈ act, left ops j := by
  refine Finset.sum_congr rfl fun j hj => ?_
  have ne : j ≠ i := by rintro rfl; exact no hj
  simp [left, update_of_ne ne]

theorem begin_admitted (h : Admitted s act) (new : s.ops i = none)
    (fits : s.lh.length + (s.outstanding + 1) * maxOpBlocks ≤ logBlocks) :
    Admitted { s with outstanding := s.outstanding + 1, ops := update s.ops i (some []) }
      (insert i act) := by
  have out : i ∉ act := fun hi => (h.mem i).1 hi new
  refine ⟨fun j => ?_, ?_, fun j bs hbs => ?_, ?_⟩
  · by_cases hj : j = i
    · subst hj
      simp
    · simp [hj, h.mem]
  · rw [Finset.card_insert_of_notMem out, h.card]
  · by_cases hj : j = i
    · subst hj
      simp only [update_self, mem_some_iff] at hbs
      subst hbs
      exact nil_subset _
    · simp only [update_of_ne hj] at hbs
      exact h.own j bs hbs
  · rw [Finset.sum_insert out, sum_left_update out]
    have sum : ∑ j ∈ act, left s.ops j ≤ act.card * maxOpBlocks := sum_left_le
    have own : left (update s.ops i (some [])) i = maxOpBlocks := by simp [left]
    rw [h.card, Nat.add_mul, one_mul] at fits
    rw [own]
    show s.lh.length + _ ≤ _
    omega

/-- What operation `i` holds back, next to the others. -/
theorem Admitted.split (h : Admitted s act) (hi : i ∈ act) :
    s.lh.length + (left s.ops i + ∑ j ∈ act.erase i, left s.ops j) ≤ logBlocks := by
  rw [Finset.add_sum_erase act _ hi]
  exact h.room

theorem end_admitted (ph : Phase) (h : Admitted s act) (some_op : (s.ops i).isSome = true) :
    Admitted { s with outstanding := s.outstanding - 1, ops := update s.ops i none, phase := ph }
      (act.erase i) := by
  have hi : i ∈ act := (h.mem i).2 (by rintro none; simp [none] at some_op)
  refine ⟨fun j => ?_, ?_, fun j bs hbs => ?_, ?_⟩
  · by_cases hj : j = i
    · subst hj
      simp
    · simp [hj, h.mem]
  · rw [Finset.card_erase_of_mem hi, h.card]
  · by_cases hj : j = i
    · subst hj
      simp at hbs
    · simp only [update_of_ne hj] at hbs
      exact h.own j bs hbs
  · rw [sum_left_update (Finset.notMem_erase i act)]
    have := h.split hi
    show s.lh.length + _ ≤ _
    omega

theorem write_admitted {own d} (h : Admitted s act) (op : s.ops i = some own)
    (bounded : (own.insert b).length ≤ maxOpBlocks) :
    Admitted { s with
      dev := d
      lh := if b ∈ s.lh then s.lh else s.lh ++ [b]
      ops := update s.ops i (some (own.insert b)) } act := by
  have hi : i ∈ act := (h.mem i).2 (by simp [op])
  have sub : own ⊆ s.lh := h.own i own op
  have grow : ∀ a ∈ s.lh, a ∈ if b ∈ s.lh then s.lh else s.lh ++ [b] := by
    intro a ha
    split
    · exact ha
    · exact mem_append_left _ ha
  refine ⟨fun j => ?_, h.card, fun j bs hbs a ha => ?_, ?_⟩
  · by_cases hj : j = i
    · subst hj
      simp [hi]
    · simp [update_of_ne hj, h.mem]
  · by_cases hj : j = i
    · subst hj
      simp only [update_self, mem_some_iff] at hbs
      subst hbs
      rcases mem_insert_iff.1 ha with rfl | ha
      · split
        · assumption
        · simp
      · exact grow a (sub ha)
    · simp only [update_of_ne hj] at hbs
      exact grow a (h.own j bs hbs ha)
  · have before := h.split hi
    rw [← Finset.add_sum_erase act _ hi, sum_left_update (Finset.notMem_erase i act)]
    simp only [left, op, update_self, getD_some] at before ⊢
    by_cases hb : b ∈ s.lh
    · have longer : own.length ≤ (own.insert b).length := by
        by_cases ho : b ∈ own <;> simp [ho]
      simp only [hb, if_true]
      omega
    · -- a new entry comes out of the operation's own share
      have new : (own.insert b).length = own.length + 1 :=
        length_insert_of_not_mem fun ho => hb (sub ho)
      simp only [hb, if_false, length_append, length_singleton]
      omega

/-- Steps of no operation: the header becomes shorter, or is read by a kernel
without operations. -/
theorem Admitted.other (h : Admitted s act) (ops : s'.ops = s.ops)
    (outstanding : s'.outstanding = s.outstanding)
    (lh : s'.lh = s.lh ∨ s.outstanding = 0 ∧ s'.lh.length ≤ logBlocks) : Admitted s' act := by
  refine ⟨fun j => by rw [ops]; exact h.mem j, outstanding.trans h.card, fun j bs hbs => ?_, ?_⟩
  · rw [ops] at hbs
    rcases lh with lh | ⟨idle, -⟩
    · rw [lh]
      exact h.own j bs hbs
    · have none : act = ∅ := Finset.card_eq_zero.1 (h.card.symm.trans idle)
      have : j ∈ act := (h.mem j).2 (by rw [mem_def] at hbs; simp [hbs])
      simp [none] at this
  · rcases lh with lh | ⟨idle, short⟩
    · rw [lh, ops]
      exact h.room
    · have none : act = ∅ := Finset.card_eq_zero.1 (h.card.symm.trans idle)
      simpa [none] using short

theorem off_admitted {disk} : Admitted (powerOff disk) ∅ :=
  ⟨by simp [powerOff], rfl, by simp [powerOff], by simp [powerOff]⟩

/-- `commit` and `recover_from_log` leave the operations alone. -/
theorem ioStep_frame (h : ioStep g s = some s') : s'.ops = s.ops ∧
    s'.outstanding = s.outstanding ∧ s'.refs = s.refs ∧ s.phase ≠ .run ∧
    (s'.lh = s.lh ∨ s'.lh = []) := by
  unfold ioStep at h
  split at h
  case h_6 => cases h
  all_goals
    rename_i ph
    have ne : s.phase ≠ .run := by rw [ph]; rintro ⟨⟩
  all_goals try split at h
  all_goals first
    | (obtain ⟨d, -, rfl⟩ := map_eq_some_iff.1 h; exact ⟨rfl, rfl, rfl, ne, .inl rfl⟩)
    | (obtain rfl := Option.some.inj h; exact ⟨rfl, rfl, rfl, ne, .inl rfl⟩)
    | (obtain rfl := Option.some.inj h; exact ⟨rfl, rfl, rfl, ne, .inr rfl⟩)

theorem admitted_step (inv : Inv g s want) (h : Admitted s act) (st : LogStep g s e s')
    (bounded : Bounded s e) : ∃ act', Admitted s' act' := by
  obtain ⟨want', inv', -⟩ := step_effect inv st
  unfold LogStep ByStep logStep at st
  cases e with
  | begin i =>
    obtain ⟨go, ⟨⟩⟩ := ite_none_right_eq_some.1 st
    exact ⟨_, begin_admitted h go.2.2 go.2.1⟩
  | hold | recovered =>
    obtain ⟨_, st⟩ := ite_none_right_eq_some.1 st
    obtain ⟨d, -, rfl⟩ := map_eq_some_iff.1 st
    exact ⟨act, h.other rfl rfl (.inl rfl)⟩
  | release | returned =>
    obtain ⟨_, ⟨⟩⟩ := ite_none_right_eq_some.1 st
    exact ⟨act, h.other rfl rfl (.inl rfl)⟩
  | write i b v =>
    dsimp only at st
    split at st
    · rename_i own lh op ok
      obtain ⟨-, -, rfl⟩ := logWrite_ok ok
      obtain ⟨_, ⟨⟩⟩ := ite_none_right_eq_some.1 st
      exact ⟨act, write_admitted h op (bounded own op)⟩
    · cases st
  | endOp i =>
    obtain ⟨go, ⟨⟩⟩ := ite_none_right_eq_some.1 st
    exact ⟨_, end_admitted _ h go.1⟩
  | close i =>
    obtain ⟨go, ⟨⟩⟩ := ite_none_right_eq_some.1 st
    have ended := end_admitted (if s.lh = [] then .finish else .copy 0) h go.1
    rw [go.2.2] at ended
    exact ⟨_, ended⟩
  | io =>
    obtain ⟨ops, outstanding, -, busy, lh⟩ := ioStep_frame st
    exact ⟨act, h.other ops outstanding
      (lh.imp_right fun nil => ⟨inv.busy busy, by rw [nil]; exact zero_le⟩)⟩
  | crash =>
    cases st
    exact ⟨∅, off_admitted⟩
  | boot =>
    obtain ⟨ph, st⟩ := ite_none_right_eq_some.1 st
    obtain ⟨d, -, rfl⟩ := map_eq_some_iff.1 st
    exact ⟨act, h.other rfl rfl (.inr ⟨inv.busy (by rw [ph]; rintro ⟨⟩), inv'.lh.room⟩)⟩

theorem run_admitted {disk t} (head : Valid g (readHead (disk g.start)))
    (h : Run (When (LogStep g) Bounded) (powerOff disk) t s) : ∃ act, Admitted s act := by
  refine (h.keeps (I := fun s => (∃ want, Inv g s want) ∧ ∃ act, Admitted s act)
    ⟨⟨disk, off_inv head⟩, ∅, off_admitted⟩ ?_).2
  rintro s e s' ⟨⟨want, inv⟩, act, adm⟩ ⟨st, bounded⟩
  obtain ⟨want', inv', -⟩ := step_effect inv st
  exact ⟨⟨want', inv'⟩, admitted_step inv adm st bounded⟩

end admitted

/-! ## `log_write` -/

/-- With any operations that log no more than `MAXOPBLOCKS` blocks each,
`log_write` panics exactly when the block is in the log already and the log is
full. -/
theorem log_write_panics {g : LogArea} {disk : UInt32 → Block} {t : List Ev} {s : Sys}
    (head : Valid g (readHead (disk g.start)))
    (h : Run (When (LogStep g) Bounded) (powerOff disk) t s) :
    s.lh.length ≤ logBlocks ∧ ∀ i b own, s.ops i = some own →
      (own.insert b).length ≤ maxOpBlocks →
      (logWrite s.lh s.outstanding b = .error .tooBig ↔ b ∈ s.lh ∧ s.lh.length = logBlocks) := by
  obtain ⟨act, adm⟩ := run_admitted head h
  have short : s.lh.length ≤ logBlocks := le_trans (Nat.le_add_right ..) adm.room
  refine ⟨short, fun i b own op bounded => ⟨fun panic => ?_, fun ⟨_, full⟩ => ?_⟩⟩
  · have full : logBlocks ≤ s.lh.length := by
      by_contra room
      unfold logWrite at panic
      rw [if_neg room] at panic
      split at panic
      · cases panic
      · split at panic <;> cases panic
    refine ⟨by_contra fun new => ?_, le_antisymm short full⟩
    -- the operation has a share left, which fits behind the entries
    have share := adm.split ((adm.mem i).2 (by simp [op]))
    rw [length_insert_of_not_mem fun ho => new (adm.own i own op ho)] at bounded
    have some_left : left s.ops i = maxOpBlocks - own.length := by simp [left, op]
    omega
  · unfold logWrite
    rw [if_pos (le_of_eq full.symm)]

/-- Operation `i` logs ten blocks. -/
def fill (i : Nat) : List Ev := (List.range 10).flatMap fun j =>
  let b := UInt32.ofNat (100 + 10 * i + j)
  [.hold b, .write i b fun _ => 0, .release b]

/-- Three operations log all the blocks they may. -/
def fillLog : List Ev :=
  [.boot, .io, .recovered, .begin 0, .begin 1, .begin 2] ++ fill 0 ++ fill 1 ++ fill 2

/-- The last of the blocks still finds room. -/
theorem log_write_last : ∃ t s own, Run (When (LogStep sampleArea) Bounded)
    (powerOff fun _ _ => 0) t s ∧ s.ops 2 = some own ∧ s.lh.length = 29 ∧ 129 ∉ s.lh ∧
    logWrite s.lh s.outstanding 129 ≠ .error .tooBig := by
  obtain ⟨s, run, len, new, own⟩ := foldlM_reaches_when (logStep sampleArea)
    (powerOff fun _ _ => 0) Bounded (fillLog.take 93)
    (P := fun s => s.lh.length = 29 ∧ 129 ∉ s.lh ∧
      (s.ops 2).any (fun own => decide ((own.insert 129).length ≤ maxOpBlocks)) = true)
    (by decide +kernel)
  rw [Option.any_eq_true] at own
  obtain ⟨own, op, bounded⟩ := own
  obtain ⟨-, panics⟩ := @log_write_panics sampleArea (fun _ _ => 0) _ _
    ⟨nodup_nil, by rintro b ⟨⟩, by decide⟩ run
  exact ⟨_, s, own, run, op, len, new, fun panic =>
    new ((panics 2 129 own op (of_decide_eq_true bounded)).1 panic).1⟩

/-- The log is full and the first block is written once more. -/
theorem log_write_rewrite_panics : ∃ t s own, Run (When (LogStep sampleArea) Bounded)
    (powerOff fun _ _ => 0) t s ∧ s.ops 0 = some own ∧ 100 ∈ own ∧ own.length ≤ maxOpBlocks ∧
    100 ∈ s.refs ∧ logWrite s.lh s.outstanding 100 = .error .tooBig := by
  obtain ⟨s, run, held, full, own⟩ := foldlM_reaches_when (logStep sampleArea)
    (powerOff fun _ _ => 0) Bounded (fillLog ++ [.hold 100])
    (P := fun s => 100 ∈ s.refs ∧ logBlocks ≤ s.lh.length ∧
      (s.ops 0).any (fun own => decide (100 ∈ own ∧ own.length ≤ maxOpBlocks)) = true)
    (by decide +kernel)
  rw [Option.any_eq_true] at own
  obtain ⟨own, op, bounded⟩ := own
  obtain ⟨mem, len⟩ := of_decide_eq_true bounded
  exact ⟨_, s, own, run, op, mem, len, held, if_pos full⟩

/-! ## `commit` -/

/-- At most `n` steps of `commit`; none where `bget` panics. -/
def commitLoop (g : LogArea) : Nat → Sys → Option Sys
  | 0, s => some s
  | n + 1, s => if s.phase = .finish then some s else (ioStep g s).bind (commitLoop g n)

/-- The steps that `commit` has still to take. -/
def remaining (s : Sys) : Nat :=
  match s.phase with
  | .copy tail => s.lh.length - tail + s.lh.length + 4
  | .head => s.lh.length + 3
  | .install tail => s.lh.length - tail + 2
  | .clear => 1
  | _ => 0

def commit (g : LogArea) (s : Sys) : Option Sys := commitLoop g (remaining s) s

section commit
variable {g : LogArea} {s s' : Sys} {want : UInt32 → Block} {d : Dev} {ref : UInt32 → Nat}
  {used : List UInt32} {src dst : UInt32}

theorem more_used {a b} (used : ref a ≠ 0) : more ref b a ≠ 0 := by
  by_cases hab : a = b <;> simp [more, hab, used]

theorem copyBlock_isSome (dst : UInt32) (h : Coherent d want ref) (sub : ∀ b, ref b ≠ 0 → b ∈ used)
    (lt : used.length < nbuf) (held : ref src ≠ 0) : (copyBlock d dst src).isSome = true := by
  obtain ⟨d1, h1⟩ := isSome_iff_exists.1 (h.bread_isSome sub lt dst)
  have c1 := (h.bread h1).1
  obtain ⟨d2, h2⟩ := isSome_iff_exists.1 (c1.bread_isSome_of_used (b := src) (more_used held))
  simp [copyBlock, h1, h2]

theorem installBlock_isSome (src : UInt32) (h : Coherent d want ref)
    (sub : ∀ b, ref b ≠ 0 → b ∈ used) (lt : used.length < nbuf) (held : ref dst ≠ 0) :
    (installBlock false d src dst).isSome = true := by
  obtain ⟨d1, h1⟩ := isSome_iff_exists.1 (h.bread_isSome sub lt src)
  have c1 := (h.bread h1).1
  obtain ⟨d2, h2⟩ := isSome_iff_exists.1 (c1.bread_isSome_of_used (b := dst) (more_used held))
  simp [installBlock, h1, h2]

theorem writeHead_isSome (h : Coherent d want ref) (sub : ∀ b, ref b ≠ 0 → b ∈ used)
    (lt : used.length < nbuf) (lh : List UInt32) : (writeHead g d lh).isSome = true := by
  obtain ⟨d1, h1⟩ := isSome_iff_exists.1 (h.bread_isSome sub lt g.start)
  simp [writeHead, h1]

/-- No process holds a buffer: those in use are pinned. -/
theorem ref_pinned (alone : s.refs = []) (b : UInt32) : s.ref b ≠ 0 ↔ b ∈ pinned s.lh s.phase := by
  simp [Sys.ref, alone]

theorem pinned_length : (pinned s.lh s.phase).length ≤ s.lh.length := by
  unfold pinned
  split <;> simp

/-- In `commit`, before its last step. -/
def Phase.commits : Phase → Bool
  | .copy _ | .head | .install _ | .clear => true
  | _ => false

/-- With a buffer to spare the next step of `commit` succeeds. -/
theorem commit_goes_on (inv : Inv g s want) (alone : s.refs = []) (lt : s.lh.length < nbuf)
    (here : Phase.commits s.phase = true) : ∃ s', ioStep g s = some s' ∧
      remaining s' + 1 = remaining s ∧ s'.lh.length < nbuf ∧
      (Phase.commits s'.phase = true ∨ s'.phase = .finish) := by
  have sub : ∀ b, s.ref b ≠ 0 → b ∈ pinned s.lh s.phase := fun b => (ref_pinned alone b).1
  have lt' : (pinned s.lh s.phase).length < nbuf := lt_of_le_of_lt pinned_length lt
  cases ph : s.phase with
  | copy tail =>
    by_cases h : tail < s.lh.length
    · have held : s.ref s.lh[tail] ≠ 0 := (ref_pinned alone _).2 (by rw [ph]; exact getElem_mem h)
      obtain ⟨d, hd⟩ := isSome_iff_exists.1
        (copyBlock_isSome (g.block tail) inv.coherent sub lt' held)
      refine ⟨{ s with dev := d, phase := .copy (tail + 1) }, by simp [ioStep, ph, h, hd], ?_,
        lt, .inl rfl⟩
      simp only [remaining, ph]
      omega
    · refine ⟨{ s with phase := .head }, by simp [ioStep, ph, h], ?_, lt, .inl rfl⟩
      simp only [remaining, ph]
      omega
  | head =>
    obtain ⟨d, hd⟩ := isSome_iff_exists.1 (writeHead_isSome (g := g) inv.coherent sub lt' s.lh)
    refine ⟨{ s with dev := d, phase := .install 0 }, by simp [ioStep, ph, hd], ?_, lt, .inl rfl⟩
    simp only [remaining, ph]
    omega
  | install tail =>
    by_cases h : tail < s.lh.length
    · have held : s.ref s.lh[tail] ≠ 0 := (ref_pinned alone _).2 (by
        rw [ph]
        show s.lh[tail] ∈ s.lh.drop tail
        rw [drop_eq_getElem_cons h]
        exact mem_cons_self)
      obtain ⟨d, hd⟩ := isSome_iff_exists.1
        (installBlock_isSome (g.block tail) inv.coherent sub lt' held)
      refine ⟨{ s with dev := d, phase := .install (tail + 1) },
        by simp [ioStep, ph, h, hd], ?_, lt, .inl rfl⟩
      simp only [remaining, ph]
      omega
    · refine ⟨{ s with lh := [], phase := .clear }, by simp [ioStep, ph, h], ?_,
        Nat.lt_of_le_of_lt zero_le lt, .inl rfl⟩
      simp only [remaining, ph]
      omega
  | clear =>
    obtain ⟨d, hd⟩ := isSome_iff_exists.1 (writeHead_isSome (g := g) inv.coherent sub lt' s.lh)
    exact ⟨{ s with dev := d, phase := .finish }, by simp [ioStep, ph, hd],
      by simp [remaining, ph], lt, .inr rfl⟩
  | _ => rw [ph] at here; cases here

theorem commitLoop_finishes (inv : Inv g s want) (alone : s.refs = []) (lt : s.lh.length < nbuf)
    (here : Phase.commits s.phase = true ∨ s.phase = .finish) {n} (hn : remaining s = n) :
    ∃ s', commitLoop g n s = some s' ∧ s'.phase = .finish := by
  induction n generalizing s want with
  | zero =>
    rcases here with here | done
    · obtain ⟨s', -, rem, -⟩ := commit_goes_on inv alone lt here
      omega
    · exact ⟨s, rfl, done⟩
  | succ n ih =>
    by_cases done : s.phase = .finish
    · exact ⟨s, by simp [commitLoop, done], done⟩
    · obtain ⟨s1, step, rem, lt1, here1⟩ := commit_goes_on inv alone lt (here.resolve_right done)
      obtain ⟨want1, inv1, -⟩ := io_effect inv step
      have alone1 : s1.refs = [] := (ioStep_frame step).2.2.1.trans alone
      obtain ⟨s', run, fin⟩ := ih inv1 alone1 lt1 here1 (by omega)
      exact ⟨s', by simp [commitLoop, done, step, run], fin⟩

end commit

/-- When the last operation ends and no process holds a buffer, `commit`
completes exactly if fewer than `NBUF` blocks are logged. -/
theorem commit_completes {g : LogArea} {disk : UInt32 → Block} {t : List Ev} {s : Sys}
    (head : Valid g (readHead (disk g.start))) (h : Run (LogStep g) (powerOff disk) t s)
    (begun : s.phase = .copy 0) (alone : s.refs = []) :
    (∃ s', commit g s = some s' ∧ s'.phase = .finish) ↔ s.lh.length < nbuf := by
  obtain ⟨want, inv⟩ := run_inv head h
  refine ⟨fun ⟨s', done, _⟩ => by_contra fun full => ?_,
    fun lt => commitLoop_finishes inv alone lt (.inl (by rw [begun]; rfl)) rfl⟩
  -- all buffers are pinned, and the first log block has none
  have len : s.lh.length = nbuf := le_antisymm inv.lh.room (Nat.le_of_not_lt full)
  have pins : pinned s.lh s.phase = s.lh := by rw [begun]; rfl
  have first : 0 < s.lh.length := by rw [len]; decide
  have out : s.ref (g.block 0) = 0 := by
    by_contra used
    have mem := (ref_pinned alone _).1 used
    rw [pins] at mem
    have home := inv.lh.homes _ mem
    rw [home_block (by decide)] at home
    cases home
  have panic := inv.coherent.bread_eq_none inv.lh.nodup
    (fun b hb => (ref_pinned alone b).2 (by rw [pins]; exact hb)) len out
  have stuck : ioStep g s = none := by simp [ioStep, begun, first, copyBlock, panic]
  have steps : remaining s = 2 * s.lh.length + 3 + 1 := by
    simp only [remaining, begun]
    omega
  rw [commit, steps] at done
  simp [commitLoop, begun, stuck] at done

/-- An operation with one block. -/
theorem commit_completes_one : ∃ t s s', Run (LogStep sampleArea) (powerOff fun _ _ => 0) t s ∧
    s.phase = .copy 0 ∧ s.refs = [] ∧ s.lh = [50] ∧ commit sampleArea s = some s' ∧
    s'.phase = .finish := by
  obtain ⟨s, run, begun, alone, lh⟩ := foldlM_reaches (logStep sampleArea) (powerOff fun _ _ => 0)
    [.boot, .io, .recovered, .begin 0, .hold 50, .write 0 50 fun _ => 7, .release 50, .close 0]
    (P := fun s => s.phase = .copy 0 ∧ s.refs = [] ∧ s.lh = [50]) (by decide +kernel)
  obtain ⟨s', done, fin⟩ := (@commit_completes sampleArea (fun _ _ => 0) _ _
    ⟨nodup_nil, by rintro b ⟨⟩, by decide⟩ run begun alone).2 (by rw [lh]; decide)
  exact ⟨_, s, s', run, begun, alone, lh, done, fin⟩

/-- Three operations have logged ten blocks each when the last one ends. -/
theorem commit_without_buffers : ∃ t s, Run (When (LogStep sampleArea) Bounded)
    (powerOff fun _ _ => 0) t s ∧ s.phase = .copy 0 ∧ s.refs = [] ∧ s.lh.length = logBlocks ∧
    copyBlock s.dev (sampleArea.block 0) 100 = none ∧ commit sampleArea s = none := by
  obtain ⟨s, run, begun, alone, full, panic, stuck⟩ := foldlM_reaches_when
    (logStep sampleArea) (powerOff fun _ _ => 0) Bounded
    (fillLog ++ [.endOp 0, .endOp 1, .close 2])
    (P := fun s => s.phase = .copy 0 ∧ s.refs = [] ∧ s.lh.length = logBlocks ∧
      (copyBlock s.dev (sampleArea.block 0) 100).isNone = true ∧
      (commit sampleArea s).isNone = true)
    (by decide +kernel)
  exact ⟨_, s, run, begun, alone, full, isNone_iff_eq_none.1 panic,
    isNone_iff_eq_none.1 stuck⟩

end OsProject.Xv6.LogSpace
