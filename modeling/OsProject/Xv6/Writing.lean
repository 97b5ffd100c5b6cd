import OsProject.Xv6.Contents
import Mathlib.Order.Interval.Finset.Nat

/-! # Writing to inodes

How far `writei` gets, and what it changes. `balloc` succeeds as long as a block
is free, so how far `bmap` gets is a matter of counting; the user's memory may
break off at any byte, and then part of a block may have been overwritten
already. -/
namespace OsProject.Xv6.Writing
open Lib.Outcome Lib.Words Inode BlockOwnership
open Contents
open Function (update update_of_ne update_self update_eq_self)

variable {ι : Type*} {g : Super} {d d' : Disk} {ino : ι → Dinode} {i j : ι} {ip ip' : Dinode}
  {a : UInt32} {bn : Nat}

/-! ## How many blocks a write takes -/

/-- How many blocks `bmap` takes for number `bn`. -/
def wanted (blk : UInt32 → Block) (ip : Dinode) (bn : Nat) : Nat :=
  (if blockAt blk ip bn = 0 then 1 else 0) + if ndirect ≤ bn ∧ ip.ind = 0 then 1 else 0

variable {blk : UInt32 → Block}

/-- A block that is there wants none. -/
theorem wanted_mapped (mapped : blockAt blk ip bn ≠ 0) : wanted blk ip bn = 0 := by
  have ind : ¬ (ndirect ≤ bn ∧ ip.ind = 0) := by
    rintro ⟨big, zero⟩
    refine mapped ?_
    rw [blockAt_big big]
    split
    · exact if_pos zero
    · rfl
  rw [wanted, if_neg mapped, if_neg ind]

/-- How many blocks it takes to map the numbers from `lo` up to `hi`. -/
def needs (blk : UInt32 → Block) (ip : Dinode) (lo hi : Nat) : Nat :=
  ((Finset.Ico lo hi).filter fun bn => blockAt blk ip bn = 0).card +
    if lo < hi ∧ ndirect < hi ∧ ip.ind = 0 then 1 else 0

theorem needs_mono {lo hi hi'} (le : hi ≤ hi') : needs blk ip lo hi ≤ needs blk ip lo hi' := by
  refine Nat.add_le_add (Finset.card_le_card (Finset.filter_subset_filter _
    (Finset.Ico_subset_Ico_right le))) ?_
  split
  · rename_i ind
    rw [if_pos ⟨by omega, by omega, ind.2.2⟩]
  · exact Nat.zero_le _

/-- `bmap` yields a block exactly if as many are free as it takes. -/
theorem bmap_counts (h : Owns g d ino) (inside : bn < maxfile) :
    (freeBlocks g d < wanted d.block (ino i) bn ∧ ∃ d' ip', bmap g d (ino i) bn =
      .ok (0, d', ip')) ∨
    ∃ a d' ip', bmap g d (ino i) bn = .ok (a, d', ip') ∧ a ≠ 0 ∧
      freeBlocks g d' + wanted d.block (ino i) bn = freeBlocks g d ∧
      (ndirect ≤ bn → ip'.ind ≠ 0) ∧ (bn < ndirect → ip'.ind = (ino i).ind) := by
  unfold bmap
  split
  · rename_i small
    have direct : ¬ (ndirect ≤ bn ∧ (ino i).ind = 0) := fun both => absurd small (not_lt.2 both.1)
    simp only [wanted, if_neg direct, add_zero, blockAt_direct ⟨bn, small⟩]
    rcases bmapAddr_cases h.system (ino i) ⟨bn, Nat.lt_succ_of_lt small⟩ with
      ⟨some, eq⟩ | ⟨none, zero, eq⟩ | ⟨b, hb, free, none, eq⟩
    · exact .inr ⟨_, _, _, by rw [eq], some, by rw [if_neg (by exact some)]; rfl,
        fun big => absurd small (not_lt.2 big), fun _ => rfl⟩
    · exact .inl ⟨by rw [if_pos (by exact none), zero]; exact one_pos, _, _, by rw [eq]⟩
    · refine .inr ⟨_, _, _, by rw [eq], ne_zero_of_data hb, ?_,
        fun big => absurd small (not_lt.2 big), fun _ => ?_⟩
      · rw [if_pos (by exact none)]
        exact freeBlocks_taken hb free
      · exact setAddr_ne fun eq => absurd (congrArg Fin.val eq).symm (ne_of_lt small)
  · rename_i big
    replace big : ndirect ≤ bn := not_lt.1 big
    have within : bn - ndirect < nindirect := by
      unfold maxfile at inside
      omega
    rw [dif_pos within]
    have entry : blockAt d.block (ino i) bn =
        addrAt d.block (ino i) (.entry ⟨bn - ndirect, within⟩) := by
      rw [blockAt_big big, dif_pos within]
    have absent : ¬ bn < ndirect := not_lt.2 big
    rcases bmapAddr_cases h.system (ino i) (Fin.last ndirect) with
      ⟨some, eq⟩ | ⟨none, zero, eq⟩ | ⟨b, hb, free, none, eq⟩
    · replace some : (ino i).ind ≠ 0 := some
      replace eq : bmapAddr g d (ino i) (Fin.last ndirect) = ((ino i).ind, d, ino i) := eq
      have word_at : blockAt d.block (ino i) bn =
          word (d.block (ino i).ind) ⟨bn - ndirect, within⟩ := by
        rw [entry, addrAt, if_neg some]
      simp only [eq, wanted, word_at, some, and_false, if_false, add_zero]
      rcases bmapEntry_cases h.system (ino i).ind ⟨bn - ndirect, within⟩ with
        ⟨word_ne, eq⟩ | ⟨empty, zero, eq⟩ | ⟨c, hc, free, empty, eq⟩
      · exact .inr ⟨_, _, _, by rw [eq], word_ne, by rw [if_neg word_ne]; rfl, fun _ => some,
          fun small => absurd small absent⟩
      · exact .inl ⟨by rw [if_pos empty, zero]; exact one_pos, _, _, by rw [eq]⟩
      · refine .inr ⟨_, _, _, by rw [eq], ne_zero_of_data hc, ?_, fun _ => some,
          fun small => absurd small absent⟩
        rw [if_pos empty]
        exact freeBlocks_taken hc free
    · replace none : (ino i).ind = 0 := none
      have empty : blockAt d.block (ino i) bn = 0 := by rw [entry, addrAt, if_pos none]
      have two : wanted d.block (ino i) bn = 2 := by
        simp only [wanted, empty, big, none, and_self, if_true]
      simp only [eq, if_true]
      exact .inl ⟨by rw [two, zero]; decide, _, _, rfl⟩
    · replace none : (ino i).ind = 0 := none
      have empty : blockAt d.block (ino i) bn = 0 := by rw [entry, addrAt, if_pos none]
      have two : wanted d.block (ino i) bn = 2 := by
        simp only [wanted, empty, big, none, and_self, if_true]
      have left := freeBlocks_taken hb free
      have system : ∀ c, c < g.first → (taken d b).bit c = true :=
        fun c low => (taken_kept free (h.system c low)).2
      have clear : (taken d b).block b = fun _ => 0 := update_self ..
      simp only [eq, if_neg (ne_zero_of_data hb), two]
      rcases bmapEntry_cases system b ⟨bn - ndirect, within⟩ with
        ⟨word_ne, -⟩ | ⟨-, zero, eq⟩ | ⟨c, hc, free', -, eq⟩
      · rw [clear, word_zero] at word_ne
        exact absurd rfl word_ne
      · exact .inl ⟨by omega, _, _, by rw [eq]⟩
      · refine .inr ⟨_, _, _, by rw [eq], ne_zero_of_data hc, ?_, fun _ => ?_,
          fun small => absurd small absent⟩
        · have := freeBlocks_taken hc free'
          show freeBlocks g (taken (taken d b) c) + 2 = _
          omega
        · exact ne_zero_of_data hb

/-- When the disk is full, `bmap` has at most taken an indirect block. -/
theorem bmap_full (h : Owns g d ino) (live : (ino i).type ≠ 0)
    (done : bmap g d (ino i) bn = .ok (0, d', ip')) :
    (∀ bn', blockAt d'.block ip' bn' = blockAt d.block (ino i) bn') ∧
      ∀ c, d.bit c = true → d'.block c = d.block c := by
  unfold bmap at done
  split at done
  · rename_i small
    rcases bmapAddr_cases h.system (ino i) ⟨bn, Nat.lt_succ_of_lt small⟩ with
      ⟨some, eq⟩ | ⟨-, -, eq⟩ | ⟨b, hb, -, -, eq⟩
    · rw [eq] at done
      exact absurd (Prod.mk.inj (Except.ok.inj done)).1 some
    · rw [eq] at done
      cases done
      exact ⟨fun _ => rfl, fun _ _ => rfl⟩
    · rw [eq] at done
      exact absurd (Prod.mk.inj (Except.ok.inj done)).1 (ne_zero_of_data hb)
  split at done
  · rename_i within
    by_cases zero : (bmapAddr g d (ino i) (Fin.last ndirect)).1 = 0
    · rcases bmapAddr_cases h.system (ino i) (Fin.last ndirect) with
        ⟨some, eq⟩ | ⟨-, -, eq⟩ | ⟨b, hb, -, -, eq⟩
      · rw [eq] at zero
        exact absurd zero some
      · rw [eq] at done
        cases done
        exact ⟨fun _ => rfl, fun _ _ => rfl⟩
      · rw [eq] at zero
        exact absurd zero (ne_zero_of_data hb)
    · obtain ⟨-, -, system, kept, blocks⟩ := bmapAddr_ind h live zero
      simp only [if_neg zero] at done
      generalize bmapAddr g d (ino i) (Fin.last ndirect) = r at done system kept blocks
      rcases bmapEntry_cases system r.1 ⟨bn - ndirect, within⟩ with ⟨some, eq⟩ | ⟨-, -, eq⟩
        | ⟨b, hb, -, -, eq⟩
      · rw [eq] at done
        exact absurd (Prod.mk.inj (Except.ok.inj done)).1 some
      · rw [eq] at done
        cases done
        exact ⟨blocks, fun c used => (kept c used).1⟩
      · rw [eq] at done
        exact absurd (Prod.mk.inj (Except.ok.inj done)).1 (ne_zero_of_data hb)
  · cases done

section loop
variable [DecidableEq ι] {src : Source} {n off : Nat}

variable {lo tot t t' : Nat} {d1 : Disk} {ip1 : Dinode} {blk : UInt32 → Block}

/-- Once number `lo` is mapped, what is left to map are the numbers behind it. -/
theorem needs_step {hi} (h : Mapped g d ino i lo a d1 ip1)
    (some : ndirect ≤ lo → ip1.ind ≠ 0) (same : lo < ndirect → ip1.ind = (ino i).ind) (v : Block)
    (lt : lo < hi) : needs d.block (ino i) lo hi =
      wanted d.block (ino i) lo + needs (update d1.block a v) ip1 (lo + 1) hi := by
  have rest : (Finset.Ico (lo + 1) hi).filter (fun bn => blockAt (update d1.block a v) ip1 bn = 0) =
      (Finset.Ico (lo + 1) hi).filter fun bn => blockAt d.block (ino i) bn = 0 := by
    refine Finset.filter_congr fun bn mem => ?_
    have ne : bn ≠ lo := by
      have := (Finset.mem_Ico.1 mem).1
      omega
    rw [h.blocks]
    refine ⟨fun zero => ?_, fun zero => ?_⟩
    · by_contra mapped
      exact mapped ((h.grows.blockAt bn mapped).symm.trans zero)
    · by_contra mapped
      exact mapped ((h.other ne mapped).1.trans zero)
  have first : ((Finset.Ico lo hi).filter fun bn => blockAt d.block (ino i) bn = 0).card =
      (if blockAt d.block (ino i) lo = 0 then 1 else 0) +
        ((Finset.Ico (lo + 1) hi).filter fun bn => blockAt d.block (ino i) bn = 0).card := by
    have split_lo : Finset.Ico lo hi = insert lo (Finset.Ico (lo + 1) hi) := by
      ext bn
      simp only [Finset.mem_Ico, Finset.mem_insert]
      omega
    rw [split_lo, Finset.filter_insert]
    split
    · rw [Finset.card_insert_of_notMem (by simp), add_comm]
    · rw [zero_add]
  rw [needs, needs, wanted, rest, first]
  rcases lt_or_ge lo ndirect with small | big
  · have direct : ¬ (ndirect ≤ lo ∧ (ino i).ind = 0) := fun both => absurd small (not_lt.2 both.1)
    have ends : (lo < hi ∧ ndirect < hi ∧ (ino i).ind = 0) ↔
        (lo + 1 < hi ∧ ndirect < hi ∧ (ino i).ind = 0) := by
      constructor
      · rintro ⟨-, big, zero⟩
        exact ⟨by omega, big, zero⟩
      · rintro ⟨-, big, zero⟩
        exact ⟨lt, big, zero⟩
    simp only [same small, direct, ends, if_false]
    omega
  · have gone : ¬ (lo + 1 < hi ∧ ndirect < hi ∧ ip1.ind = 0) := fun all => some big all.2.2
    have before : (lo < hi ∧ ndirect < hi ∧ (ino i).ind = 0) ↔ (ndirect ≤ lo ∧ (ino i).ind = 0) :=
      ⟨fun all => ⟨big, all.2.2⟩, fun both => ⟨lt, by omega, both.2⟩⟩
    rw [if_neg gone]
    simp only [before]
    omega

/-! ## What a write changes -/

/-- Another file keeps its blocks and what is in them. -/
structure Untouched (blk blk' : UInt32 → Block) (ip : Dinode) : Prop where
  blocks : ∀ bn, blockAt blk' ip bn = blockAt blk ip bn
  same : ∀ bn, blockAt blk ip bn ≠ 0 → blk' (blockAt blk ip bn) = blk (blockAt blk ip bn)

theorem Untouched.refl : Untouched blk blk ip := ⟨fun _ => rfl, fun _ _ => rfl⟩

theorem Untouched.trans {blk' blk''} (h : Untouched blk blk' ip)
    (h' : Untouched blk' blk'' ip) : Untouched blk blk'' ip := by
  refine ⟨fun bn => (h'.blocks bn).trans (h.blocks bn), fun bn mapped => ?_⟩
  rw [← h.blocks] at mapped
  have same := h'.same bn mapped
  rw [h.blocks] at same mapped
  exact same.trans (h.same bn mapped)

theorem Untouched.holds {blk' l} (h : Untouched blk blk' ip)
    (holds : Holds blk ip l) : Holds blk' ip l := by
  refine ⟨fun bn lt => ?_, fun k lt => ?_⟩
  · rw [h.blocks]
    exact holds.upto bn lt
  · have mapped : blockAt blk ip (k / bsize) ≠ 0 := by
      refine holds.upto _ ?_
      have := Nat.div_mul_le_self k bsize
      omega
    rw [byteAt, h.blocks, h.same _ mapped]
    exact holds.bytes k lt

/-- The bytes from `lo` up to `hi` of the source have gone into the file, where
byte 0 goes to `off`. New blocks hold zeros besides. -/
structure Wrote (g : Super) (src : Source) (off : Nat) (ino : ι → Dinode) (i : ι) (d : Disk)
    (lo hi : Nat) (d' : Disk) (ip' : Dinode) : Prop where
  grows : Grows g ino i d d' ip'
  there : ∀ k, off + lo ≤ k → k < off + hi → blockAt d'.block ip' (k / bsize) ≠ 0
  bytes : ∀ k, blockAt d'.block ip' (k / bsize) ≠ 0 → byteAt d'.block ip' k =
    if off + lo ≤ k ∧ k < off + hi then src.byte (k - off)
    else if blockAt d.block (ino i) (k / bsize) = 0 then 0 else byteAt d.block (ino i) k
  others : ∀ j, j ≠ i → (ino j).type ≠ 0 → Untouched d.block d'.block (ino j)

theorem Wrote.trans {mid hi d2 ip2} (h : Wrote g src off ino i d lo mid d1 ip1)
    (h' : Wrote g src off (update ino i ip1) i d1 mid hi d2 ip2) (le : lo ≤ mid) (le' : mid ≤ hi) :
    Wrote g src off ino i d lo hi d2 ip2 := by
  have self : update ino i ip1 i = ip1 := update_self ..
  have kept : ∀ bn, blockAt d1.block ip1 bn ≠ 0 → blockAt d2.block ip2 bn ≠ 0 := by
    intro bn mapped
    have same := h'.grows.blockAt bn
    rw [self] at same
    rw [same mapped]
    exact mapped
  refine ⟨h.grows.trans h'.grows, fun k ge lt => ?_, fun k mapped => ?_, fun j hj live => ?_⟩
  · rcases lt_or_ge k (off + mid) with early | late
    · exact kept _ (h.there k ge early)
    · exact h'.there k late lt
  · have second := h'.bytes k mapped
    rw [self] at second
    rw [second]
    by_cases late : off + mid ≤ k ∧ k < off + hi
    · rw [if_pos late, if_pos ⟨by omega, late.2⟩]
    rw [if_neg late]
    by_cases old : blockAt d1.block ip1 (k / bsize) = 0
    · have early : ¬ (off + lo ≤ k ∧ k < off + hi) := fun both =>
        h.there k both.1 (Nat.lt_of_not_le fun ge => late ⟨ge, both.2⟩) old
      have before : blockAt d.block (ino i) (k / bsize) = 0 := by
        by_contra was
        exact was ((h.grows.blockAt _ was).symm.trans old)
      rw [if_pos old, if_neg early, if_pos before]
    · rw [if_neg old, h.bytes k old]
      have range : (off + lo ≤ k ∧ k < off + mid) ↔ (off + lo ≤ k ∧ k < off + hi) := by omega
      simp only [range]
  · have other : update ino i ip1 j = ino j := update_of_ne hj ..
    have second := h'.others j hj (by rw [other]; exact live)
    rw [other] at second
    exact (h.others j hj live).trans second

/-- The part of a block that a round writes. -/
theorem copyInto_at {b p c k} (at_k : k / bsize = p / bsize) :
    copyInto b (p % bsize) src tot c ⟨k % bsize, mod_bsize k⟩ =
      if p ≤ k ∧ k < p + c then src.byte (tot + (k - p)) else b ⟨k % bsize, mod_bsize k⟩ := by
  have range : (p % bsize ≤ k % bsize ∧ k % bsize < p % bsize + c) ↔ (p ≤ k ∧ k < p + c) := by
    simp only [bsize] at *
    omega
  have index : k % bsize - p % bsize = k - p := by
    simp only [bsize] at *
    omega
  simp only [copyInto, range, index]

/-- One round of the loop: `c` bytes go into a block that has been mapped. -/
theorem wrote_round (src : Source) {c} (h : Mapped g d ino i ((off + tot) / bsize) a d1 ip1)
    (fits : c ≤ bsize - (off + tot) % bsize) : Wrote g src off ino i d tot (tot + c)
      { d1 with block := update d1.block a (copyInto (d1.block a) ((off + tot) % bsize) src tot c) }
        ip1 := by
  have inside : ∀ k, off + tot ≤ k → k < off + (tot + c) → k / bsize = (off + tot) / bsize := by
    intro k ge lt
    simp only [bsize] at *
    omega
  refine ⟨(h.grows.fill h.live h.here h.ne _).1, fun k ge lt => ?_, fun k mapped => ?_,
    fun j hj live => ⟨(h.others _ hj live).1, (h.others _ hj live).2⟩⟩
  · rw [h.blocks, inside k ge lt, h.here]
    exact h.ne
  · rw [h.blocks] at mapped
    rw [h.byteAt_update _ mapped]
    split
    · rename_i at_k
      rw [copyInto_at at_k, h.old at_k, ← at_k]
      have range : (off + tot ≤ k ∧ k < off + tot + c) ↔ (off + tot ≤ k ∧ k < off + (tot + c)) :=
        by omega
      simp only [range]
      split
      · rw [show tot + (k - (off + tot)) = k - off by omega]
      · rfl
    · rename_i at_k
      rw [if_neg fun both => at_k (inside k both.1 both.2),
        if_neg ((h.maps.only _ mapped).resolve_left at_k)]

/-- A round that moves nothing. -/
theorem wrote_none (h : Mapped g d ino i ((off + tot) / bsize) a d1 ip1) :
    Wrote g src off ino i d tot tot d1 ip1 := by
  have none := wrote_round src (c := 0) h (Nat.zero_le _)
  have same : copyInto (d1.block a) ((off + tot) % bsize) src tot 0 = d1.block a := by
    funext k
    exact if_neg (by omega)
  rw [same, update_eq_self] at none
  exact none

/-- A full disk changes no byte of any file. -/
theorem wrote_full (h : Owns g d ino) (live : (ino i).type ≠ 0)
    (done : bmap g d (ino i) bn = .ok (0, d', ip')) : Wrote g src off ino i d tot tot d' ip' := by
  obtain ⟨blocks, kept⟩ := bmap_full h live done
  have grows := ((bmap_spec h live _).of_ok done).1
  refine ⟨grows, fun k ge lt => absurd lt (not_lt.2 ge), fun k mapped => ?_,
    fun j hj live' => ⟨fun bn => ?_, fun bn mapped => ?_⟩⟩
  · rw [blocks] at mapped
    rw [if_neg (by omega), if_neg mapped, byteAt, blocks, kept _ (blockAt_used h live mapped),
      byteAt]
  · rcases blockAt_place bn with ⟨p, -, at_p⟩ | none
    · rw [at_p, at_p, grows.others j hj live']
    · rw [none, none]
  · exact kept _ (blockAt_used h live' mapped)

/-! ## Where a write stops -/

/-- A chunk of the write starts at byte `t` of the source. -/
def Starts (off t : Nat) : Prop := t = 0 ∨ (off + t) % bsize = 0

/-- As many blocks are free as the bytes from `lo` to `t` take. -/
def Room (g : Super) (off : Nat) (d : Disk) (ip : Dinode) (lo t : Nat) : Prop :=
  needs d.block ip ((off + lo) / bsize) ((off + t) / bsize + 1) ≤ freeBlocks g d
  deriving Decidable

/-- The loop, with `lo` bytes moved, stops at byte `t` of the source: all are
moved, or the disk is full, or the source breaks off in the chunk. -/
structure Stops (g : Super) (src : Source) (n off : Nat) (d : Disk) (ip : Dinode) (lo t : Nat) :
    Prop where
  ge : lo ≤ t
  le : t ≤ n
  starts : t < n → Starts off t
  copied : ∀ u, lo ≤ u → u < t → Starts off u → chunk n u (off + u) ≤ src.got u
  room : lo < t → Room g off d ip lo (t - 1)
  why : t < n → Room g off d ip lo t → src.got t < chunk n t (off + t)

/-- How many bytes of the chunk that it could not finish stay in the buffer. -/
def spilt (g : Super) (src : Source) (n off : Nat) (d : Disk) (ip : Dinode) (lo t : Nat) : Nat :=
  if src.kept ∧ t < n ∧ Room g off d ip lo t then src.got t else 0

theorem Room.mono (h : Room g off d ip lo t') (le : t ≤ t') : Room g off d ip lo t :=
  le_trans (needs_mono (Nat.succ_le_succ (Nat.div_le_div_right (by omega)))) h

/-- The loop stops at one place. -/
theorem Stops.le_of (h : Stops g src n off d ip lo t) (h' : Stops g src n off d ip lo t') :
    t' ≤ t := by
  by_contra further
  have lt : t < t' := Nat.lt_of_not_le further
  have lo_le := h.ge
  have le_n := h'.le
  have short := h.why (by omega) ((h'.room (by omega)).mono (by omega))
  have all := h'.copied t lo_le lt (h.starts (by omega))
  omega

theorem Stops.unique (h : Stops g src n off d ip lo t) (h' : Stops g src n off d ip lo t') :
    t = t' :=
  le_antisymm (h'.le_of h) (h.le_of h')

theorem needs_one : needs blk ip lo (lo + 1) = wanted blk ip lo := by
  have one : Finset.Ico lo (lo + 1) = {lo} := by
    ext bn
    simp only [Finset.mem_Ico, Finset.mem_singleton]
    omega
  have ind : (lo < lo + 1 ∧ ndirect < lo + 1 ∧ ip.ind = 0) ↔ (ndirect ≤ lo ∧ ip.ind = 0) := by
    exact ⟨fun all => ⟨Nat.le_of_lt_succ all.2.1, all.2.2⟩,
      fun both => ⟨Nat.lt_succ_self _, Nat.lt_succ_of_le both.1, both.2⟩⟩
  rw [needs, wanted, one, Finset.filter_singleton]
  simp only [ind]
  split <;> rfl

/-- Room for the rest, once the block of the first chunk is mapped and written. -/
theorem room_step {m} (h : Mapped g d ino i ((off + tot) / bsize) a d1 ip1)
    (count : freeBlocks g d1 + wanted d.block (ino i) ((off + tot) / bsize) = freeBlocks g d)
    (some : ndirect ≤ (off + tot) / bsize → ip1.ind ≠ 0)
    (same : (off + tot) / bsize < ndirect → ip1.ind = (ino i).ind) (v : Block)
    (next : (off + (tot + m)) / bsize = (off + tot) / bsize + 1) (le : tot + m ≤ t) :
    Room g off { d1 with block := update d1.block a v } ip1 (tot + m) t ↔
      Room g off d (ino i) tot t := by
  have lt : (off + tot) / bsize < (off + t) / bsize + 1 :=
    Nat.lt_succ_of_le (Nat.div_le_div_right (by omega))
  have split_needs := needs_step h some same v lt
  have free : freeBlocks g { d1 with block := update d1.block a v } = freeBlocks g d1 := rfl
  simp only [Room, next, free]
  omega

/-- The loop of `writei`, from byte `tot` of the source on. -/
theorem writeLoop_stops (src : Source) (fits : off + n ≤ maxfile * bsize) (fuel : Nat) :
    ∀ (tot : Nat) {d : Disk} {ino : ι → Dinode}, Owns g d ino → (ino i).type ≠ 0 → tot ≤ n →
      n - tot ≤ fuel →
    (tot < n → Starts off tot) →
    ∃ t d' ip', writeLoop g src n fuel tot (off + tot) d (ino i) = .ok (t, off + t, d', ip') ∧
      Stops g src n off d (ino i) tot t ∧
      Wrote g src off ino i d tot (t + spilt g src n off d (ino i) tot t) d' ip' := by
  have finished : ∀ {tot : Nat} {d : Disk} {ino : ι → Dinode}, Owns g d ino → tot = n →
      Stops g src n off d (ino i) tot tot ∧
      Wrote g src off ino i d tot (tot + spilt g src n off d (ino i) tot tot) d (ino i) := by
    rintro tot d ino h rfl
    have none : spilt g src tot off d (ino i) tot tot = 0 := if_neg fun all => lt_irrefl _ all.2.1
    refine ⟨⟨le_refl _, le_refl _, fun lt => absurd lt (lt_irrefl _), fun u ge lt => by omega,
      fun lt => absurd lt (lt_irrefl _), fun lt => absurd lt (lt_irrefl _)⟩, ?_⟩
    refine ⟨.refl h, fun k ge lt => by omega, fun k mapped => ?_, fun _ _ _ => .refl⟩
    rw [if_neg (by omega), if_neg mapped]
  induction fuel with
  | zero =>
    intro tot d ino h live le short _
    exact ⟨tot, d, ino i, rfl, finished h (by omega)⟩
  | succ fuel ih =>
    intro tot d ino h live le short starts
    rw [writeLoop]
    split
    · exact ⟨tot, d, ino i, rfl, finished h (by omega)⟩
    rename_i more
    replace more : tot < n := Nat.lt_of_not_le more
    have inside : (off + tot) / bsize < maxfile := Nat.div_lt_of_lt_mul (by rw [mul_comm]; omega)
    have at_tot : Room g off d (ino i) tot tot ↔ wanted d.block (ino i) ((off + tot) / bsize) ≤
        freeBlocks g d := by
      rw [Room, needs_one]
    rcases bmap_counts (i := i) h inside with ⟨few, d1, ip1, done⟩
      | ⟨a, d1, ip1, done, ne, count, some, same⟩
    · -- the disk is full
      have full : ¬ Room g off d (ino i) tot tot := by
        rw [at_tot]
        omega
      have none : spilt g src n off d (ino i) tot tot = 0 := if_neg fun all => full all.2.2
      refine ⟨tot, d1, ip1, by rw [done]; rfl, ⟨le_refl _, le, starts, fun u ge lt => by omega,
        fun lt => absurd lt (lt_irrefl _), fun _ room => absurd room full⟩, ?_⟩
      rw [none]
      exact wrote_full h live done
    have mapped := mapped_of_bmap h live done ne
    have room : Room g off d (ino i) tot tot := by
      rw [at_tot]
      omega
    rw [done]
    show ∃ t d' ip', (if a = 0 then _ else _) = _ ∧ _
    rw [if_neg ne]
    have within : chunk n tot (off + tot) ≤ bsize - (off + tot) % bsize := chunk_le
    have part : chunk n tot (off + tot) ≤ n - tot := min_le_left ..
    have some_bytes := chunk_pos more (off + tot)
    generalize len : chunk n tot (off + tot) = c at within part some_bytes ⊢
    by_cases breaks : src.got tot < c
    · -- the source breaks off in this chunk
      rw [min_eq_right (le_of_lt breaks)]
      refine ⟨tot, if src.kept = true then _ else d1, ip1, if_pos breaks, ⟨le_refl _, le, starts,
        fun u ge lt => by omega, fun lt => absurd lt (lt_irrefl _), fun _ _ => len ▸ breaks⟩, ?_⟩
      by_cases kept : src.kept = true
      · have all : spilt g src n off d (ino i) tot tot = src.got tot := if_pos ⟨kept, more, room⟩
        rw [all, if_pos kept]
        exact wrote_round src mapped (by omega)
      · have none : spilt g src n off d (ino i) tot tot = 0 := if_neg fun all => kept all.1
        rw [none, if_neg kept]
        exact wrote_none mapped
    · rw [min_eq_left (not_lt.1 breaks)]
      have round := wrote_round src mapped within
      have next : tot + c < n → (off + (tot + c)) % bsize = 0 ∧
          (off + (tot + c)) / bsize = (off + tot) / bsize + 1 := by
        simp only [← len, chunk, bsize]
        omega
      generalize copyInto (d1.block a) ((off + tot) % bsize) src tot (c) = v at round ⊢
      have self : update ino i ip1 i = ip1 := update_self ..
      obtain ⟨t, d', ip', eq, stops, wrote⟩ := ih (tot + c) round.grows.owns
        (by rw [self, round.grows.type]; exact live) (by omega) (by omega) fun lt =>
        .inr (next lt).1
      rw [self] at eq stops wrote
      have ge := stops.ge
      have room_iff : t < n → (Room g off { d1 with block := update d1.block a v } ip1 (tot + c) t ↔
          Room g off d (ino i) tot t) := fun lt =>
        room_step mapped count some same v (next (by omega)).2 ge
      have reached : Room g off d (ino i) tot (t - 1) := by
        rcases lt_or_ge (tot + c) t with further | here
        · have le := stops.le
          exact (room_step mapped count some same v (next (by omega)).2 (by omega)).1
            (stops.room further)
        · have block : (off + (t - 1)) / bsize = (off + tot) / bsize := by
            simp only [bsize] at *
            omega
          rw [Room, block]
          exact room
      refine ⟨t, d', ip', (if_neg breaks).trans (by rw [add_assoc]; exact eq),
        ⟨by omega, stops.le, stops.starts, fun u ge' lt starts' => ?_, fun _ => reached,
          fun lt room' => stops.why lt ((room_iff lt).2 room')⟩, ?_⟩
      · rcases lt_or_ge u (tot + c) with early | late
        · -- no other chunk starts inside this one
          obtain rfl : u = tot := by
            by_contra other
            rcases starts' with zero | aligned
            · omega
            · simp only [bsize] at *
              omega
          exact len ▸ not_lt.1 breaks
        · exact stops.copied u late lt starts'
      · have spilt_eq : spilt g src n off { d1 with block := update d1.block a v } ip1 (tot + c) t =
            spilt g src n off d (ino i) tot t := by
          simp only [spilt, and_congr_right room_iff]
        rw [spilt_eq] at wrote
        exact round.trans wrote (by omega) (by omega)

/-- `writei` from an offset within the file. -/
theorem writei_stops (src : Source) {off n} (h : Owns g d ino) (live : (ino i).type ≠ 0)
    (inside : off ≤ (ino i).size)
    (fits : off.toNat + n.toNat ≤ maxfile * bsize) : ∃ t d' ip1, writei g d (ino i) src off n =
        .ok (some t, d', { ip1 with size := UInt32.ofNat (max (ino i).size.toNat (off.toNat + t)) })
          ∧
      Stops g src n.toNat off.toNat d (ino i) 0 t ∧
      Wrote g src off.toNat ino i d 0 (t + spilt g src n.toNat off.toNat d (ino i) 0 t) d' ip1 := by
  have small : maxfile * bsize < 2 ^ 32 := by decide
  have sum : (off + n).toNat = off.toNat + n.toNat := by
    rw [UInt32.toNat_add]
    exact Nat.mod_eq_of_lt (by omega)
  have within : ¬ ((ino i).size < off ∨ off + n < off) := by
    rintro (beyond | wraps)
    · exact absurd inside (UInt32.not_le.2 beyond)
    · rw [UInt32.lt_iff_toNat_lt, sum] at wraps
      omega
  have short : ¬ maxfile * bsize < (off + n).toNat := by omega
  obtain ⟨t, d', ip1, eq, stops, wrote⟩ := writeLoop_stops src fits n.toNat 0 h live (Nat.zero_le _)
    (Nat.le_refl _) (fun _ => .inl rfl)
  refine ⟨t, d', ip1, ?_, stops, wrote⟩
  rw [writei, if_neg within, if_neg short]
  rw [add_zero] at eq
  rw [eq]
  have size : ip1.size = (ino i).size := wrote.grows.size
  show Except.ok (some t, d', if ip1.size.toNat < off.toNat + t then _ else ip1) = _
  rw [size]
  split
  · rename_i longer
    rw [max_eq_right (le_of_lt longer)]
  · rename_i same
    rw [max_eq_left (not_lt.1 same), UInt32.ofNat_toNat, ← size]

end loop

end OsProject.Xv6.Writing
