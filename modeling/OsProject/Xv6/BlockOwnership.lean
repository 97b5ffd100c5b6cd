import OsProject.Lib.Outcome
import OsProject.Lib.Ownership
import OsProject.Lib.Transition
import OsProject.Xv6.Inode

/-! # Who owns which block

Every address that an allocated inode keeps, in its table or in its indirect
block, is a slot of an exact account whose marks are the bits of the free map.
`balloc` and the store of the new address are one `Exact.take`; `bfree` and the
zeroed address are one `Exact.drop`. Writes of contents go to blocks that no
inode uses as its indirect block. -/
namespace OsProject.Xv6.BlockOwnership
open Lib.Outcome Lib.Ownership Lib.Transition Lib.Words List
open Inode
open Function (update update_of_ne update_self update_eq_self update_idem)

/-- Where an inode keeps an address. -/
inductive Place where
  | direct (k : Fin ndirect)
  | indirect
  | entry (j : Fin nindirect)
  deriving DecidableEq

/-- The address at a place; 0 if there is none. -/
def addrAt (blk : UInt32 → Block) (ip : Dinode) : Place → UInt32
  | .direct k => ip.addrs k.castSucc
  | .indirect => ip.ind
  | .entry j => if ip.ind = 0 then 0 else word (blk ip.ind) j

/-- The place of an entry of the address table. -/
def placeOf (k : Fin (ndirect + 1)) : Place :=
  if h : k.val < ndirect then .direct ⟨k.val, h⟩ else .indirect

def ofAddr (a : UInt32) : Option UInt32 := if a = 0 then none else some a

variable {ι : Type*} {g : Super} {d d' : Disk} {ino : ι → Dinode} {i j : ι} {ip ip' : Dinode}
  {blk blk' : UInt32 → Block} {p q : Place} {a b : UInt32} {k : Fin (ndirect + 1)}

/-- The blocks of all allocated inodes. -/
def held (blk : UInt32 → Block) (ino : ι → Dinode) (s : ι × Place) : Option UInt32 :=
  if (ino s.1).type = 0 then none else ofAddr (addrAt blk (ino s.1) s.2)

theorem ofAddr_eq_some : ofAddr a = some b ↔ a = b ∧ b ≠ 0 := by
  unfold ofAddr
  split
  · rename_i zero
    simp only [reduceCtorEq, false_iff, not_and, not_not]
    intro eq
    rw [← eq, zero]
  · rename_i nonzero
    simp only [Option.some.injEq]
    exact ⟨fun eq => ⟨eq, eq ▸ nonzero⟩, And.left⟩

theorem held_eq_some :
    held blk ino (i, p) = some b ↔ (ino i).type ≠ 0 ∧ addrAt blk (ino i) p = b ∧ b ≠ 0 := by
  unfold held
  split
  · rename_i free
    simp [free]
  · rename_i live
    rw [ofAddr_eq_some]
    exact ⟨fun h => ⟨live, h⟩, .right⟩

theorem held_of_addr (live : (ino i).type ≠ 0) (ne : addrAt blk (ino i) p ≠ 0) :
    held blk ino (i, p) = some (addrAt blk (ino i) p) := held_eq_some.2 ⟨live, rfl, ne⟩

theorem held_eq_none (empty : addrAt blk (ino i) p = 0) : held blk ino (i, p) = none := by
  unfold held
  split
  · rfl
  · rw [empty]
    rfl

theorem addrAt_placeOf : addrAt blk ip (placeOf k) = ip.addrs k := by
  unfold placeOf
  split
  · rfl
  · rename_i big
    have last : k = Fin.last ndirect := Fin.ext (le_antisymm (Nat.le_of_lt_succ k.isLt)
      (Nat.le_of_not_lt big))
    rw [last]
    rfl

/-- The contents of the indirect block decide. -/
theorem addrAt_block (same : ip.ind ≠ 0 → blk' ip.ind = blk ip.ind) :
    addrAt blk' ip p = addrAt blk ip p := by
  cases p with
  | direct k => rfl
  | indirect => rfl
  | entry j =>
    simp only [addrAt]
    split
    · rfl
    · rename_i ne
      rw [same ne]

/-- One address of one inode changes. -/
theorem held_change [DecidableEq ι] (live : (ino i).type ≠ 0) (live' : ip'.type ≠ 0)
    (own : ∀ q, q ≠ p → addrAt blk' ip' q = addrAt blk (ino i) q)
    (others : ∀ j, j ≠ i → (ino j).type ≠ 0 → ∀ q, addrAt blk' (ino j) q = addrAt blk (ino j) q) :
    held blk' (update ino i ip') = update (held blk ino) (i, p) (ofAddr (addrAt blk' ip' p)) := by
  funext ⟨j, q⟩
  by_cases hj : j = i
  · subst hj
    by_cases hq : q = p
    · subst hq
      rw [update_self, held, update_self, if_neg live']
    · rw [update_of_ne (fun eq => hq (congrArg Prod.snd eq)), held, held,
        update_self, if_neg live', if_neg live, own q hq]
  · rw [update_of_ne (fun eq => hj (congrArg Prod.fst eq)), held, held,
      update_of_ne hj]
    split
    · rfl
    · rename_i live
      rw [others j hj live q]

/-- The free map marks what the inodes hold, and the blocks before the data. -/
structure Owns (g : Super) (d : Disk) (ino : ι → Dinode) : Prop where
  exact : Exact g.data (held d.block ino) d.bit
  system : ∀ b, b < g.first → d.bit b = true

theorem ne_zero_of_data (h : b ∈ g.data) : b ≠ 0 := by
  intro zero
  subst zero
  exact absurd (UInt32.lt_of_lt_of_le g.boot h.1) (UInt32.lt_irrefl 0)

theorem balloc_spec (system : ∀ b, b < g.first → d.bit b = true) :
    balloc g d = (0, d) ∨ ∃ b, b ∈ g.data ∧ d.bit b = false ∧ balloc g d =
      (b, { bit := update d.bit b true, block := update d.block b fun _ => 0 }) := by
  unfold balloc
  split
  · rename_i b found
    have free : d.bit (UInt32.ofNat b) = false := by simpa using find?_some found
    have lt : b < g.size.toNat := mem_range.1 (mem_of_find?_eq_some found)
    have small : b < 2 ^ 32 := lt_trans lt g.size.toNat_lt
    refine .inr ⟨_, ⟨?_, ?_⟩, free, rfl⟩
    · refine UInt32.not_lt.1 fun before => ?_
      rw [system _ before] at free
      cases free
    · rw [UInt32.lt_iff_toNat_lt, UInt32.toNat_ofNat_of_lt' small]
      exact lt
  · exact .inl rfl

namespace Owns

theorem bit (h : Owns g d ino) (live : (ino i).type ≠ 0) (ne : addrAt d.block (ino i) p ≠ 0) :
    d.bit (addrAt d.block (ino i) p) = true := h.exact.used_of_held (held_of_addr live ne)

/-- A free block is nobody's. -/
theorem not_free (h : Owns g d ino) (free : d.bit b = false) (live : (ino i).type ≠ 0)
    (hb : b ≠ 0) : addrAt d.block (ino i) p ≠ b := fun eq =>
  h.exact.not_held free (held_eq_some.2 ⟨live, eq, hb⟩)

/-- A block at one place is at no other one. -/
theorem only (h : Owns g d ino) (live : (ino i).type ≠ 0) (live' : (ino j).type ≠ 0)
    (at_p : addrAt d.block (ino i) p = b) (at_q : addrAt d.block (ino j) q = b) (hb : b ≠ 0) :
    (i, p) = (j, q) :=
  h.exact.once _ _ b (held_eq_some.2 ⟨live, at_p, hb⟩) (held_eq_some.2 ⟨live', at_q, hb⟩)

/-- Other contents for a block that is nobody's indirect block. -/
theorem rewrite {v} (h : Owns g d ino) (plain : ∀ j, (ino j).type ≠ 0 → (ino j).ind ≠ b) :
    Owns g { d with block := update d.block b v } ino where
  exact := by
    have same : held (update d.block b v) ino = held d.block ino := by
      funext ⟨j, q⟩
      unfold held
      split
      · rfl
      · rename_i live
        rw [addrAt_block fun _ => update_of_ne (plain j live) _ _]
    rw [same]
    exact h.exact
  system := h.system

end Owns

/-! ## Growing -/

variable [DecidableEq ι]

/-- The fields that the account does not look at. -/
theorem Owns.replace (h : Owns g d (update ino i ip)) (type : ip'.type = ip.type)
    (addrs : ip'.addrs = ip.addrs) : Owns g d (update ino i ip') where
  exact := by
    have same : held d.block (update ino i ip') = held d.block (update ino i ip) := by
      funext ⟨j, q⟩
      by_cases hj : j = i
      · subst hj
        have ind : ip'.ind = ip.ind := congrFun addrs _
        have at_q : addrAt d.block ip' q = addrAt d.block ip q := by
          cases q with
          | direct k => exact congrFun addrs _
          | indirect => exact ind
          | entry e => simp only [addrAt, ind]
        simp only [held, update_self, type, at_q]
      · simp only [held, update_of_ne hj]
    rw [same]
    exact h.exact
  system := h.system

/-- An operation on inode `i` that at most adds blocks to it. -/
structure Grows (g : Super) (ino : ι → Dinode) (i : ι) (d d' : Disk) (ip' : Dinode) : Prop where
  owns : Owns g d' (update ino i ip')
  type : ip'.type = (ino i).type
  size : ip'.size = (ino i).size
  kept : ∀ p, addrAt d.block (ino i) p ≠ 0 → addrAt d'.block ip' p = addrAt d.block (ino i) p
  others : ∀ j, j ≠ i → (ino j).type ≠ 0 → ∀ p, addrAt d'.block (ino j) p = addrAt d.block (ino j) p

namespace Grows

theorem refl (h : Owns g d ino) : Grows g ino i d d (ino i) where
  owns := by rw [update_eq_self]; exact h
  type := rfl
  size := rfl
  kept _ _ := rfl
  others _ _ _ _ := rfl

theorem trans {d1 d2 ip1 ip2} (h1 : Grows g ino i d d1 ip1)
    (h2 : Grows g (update ino i ip1) i d1 d2 ip2) : Grows g ino i d d2 ip2 := by
  have self : update ino i ip1 i = ip1 := update_self ..
  refine ⟨?_, ?_, ?_, fun p ne => ?_, fun j hj live p => ?_⟩
  · have owns := h2.owns
    rw [update_idem] at owns
    exact owns
  · rw [h2.type, self, h1.type]
  · rw [h2.size, self, h1.size]
  · have mid := h1.kept p ne
    have kept := h2.kept p (by rw [self, mid]; exact ne)
    rw [self] at kept
    rw [kept, mid]
  · have other : update ino i ip1 j = ino j := update_of_ne hj ..
    have same := h2.others j hj (by rw [other]; exact live) p
    rw [other] at same
    rw [same, h1.others j hj live p]

/-- A free block goes to an empty place. -/
theorem give (h : Owns g d ino) (live : (ino i).type ≠ 0) (live' : ip'.type = (ino i).type)
    (size : ip'.size = (ino i).size) (hb : b ∈ g.data) (free : d.bit b = false)
    (empty : addrAt d.block (ino i) p = 0) (at_p : addrAt blk' ip' p = b)
    (own : ∀ q, q ≠ p → addrAt blk' ip' q = addrAt d.block (ino i) q)
    (others : ∀ j, j ≠ i → (ino j).type ≠ 0 → ∀ q, addrAt blk' (ino j) q =
      addrAt d.block (ino j) q) :
    Grows g ino i d { bit := update d.bit b true, block := blk' } ip' where
  owns := by
    refine ⟨?_, fun c hc => ?_⟩
    · rw [held_change live (live' ▸ live) own others, at_p, ofAddr, if_neg (ne_zero_of_data hb)]
      exact h.exact.take hb free (held_eq_none empty)
    · show update d.bit b true c = true
      by_cases eq : c = b
      · rw [eq, update_self]
      · rw [update_of_ne eq]
        exact h.system c hc
  type := live'
  size := size
  kept q ne := own q fun eq => ne (eq ▸ empty)
  others := others

/-- New contents for a block of the file. -/
theorem write {v} (h : Owns g d ino) (live : (ino i).type ≠ 0)
    (at_p : addrAt d.block (ino i) p = a) (ha : a ≠ 0) (hp : p ≠ .indirect) :
    Grows g ino i d { d with block := update d.block a v } (ino i) := by
  have plain : ∀ j, (ino j).type ≠ 0 → (ino j).ind ≠ a := by
    intro j live' eq
    exact hp (congrArg Prod.snd (h.only live live' at_p (q := .indirect) eq ha))
  have same : ∀ j, (ino j).type ≠ 0 → ∀ q,
      addrAt (update d.block a v) (ino j) q = addrAt d.block (ino j) q :=
    fun j live q => addrAt_block fun _ => update_of_ne (plain j live) _ _
  refine ⟨?_, rfl, rfl, fun q _ => same i live q, fun j _ => same j⟩
  rw [update_eq_self]
  exact h.rewrite plain

end Grows

theorem setAddr_self : (ip.setAddr k a).addrs k = a := update_self ..

theorem setAddr_ne {k'} (ne : k' ≠ k) : (ip.setAddr k a).addrs k' = ip.addrs k' :=
  update_of_ne ne ..

theorem placeOf_castSucc (k : Fin ndirect) : placeOf k.castSucc = .direct k := dif_pos k.isLt

theorem placeOf_last : placeOf (Fin.last ndirect) = .indirect := dif_neg (lt_irrefl _)

/-- The other places, when an entry that had no block gets a block of zeros or
when its block is taken away and has no entries. -/
theorem addrAt_setAddr (same : ip.ind ≠ 0 → blk' ip.ind = blk ip.ind)
    (zero : k = Fin.last ndirect → ∀ j, addrAt blk' (ip.setAddr k a) (.entry j) =
      addrAt blk ip (.entry j))
    (ne : q ≠ placeOf k) : addrAt blk' (ip.setAddr k a) q = addrAt blk ip q := by
  cases q with
  | direct j =>
    refine setAddr_ne fun eq => ne ?_
    rw [← eq, placeOf_castSucc]
  | indirect =>
    refine setAddr_ne fun eq => ne ?_
    rw [← eq, placeOf_last]
  | entry j =>
    by_cases last : k = Fin.last ndirect
    · exact zero last j
    · have ind : (ip.setAddr k a).ind = ip.ind := setAddr_ne (Ne.symm last)
      simp only [addrAt, ind]
      split
      · rfl
      · rename_i nonzero
        rw [same nonzero]

theorem bmapAddr_spec (h : Owns g d ino) (live : (ino i).type ≠ 0) :
    Grows g ino i d (bmapAddr g d (ino i) k).2.1 (bmapAddr g d (ino i) k).2.2 ∧
    ((bmapAddr g d (ino i) k).1 ≠ 0 →
      (bmapAddr g d (ino i) k).2.2.addrs k = (bmapAddr g d (ino i) k).1) := by
  unfold bmapAddr
  split
  · rename_i empty
    rcases balloc_spec h.system with none | ⟨b, hb, free, some⟩
    · simp only [none, if_true]
      exact ⟨.refl h, fun ne => absurd rfl ne⟩
    · have hb0 := ne_zero_of_data hb
      simp only [some, if_neg hb0]
      have plain : ∀ j, (ino j).type ≠ 0 → (ino j).ind ≠ b :=
        fun j live => h.not_free free live hb0 (p := .indirect)
      refine ⟨.give h live rfl rfl hb free (p := placeOf k) ?_ ?_ (fun q => ?_)
        fun j _ live q => ?_, fun _ => setAddr_self⟩
      · rw [addrAt_placeOf, empty]
      · rw [addrAt_placeOf, setAddr_self]
      · refine addrAt_setAddr (fun _ => update_of_ne (plain i live) _ _) fun last j => ?_
        -- the new indirect block is all zeros, and without one there were no entries
        subst last
        have ind : ((ino i).setAddr (Fin.last ndirect) b).ind = b := setAddr_self
        have none : (ino i).ind = 0 := empty
        simp only [addrAt, ind, none, if_neg hb0, if_true, update_self]
        exact word_zero j
      · exact addrAt_block fun _ => update_of_ne (plain j live) _ _
  · exact ⟨.refl h, fun _ => rfl⟩

theorem bmapEntry_spec (h : Owns g d ino) (live : (ino i).type ≠ 0) (ind : (ino i).ind = a)
    (ha : a ≠ 0) (e : Fin nindirect) : Grows g ino i d (bmapEntry g d a e).2 (ino i) ∧
    ((bmapEntry g d a e).1 ≠ 0 →
      addrAt (bmapEntry g d a e).2.block (ino i) (.entry e) = (bmapEntry g d a e).1) := by
  have entry : ∀ blk e', addrAt blk (ino i) (.entry e') = word (blk a) e' := by
    intro blk e'
    simp only [addrAt, ind, if_neg ha]
  unfold bmapEntry
  split
  · rename_i empty
    rcases balloc_spec h.system with none | ⟨b, hb, free, some⟩
    · simp only [none, if_true]
      exact ⟨.refl h, fun ne => absurd rfl ne⟩
    · have hb0 := ne_zero_of_data hb
      simp only [some, if_neg hb0]
      have plain : ∀ j, (ino j).type ≠ 0 → (ino j).ind ≠ b :=
        fun j live => h.not_free free live hb0 (p := .indirect)
      have old : update d.block b (fun _ => 0) a = d.block a :=
        update_of_ne (ind ▸ plain i live) _ _
      have new : addrAt (update (update d.block b fun _ => 0) a
          (setWord (update d.block b (fun _ => 0) a) e b)) (ino i) (.entry e) = b := by
        rw [entry, update_self, word_setWord_self]
      refine ⟨.give h live rfl rfl hb free (p := .entry e) ?_ new (fun q hq => ?_)
        fun j hj live' q => ?_, fun _ => new⟩
      · rw [entry, empty]
      · cases q with
        | direct k => rfl
        | indirect => rfl
        | entry e' =>
          have ne : e' ≠ e := fun eq => hq (congrArg _ eq)
          rw [entry, entry, update_self, word_setWord_ne _ _ ne, old]
      · refine addrAt_block fun _ => ?_
        have ne : (ino j).ind ≠ a := fun eq => hj (congrArg Prod.fst
          (h.only live' live (p := .indirect) (q := .indirect) eq ind ha))
        rw [update_of_ne ne, update_of_ne (plain j live')]
  · exact ⟨.refl h, fun _ => entry _ _⟩

/-! ## Files -/

/-- The block with number `bn` of a file; 0 if there is none. -/
def blockAt (blk : UInt32 → Block) (ip : Dinode) (bn : Nat) : UInt32 :=
  if h : bn < ndirect then addrAt blk ip (.direct ⟨bn, h⟩)
  else if h : bn - ndirect < nindirect then addrAt blk ip (.entry ⟨bn - ndirect, h⟩)
  else 0

/-- The number of a block decides its place. -/
theorem blockAt_place (bn : Nat) :
    (∃ p, p ≠ .indirect ∧ ∀ blk ip, blockAt blk ip bn = addrAt blk ip p) ∨
    ∀ blk ip, blockAt blk ip bn = 0 := by
  by_cases small : bn < ndirect
  · exact .inl ⟨.direct ⟨bn, small⟩, nofun, fun _ _ => dif_pos small⟩
  · by_cases big : bn - ndirect < nindirect
    · exact .inl ⟨.entry ⟨bn - ndirect, big⟩, nofun,
        fun _ _ => by simp only [blockAt, small, big, dif_pos, dif_neg, not_false_eq_true]⟩
    · exact .inr fun _ _ => by simp only [blockAt, small, big, dif_neg, not_false_eq_true]

/-- Every block with a byte before `off` is there. -/
def Upto (blk : UInt32 → Block) (ip : Dinode) (off : Nat) : Prop :=
  ∀ bn, bn * bsize < off → blockAt blk ip bn ≠ 0

theorem Upto.mono {m n} (h : Upto blk ip n) (le : m ≤ n) : Upto blk ip m :=
  fun bn lt => h bn (lt_of_lt_of_le lt le)

theorem Upto.congr {n} (h : Upto blk ip n) (same : ∀ p, addrAt blk' ip' p = addrAt blk ip p) :
    Upto blk' ip' n := by
  intro bn lt
  have ne := h bn lt
  rcases blockAt_place bn with ⟨p, -, eq⟩ | none
  · rw [eq, same, ← eq]
    exact ne
  · exact absurd (none blk ip) ne

/-- The chunk at `off` ends with the block of `off` at the latest. -/
theorem Upto.chunk {off m} (h : Upto blk ip off) (here : blockAt blk ip (off / bsize) ≠ 0)
    (le : m ≤ bsize - off % bsize) : Upto blk ip (off + m) := by
  intro bn lt
  by_cases eq : bn = off / bsize
  · rw [eq]
    exact here
  · refine h bn ?_
    simp only [bsize] at *
    omega

theorem Grows.blockAt (h : Grows g ino i d d' ip') (bn : Nat)
    (ne : blockAt d.block (ino i) bn ≠ 0) :
    BlockOwnership.blockAt d'.block ip' bn = BlockOwnership.blockAt d.block (ino i) bn := by
  rcases blockAt_place bn with ⟨p, -, eq⟩ | none
  · rw [eq, eq]
    exact h.kept p (by rw [← eq]; exact ne)
  · exact absurd (none d.block (ino i)) ne

theorem Grows.upto {n} (h : Grows g ino i d d' ip') (up : Upto d.block (ino i) n) :
    Upto d'.block ip' n := fun bn lt => by
  rw [h.blockAt bn (up bn lt)]
  exact up bn lt

/-- Contents for the block with number `bn`. -/
theorem Grows.fill {bn} (h : Grows g ino i d d' ip') (live : (ino i).type ≠ 0)
    (here : BlockOwnership.blockAt d'.block ip' bn = a) (ha : a ≠ 0) (v : Block) :
    Grows g ino i d { d' with block := update d'.block a v } ip' ∧
      BlockOwnership.blockAt (update d'.block a v) ip' bn ≠ 0 := by
  have self : update ino i ip' i = ip' := update_self ..
  rcases blockAt_place bn with ⟨p, hp, eq⟩ | none
  · have stored := Grows.write (i := i) (v := v) (p := p) (a := a) h.owns
      (by rw [self, h.type]; exact live) (by rw [self, ← eq]; exact here) ha hp
    rw [self] at stored
    refine ⟨h.trans stored, ?_⟩
    have kept := stored.blockAt bn (by rw [self, here]; exact ha)
    rw [self, here] at kept
    rw [kept]
    exact ha
  · exact absurd (here.symm.trans (none _ _)) ha

/-- The panics that the account does not exclude. -/
def Spared (e : Panic) : Prop := e ≠ .freeingFree

theorem bmap_spec (h : Owns g d ino) (live : (ino i).type ≠ 0) (bn : Nat) :
    Ends Spared (bmap g d (ino i) bn) fun r =>
      Grows g ino i d r.2.1 r.2.2 ∧ (r.1 ≠ 0 → blockAt r.2.1.block r.2.2 bn = r.1) := by
  unfold bmap
  split
  · rename_i small
    obtain ⟨grows, new⟩ := bmapAddr_spec h live (k := ⟨bn, Nat.lt_succ_of_lt small⟩)
    refine .ok ⟨grows, fun ne => ?_⟩
    rw [blockAt, dif_pos small]
    exact new ne
  · rename_i small
    split
    · rename_i big
      dsimp only
      obtain ⟨grows, new⟩ := bmapAddr_spec h live (k := Fin.last ndirect)
      generalize bmapAddr g d (ino i) (Fin.last ndirect) = r at grows new
      split
      · rename_i zero
        exact .ok ⟨grows, fun ne => absurd zero ne⟩
      · rename_i ne
        have self : update ino i r.2.2 i = r.2.2 := update_self ..
        obtain ⟨grows', new'⟩ := bmapEntry_spec grows.owns (i := i)
          (by rw [self, grows.type]; exact live) (by rw [self]; exact new ne) ne ⟨bn - ndirect, big⟩
        rw [self] at grows' new'
        refine .ok ⟨grows.trans grows', fun ne' => ?_⟩
        rw [BlockOwnership.blockAt, dif_neg small, dif_pos big]
        exact new' ne'
    · exact fun eq => Panic.noConfusion eq

/-- Where there is a block `bmap` only looks it up. -/
theorem bmap_mapped {bn} (ne : blockAt d.block ip bn ≠ 0) :
    bmap g d ip bn = .ok (blockAt d.block ip bn, d, ip) := by
  unfold bmap BlockOwnership.blockAt at *
  split
  · rename_i small
    rw [dif_pos small] at ne
    have look : bmapAddr g d ip ⟨bn, Nat.lt_succ_of_lt small⟩ = (_, d, ip) := if_neg ne
    rw [look]
    rfl
  · rename_i small
    rw [dif_neg small] at ne
    split
    · rename_i big
      rw [dif_pos big] at ne
      have ind : ip.ind ≠ 0 := fun zero => ne (by simp only [addrAt, zero, if_true])
      have entry : addrAt d.block ip (.entry ⟨bn - ndirect, big⟩) =
          word (d.block ip.ind) ⟨bn - ndirect, big⟩ := by
        simp only [addrAt, if_neg ind]
      rw [entry] at ne ⊢
      have look : bmapAddr g d ip (Fin.last ndirect) = (ip.ind, d, ip) := if_neg ind
      simp only [look, if_neg ind, bmapEntry, if_neg ne]
    · rename_i big
      rw [dif_neg big] at ne
      exact absurd rfl ne

theorem chunk_le {n tot off} : chunk n tot off ≤ bsize - off % bsize := min_le_right ..

theorem chunk_pos {n tot} (more : tot < n) (off : Nat) : 0 < chunk n tot off := by
  have : off % bsize < bsize := Nat.mod_lt _ (by decide)
  unfold chunk
  omega

/-- The loop of `writei`, wherever it stops. -/
theorem writeLoop_spec (src : Source) (n fuel : Nat) :
    ∀ (tot off : Nat) {d : Disk} {ino : ι → Dinode}, Owns g d ino → (ino i).type ≠ 0 →
    Upto d.block (ino i) off → Ends Spared (writeLoop g src n fuel tot off d (ino i)) fun r =>
      Grows g ino i d r.2.2.1 r.2.2.2 ∧ Upto r.2.2.1.block r.2.2.2 r.2.1 := by
  induction fuel with
  | zero => exact fun _ _ _ _ h _ up => .ok ⟨.refl h, up⟩
  | succ fuel ih =>
    intro tot off d ino h live up
    rw [writeLoop]
    split
    · exact .ok ⟨.refl h, up⟩
    refine (bmap_spec h live (off / bsize)).bind fun ⟨addr, d1, ip1⟩ ⟨grows, new⟩ => ?_
    dsimp only at grows new ⊢
    split
    · exact .ok ⟨grows, grows.upto up⟩
    rename_i ne
    have self : update ino i ip1 i = ip1 := update_self ..
    have write := grows.fill live (new ne) ne
    split
    · refine .ok ?_
      split
      · exact ⟨(write _).1, (write _).1.upto up⟩
      · exact ⟨grows, grows.upto up⟩
    · -- the next round starts behind the chunk, in the same block or at its end
      obtain ⟨stored, here⟩ := write (copyInto (d1.block addr) (off % bsize) src tot
        (min (chunk n tot off) (src.got tot)))
      have rest := ih (tot + chunk n tot off) (off + chunk n tot off) stored.owns
        (by rw [self, grows.type]; exact live)
        (by rw [self]; exact (stored.upto up).chunk here chunk_le)
      rw [self] at rest
      exact rest.mono fun r ⟨more, upto⟩ => ⟨stored.trans more, upto⟩

theorem writei_spec (h : Owns g d ino) (live : (ino i).type ≠ 0)
    (up : Upto d.block (ino i) (ino i).size.toNat) (src : Source) (off n : UInt32) :
    Ends Spared (writei g d (ino i) src off n) fun r =>
      Owns g r.2.1 (update ino i r.2.2) ∧ r.2.2.type = (ino i).type ∧
      Upto r.2.1.block r.2.2 r.2.2.size.toNat ∧
      (∀ j, j ≠ i → (ino j).type ≠ 0 → ∀ p, addrAt r.2.1.block (ino j) p =
        addrAt d.block (ino j) p) ∧
      (r.1 = none → r.2 = (d, ino i)) := by
  have stay : Owns g d (update ino i (ino i)) := by
    rw [update_eq_self]
    exact h
  unfold writei
  split
  · exact .ok ⟨stay, rfl, up, fun _ _ _ _ => rfl, fun _ => rfl⟩
  rename_i inside
  split
  · exact .ok ⟨stay, rfl, up, fun _ _ _ _ => rfl, fun _ => rfl⟩
  have le : off.toNat ≤ (ino i).size.toNat := by
    rw [not_or, UInt32.not_lt] at inside
    exact inside.1
  refine (writeLoop_spec src n.toNat n.toNat 0 off.toNat h live (up.mono le)).bind
    fun ⟨tot, off', d', ip'⟩ ⟨grows, upto⟩ => ?_
  have upto' := grows.upto up
  rw [← grows.size] at upto'
  refine .ok ?_
  split
  · -- the size is where the loop stopped
    refine ⟨?_, grows.type, ?_, grows.others, nofun⟩
    · exact grows.owns.replace rfl rfl
    · have reached : Upto d'.block ip' (UInt32.ofNat off').toNat := by
        refine upto.mono ?_
        exact Nat.mod_le ..
      exact reached.congr fun _ => rfl
  · exact ⟨grows.owns, grows.type, upto', grows.others, nofun⟩

/-- Below the size `readi` only looks blocks up. -/
theorem readLoop_spec {σ : Type} (copy : Nat → List UInt8 → σ → σ × Bool) (n fuel : Nat) :
    ∀ (tot off : Nat) (out : σ), Upto d.block ip (off + (n - tot)) →
    Ends Spared (readLoop g copy n fuel tot off d ip out) fun r => r.2.2 = (d, ip) := by
  induction fuel with
  | zero => exact fun _ _ _ _ => .ok rfl
  | succ fuel ih =>
    intro tot off out up
    rw [readLoop]
    split
    · exact .ok rfl
    have here : blockAt d.block ip (off / bsize) ≠ 0 := by
      refine up _ ?_
      have := Nat.div_mul_le_self off bsize
      omega
    have found := bmap_mapped (g := g) here
    generalize blockAt d.block ip (off / bsize) = addr at here found
    rw [found]
    show Ends Spared (if addr = 0 then _ else _) _
    rw [if_neg here]
    split
    · exact .ok rfl
    · refine ih _ _ _ (up.mono ?_)
      have : chunk n tot off ≤ n - tot := min_le_left ..
      omega

theorem readi_spec (up : Upto d.block ip ip.size.toNat) (got : Nat → Nat) (off n : UInt32) :
    Ends Spared (readi g d ip got off n) fun r => r.2.2 = (d, ip) := by
  unfold readi readTo
  split
  · exact .ok rfl
  rename_i inside
  rw [not_or, UInt32.not_lt, UInt32.not_lt] at inside
  obtain ⟨le, nowrap⟩ := inside
  refine readLoop_spec _ _ _ 0 _ _ (up.mono ?_)
  split
  · rw [UInt32.toNat_sub_of_le _ _ le]
    have : off.toNat ≤ ip.size.toNat := le
    omega
  · rename_i fits
    rw [UInt32.not_lt, UInt32.le_iff_toNat_le, UInt32.toNat_add] at fits
    rw [UInt32.le_iff_toNat_le, UInt32.toNat_add] at nowrap
    have := n.toNat_lt
    omega

/-! ## Truncation -/

theorem bfree_ok (used : d.bit b = true) :
    bfree d b = .ok { d with bit := update d.bit b false } := if_pos used

/-- An inode without blocks. -/
def Bare (ip : Dinode) : Prop := ip.type = 0 ∨ ∀ k, ip.addrs k = 0

theorem held_bare (bare : Bare ip) : held blk (update ino i ip) (i, p) = none := by
  rcases bare with free | zero
  · simp only [held, update_self, free, if_true]
  · refine held_eq_none ?_
    rw [update_self]
    cases p with
    | direct k => exact zero _
    | indirect => exact zero _
    | entry e => exact if_pos (zero _)

theorem Owns.bare (h : Owns g d (update ino i ip)) (bare : Bare ip) (bare' : Bare ip') :
    Owns g d (update ino i ip') where
  exact := by
    have same : held d.block (update ino i ip') = held d.block (update ino i ip) := by
      funext ⟨j, q⟩
      by_cases hj : j = i
      · subst hj
        rw [held_bare bare, held_bare bare']
      · simp only [held, update_of_ne hj]
    rw [same]
    exact h.exact
  system := h.system

/-- Freed blocks are data blocks. -/
theorem system_free (system : ∀ b, b < g.first → d.bit b = true) (hb : b ∈ g.data) :
    ∀ c, c < g.first → update d.bit b false c = true := by
  intro c hc
  have ne : c ≠ b := by
    intro eq
    rw [eq] at hc
    exact absurd (UInt32.lt_of_lt_of_le hc hb.1) (UInt32.lt_irrefl b)
  rw [update_of_ne ne]
  exact system c hc

theorem Owns.drop_direct {k : Fin ndirect} (h : Owns g d ino) (live : (ino i).type ≠ 0)
    (ne : (ino i).addrs k.castSucc ≠ 0) :
    Owns g { d with bit := update d.bit ((ino i).addrs k.castSucc) false }
      (update ino i ((ino i).setAddr k.castSucc 0)) := by
  have here : held d.block ino (i, .direct k) = some ((ino i).addrs k.castSucc) :=
    held_of_addr live ne
  refine ⟨?_, system_free h.system (h.exact.inside _ _ here)⟩
  have own : ∀ q, q ≠ .direct k →
      addrAt d.block ((ino i).setAddr k.castSucc 0) q = addrAt d.block (ino i) q := by
    intro q hq
    rw [← placeOf_castSucc] at hq
    exact addrAt_setAddr (fun _ => rfl)
      (fun last => absurd last (Fin.ne_of_lt (Fin.castSucc_lt_last k))) hq
  have empty : addrAt d.block ((ino i).setAddr k.castSucc 0) (.direct k) = 0 := setAddr_self
  have now : held d.block (update ino i ((ino i).setAddr k.castSucc 0)) = _ :=
    held_change live live own fun _ _ _ _ => rfl
  rw [empty] at now
  rw [now]
  exact h.exact.drop here

theorem truncDirect_spec (h : Owns g d ino) (live : (ino i).type ≠ 0) :
    Ends Spared ((List.finRange ndirect).foldlM truncDirect (d, ino i)) fun s =>
      Owns g s.1 (update ino i s.2) ∧ s.1.block = d.block ∧
      s.2.type = (ino i).type ∧ ∀ k : Fin ndirect, s.2.addrs k.castSucc = 0 := by
  have loop : Ends Spared ((List.finRange ndirect).foldlM truncDirect (d, ino i)) fun s =>
      Owns g s.1 (update ino i s.2) ∧ s.1.block = d.block ∧
      s.2.type = (ino i).type ∧ ∀ k ∈ List.finRange ndirect, s.2.addrs k.castSucc = 0 := by
    refine .foldlM (I := fun (done : List (Fin ndirect)) (s : Disk × Dinode) =>
      Owns g s.1 (update ino i s.2) ∧ s.1.block = d.block ∧ s.2.type = (ino i).type ∧
        ∀ k ∈ done, s.2.addrs k.castSucc = 0)
      ⟨by rw [update_eq_self]; exact h, rfl, rfl, nofun⟩ ?_
    rintro done k rest ⟨d1, ip1⟩ - ⟨owns, block, type, zeros⟩
    have self : update ino i ip1 i = ip1 := update_self ..
    unfold truncDirect
    split
    · rename_i zero
      refine .ok ⟨owns, block, type, fun k' hk' => ?_⟩
      rcases mem_append.1 hk' with old | new
      · exact zeros k' old
      · rw [mem_singleton.1 new]
        exact zero
    · rename_i ne
      have live' : (update ino i ip1 i).type ≠ 0 := by
        rw [self, type]
        exact live
      have used : d1.bit (update ino i ip1 i |>.addrs k.castSucc) = true :=
        owns.bit (p := .direct k) live' (by rw [self]; exact ne)
      have dropped := owns.drop_direct (k := k) live' (by rw [self]; exact ne)
      rw [self] at used dropped
      rw [update_idem] at dropped
      rw [bfree_ok used]
      refine .ok ⟨dropped, block, type, fun k' hk' => ?_⟩
      by_cases eq : k' = k
      · rw [eq]
        exact setAddr_self
      · have old : k' ∈ done := (mem_append.1 hk').resolve_right (by simpa using eq)
        rw [setAddr_ne fun same => eq (Fin.castSucc_inj.1 same)]
        exact zeros k' old
  exact loop.mono fun s ⟨owns, block, type, zeros⟩ =>
    ⟨owns, block, type, fun k => zeros k (mem_finRange k)⟩

/-- The account without the entries of `i` that are freed already. -/
def strip (blk : UInt32 → Block) (ino : ι → Dinode) (i : ι) (done : List (Fin nindirect))
    (s : ι × Place) : Option UInt32 :=
  if s ∈ done.map fun e => (i, Place.entry e) then none else held blk ino s

theorem strip_snoc {done e} :
    strip blk ino i (done ++ [e]) = update (strip blk ino i done) (i, .entry e) none := by
  funext s
  by_cases hs : s = (i, .entry e)
  · subst hs
    rw [update_self, strip, if_pos (by simp)]
  · rw [update_of_ne hs, strip, strip]
    simp only [map_append, mem_append, map_cons, map_nil, mem_singleton, hs,
      or_false]

theorem strip_indirect {done} :
    strip blk ino i done (i, .indirect) = held blk ino (i, .indirect) := if_neg (by simp)

/-- The entries of the indirect block `a` and then the block itself. -/
theorem truncEntries_spec (h : Owns g d ino) (live : (ino i).type ≠ 0) (ind : (ino i).ind = a)
    (ha : a ≠ 0) :
    Ends Spared ((List.finRange nindirect).foldlM (truncEntry (d.block a)) d) fun d' =>
      Exact g.data (strip d.block ino i (List.finRange nindirect)) d'.bit ∧
      (∀ b, b < g.first → d'.bit b = true) ∧ d'.block = d.block := by
  have start : Exact g.data (strip d.block ino i []) d.bit := by exact h.exact
  refine .foldlM (I := fun done (d' : Disk) => Exact g.data (strip d.block ino i done) d'.bit ∧
    (∀ b, b < g.first → d'.bit b = true) ∧ d'.block = d.block) ⟨start, h.system, rfl⟩ ?_
  intro done e rest d' split ⟨exact', system, block⟩
  have new : (i, Place.entry e) ∉ done.map fun e => (i, Place.entry e) := by
    intro mem
    obtain ⟨e', old, eq⟩ := mem_map.1 mem
    obtain rfl : e' = e := by simpa using eq
    have nodup := nodup_finRange nindirect
    rw [split] at nodup
    exact (nodup_append.1 nodup).2.2 e' old e' mem_cons_self rfl
  have entry : addrAt d.block (ino i) (.entry e) = word (d.block a) e := by
    simp only [addrAt, ind, if_neg ha]
  have here : strip d.block ino i done (i, .entry e) = held d.block ino (i, .entry e) := if_neg new
  rw [strip_snoc]
  unfold truncEntry
  split
  · rename_i zero
    rw [held_eq_none (entry.trans zero)] at here
    refine .ok ⟨?_, system, block⟩
    rw [← here, update_eq_self]
    exact exact'
  · rename_i ne
    rw [← entry] at ne ⊢
    rw [held_of_addr live ne] at here
    rw [bfree_ok (exact'.used_of_held here)]
    exact .ok ⟨exact'.drop here, system_free system (exact'.inside _ _ here), block⟩

/-- Without its entries and its indirect block an inode has nothing left. -/
theorem strip_bare (direct : ∀ k : Fin ndirect, (ino i).addrs k.castSucc = 0) (bare : Bare ip') :
    update (strip blk ino i (List.finRange nindirect)) (i, .indirect) none =
      held blk (update ino i ip') := by
  funext ⟨j, q⟩
  by_cases hj : j = i
  · subst hj
    rw [held_bare bare]
    cases q with
    | direct k =>
      rw [update_of_ne (by simp), strip, if_neg (by simp)]
      exact held_eq_none (direct k)
    | indirect => exact update_self ..
    | entry e => rw [update_of_ne (by simp), strip, if_pos (by simp)]
  · have away : (j, q) ∉ (List.finRange nindirect).map fun e => (i, Place.entry e) := by
      intro mem
      obtain ⟨e, -, eq⟩ := mem_map.1 mem
      exact hj (congrArg Prod.fst eq).symm
    rw [update_of_ne fun eq => hj (congrArg Prod.fst eq), strip, if_neg away]
    simp only [held, update_of_ne hj]

theorem itrunc_spec (h : Owns g d ino) (live : (ino i).type ≠ 0) :
    Ends Spared (itrunc d (ino i)) fun r => Owns g r.1 (update ino i r.2) ∧
      r.1.block = d.block ∧ r.2.type = (ino i).type ∧ r.2.size = 0 ∧ ∀ k, r.2.addrs k = 0 := by
  refine (truncDirect_spec h live).bind fun ⟨d1, ip1⟩ ⟨owns, block, type, zeros⟩ => ?_
  dsimp only at owns block type zeros ⊢
  have self : update ino i ip1 i = ip1 := update_self ..
  split
  · rename_i none
    exact .ok ⟨owns.replace rfl rfl, block, type, rfl, fun k => Fin.lastCases none zeros k⟩
  · rename_i ne
    have live' : (update ino i ip1 i).type ≠ 0 := by
      rw [self, type]
      exact live
    have bare : ∀ k, (ip1.setAddr (Fin.last ndirect) 0).addrs k = 0 := by
      intro k
      refine Fin.lastCases setAddr_self (fun k => ?_) k
      rw [setAddr_ne (Fin.ne_of_lt (Fin.castSucc_lt_last k))]
      exact zeros k
    refine (truncEntries_spec owns live' (by rw [self]) ne).bind fun d2 ⟨exact', system, block'⟩ =>
      ?_
    have here : strip d1.block (update ino i ip1) i (List.finRange nindirect) (i, .indirect) =
        some ip1.ind := by
      rw [strip_indirect]
      exact held_eq_some.2 ⟨live', by rw [self]; rfl, ne⟩
    rw [bfree_ok (exact'.used_of_held here)]
    have dropped := exact'.drop here
    have cut : Bare { ip1.setAddr (Fin.last ndirect) 0 with size := 0 } := .inr bare
    rw [strip_bare (by rw [self]; exact zeros) cut, update_idem, ← block'] at dropped
    exact .ok ⟨⟨dropped, system_free system (exact'.inside _ _ here)⟩,
      block'.trans block, type, rfl, bare⟩

/-! ## The inode table -/

variable {n : Nat} {fs fs' : Fs n} {e : Fin ninode}

/-- No inode has two entries that somebody refers to. -/
def Single (t : Fin ninode → Entry n) : Prop :=
  ∀ e e', 0 < (t e).ref → 0 < (t e').ref → (t e).inum = (t e').inum → e = e'

theorem Single.set {t : Fin ninode → Entry n} {x} (h : Single t)
    (fresh : 0 < x.ref → ∀ e', e' ≠ e → 0 < (t e').ref → (t e').inum ≠ x.inum) :
    Single (update t e x) := by
  intro e1 e2 live1 live2 same
  by_cases eq1 : e1 = e <;> by_cases eq2 : e2 = e
  · rw [eq1, eq2]
  · subst eq1
    rw [update_self] at live1 same
    rw [update_of_ne eq2] at live2 same
    exact absurd same.symm (fresh live1 e2 eq2 live2)
  · subst eq2
    rw [update_self] at live2 same
    rw [update_of_ne eq1] at live1 same
    exact absurd same (fresh live2 e1 eq1 live1)
  · rw [update_of_ne eq1] at live1 same
    rw [update_of_ne eq2] at live2 same
    exact h e1 e2 live1 live2 same

/-- The copies in memory of inodes on the disk. -/
def Synced (dinode : Fin n → Dinode) (x : Entry n) : Prop :=
  0 < x.ref → x.valid = true → x.ip = dinode x.inum ∧ (dinode x.inum).type ≠ 0

/-- The account on the disk between two calls, with the copies in memory equal
to the inodes on the disk. -/
structure Consistent (g : Super) (fs : Fs n) : Prop where
  owns : Owns g fs.disk fs.dinode
  mapped : ∀ i, (fs.dinode i).type ≠ 0 → Upto fs.disk.block (fs.dinode i) (fs.dinode i).size.toNat
  synced : ∀ e, Synced fs.dinode (fs.itable e)
  single : Single fs.itable

namespace Consistent

theorem owns_self (h : Consistent g fs) (i : Fin n) :
    Owns g fs.disk (update fs.dinode i (fs.dinode i)) := by
  rw [update_eq_self]
  exact h.owns

/-- A change of one entry of the table alone. -/
theorem entry {x : Entry n} (h : Consistent g fs) (synced : Synced fs.dinode x)
    (fresh : 0 < x.ref → ∀ e', e' ≠ e → 0 < (fs.itable e').ref → (fs.itable e').inum ≠ x.inum) :
    Consistent g (fs.setEntry e x) where
  owns := h.owns
  mapped := h.mapped
  synced e' := by
    show Synced fs.dinode (update fs.itable e x e')
    by_cases eq : e' = e
    · rw [eq, update_self]
      exact synced
    · rw [update_of_ne eq]
      exact h.synced e'
  single := h.single.set fresh

/-- The entry keeps its inode, and those who refer to it. -/
theorem fresh {x : Entry n} (h : Consistent g fs) (live : 0 < (fs.itable e).ref)
    (inum : x.inum = (fs.itable e).inum) (e' : Fin ninode) (ne : e' ≠ e)
    (live' : 0 < (fs.itable e').ref) : (fs.itable e').inum ≠ x.inum := by
  rw [inum]
  exact fun same => ne (h.single e' e live' live same)

/-- The end of an operation on the inode of an entry, after `iupdate`. -/
theorem commit {x : Entry n} (h : Consistent g fs) (live : 0 < (fs.itable e).ref)
    (inum : x.inum = (fs.itable e).inum)
    (owns : Owns g d' (update fs.dinode (fs.itable e).inum ip'))
    (mapped : ip'.type ≠ 0 → Upto d'.block ip' ip'.size.toNat)
    (others : ∀ j, j ≠ (fs.itable e).inum → (fs.dinode j).type ≠ 0 →
      ∀ p, addrAt d'.block (fs.dinode j) p = addrAt fs.disk.block (fs.dinode j) p)
    (valid : x.valid = true → x.ip = ip' ∧ ip'.type ≠ 0) :
    Consistent g
      { disk := d'
        dinode := update fs.dinode (fs.itable e).inum ip'
        itable := update fs.itable e x } where
  owns := owns
  mapped j hj := by
    dsimp only at hj ⊢
    by_cases eq : j = (fs.itable e).inum
    · rw [eq, update_self] at hj ⊢
      exact mapped hj
    · rw [update_of_ne eq] at hj ⊢
      exact (h.mapped j hj).congr (others j eq hj)
  synced e' := by
    dsimp only
    by_cases eq : e' = e
    · rw [eq, update_self, Synced, inum, update_self]
      exact fun _ => valid
    · rw [update_of_ne eq]
      intro live' valid'
      rw [update_of_ne fun same => h.fresh live rfl e' eq live' same]
      exact h.synced e' live' valid'
  single := h.single.set fun _ => h.fresh live inum

end Consistent

theorem iget_spec (h : Consistent g fs) (inum : Fin n) :
    Ends Spared (iget fs inum) fun r => Consistent g r.2 := by
  unfold iget
  split
  · rename_i e found
    obtain ⟨live, rfl⟩ : 0 < (fs.itable e).ref ∧ (fs.itable e).inum = inum := by
      simpa using find?_some found
    refine .ok (h.entry (fun _ => h.synced e live) fun _ => h.fresh live rfl)
  · rename_i absent
    have unused : ∀ e', 0 < (fs.itable e').ref → (fs.itable e').inum ≠ inum := by
      intro e' live' same
      have := find?_eq_none.1 absent e' (mem_finRange e')
      simp [live', same] at this
    split
    · exact .ok (h.entry (fun _ valid => Bool.noConfusion valid) fun _ e' _ => unused e')
    · exact fun eq => Panic.noConfusion eq

theorem ilock_spec (h : Consistent g fs) :
    Ends Spared (ilock fs e) fun fs' => Consistent g fs' ∧ 0 < (fs'.itable e).ref ∧
      (fs'.itable e).valid = true := by
  unfold ilock
  dsimp only
  split
  · exact fun eq => Panic.noConfusion eq
  rename_i live
  replace live : 0 < (fs.itable e).ref := not_lt.1 live
  split
  · exact .ok ⟨h, live, ‹_›⟩
  split
  · exact fun eq => Panic.noConfusion eq
  · rename_i typed
    refine .ok ⟨h.entry (fun _ _ => ⟨rfl, typed⟩) fun _ => h.fresh live rfl, ?_, ?_⟩
    · simp only [Fs.setEntry, update_self]
      exact live
    · simp only [Fs.setEntry, update_self]

theorem iupdate_setIp : iupdate (fs.setIp e d ip) e =
    { disk := d
      dinode := update fs.dinode (fs.itable e).inum ip
      itable := update fs.itable e { fs.itable e with ip := ip } } := by
  simp only [iupdate, Fs.setIp, Fs.setEntry, update_self]

theorem setIp_self : fs.setIp e fs.disk (fs.itable e).ip = fs := by
  simp only [Fs.setIp, Fs.setEntry, update_eq_self]

variable (h : Consistent g fs)
include h

theorem locked_spec (live : 0 < (fs.itable e).ref)
    (valid : (fs.itable e).valid = true) (u : Use) :
    Ends Spared (locked g fs e u) (Consistent g) := by
  obtain ⟨copy, typed⟩ := h.synced e live valid
  have up := h.mapped _ typed
  unfold locked
  rw [copy]
  cases u with
  | readi got off n =>
    refine (readi_spec up got off n).bind fun ⟨_, _, d, ip⟩ same => ?_
    obtain ⟨rfl, rfl⟩ : d = fs.disk ∧ ip = fs.dinode (fs.itable e).inum := Prod.mk.inj same
    refine .ok ?_
    rw [← copy, setIp_self]
    exact h
  | writei src off n =>
    refine (writei_spec h.owns typed up src off n).bind
      fun ⟨r, d, ip⟩ ⟨owns, type, upto, others, same⟩ => .ok ?_
    split
    · rw [iupdate_setIp]
      exact h.commit live rfl owns (fun _ => upto) others fun _ => ⟨rfl, type ▸ typed⟩
    · rename_i none
      obtain ⟨rfl, rfl⟩ : d = fs.disk ∧ ip = fs.dinode (fs.itable e).inum :=
        Prod.mk.inj (same (by simpa using none))
      rw [← copy, setIp_self]
      exact h
  | itrunc =>
    refine (itrunc_spec h.owns typed).bind fun ⟨d, ip⟩ ⟨owns, block, type, size, _⟩ => .ok ?_
    rw [iupdate_setIp]
    refine h.commit live rfl owns (fun _ bn lt => ?_) (fun j _ _ p => by rw [block])
      fun _ => ⟨rfl, type ▸ typed⟩
    rw [size] at lt
    exact absurd lt (Nat.not_lt_zero _)
  | fields major minor nlink =>
    refine .ok ?_
    rw [iupdate_setIp]
    refine h.commit live rfl ?_ (fun _ => up.congr fun _ => rfl) (fun _ _ _ _ => rfl)
      fun _ => ⟨rfl, typed⟩
    exact (h.owns_self _).replace rfl rfl

theorem ialloc_spec (type : Int16) : Ends Spared (ialloc fs type) fun r => Consistent g r.2 := by
  unfold ialloc
  split
  · rename_i i found
    have free : (fs.dinode i).type = 0 := by
      have := find?_some found
      simp only [decide_eq_true_eq] at this
      exact this.2
    refine (iget_spec (g := g) ?_ i).bind fun ⟨e, fs'⟩ h' => .ok h'
    refine ⟨?_, fun j hj => ?_, fun e live valid => ?_, h.single⟩
    · exact (h.owns_self i).bare (.inl free) (.inr fun _ => rfl)
    · dsimp only at hj ⊢
      by_cases eq : j = i
      · rw [eq, update_self]
        exact fun bn lt => absurd lt (Nat.not_lt_zero _)
      · rw [update_of_ne eq] at hj ⊢
        exact h.mapped j hj
    · -- a valid copy is of an allocated inode
      obtain ⟨copy, typed⟩ := h.synced e live valid
      have ne : (fs.itable e).inum ≠ i := fun eq => typed (eq ▸ free)
      dsimp only at copy typed ⊢
      rw [update_of_ne ne]
      exact ⟨copy, typed⟩
  · exact .ok h

theorem iputFree_spec (live : 0 < (fs.itable e).ref)
    (valid : (fs.itable e).valid = true) :
    Ends Spared (iputFree fs e) fun fs' => Consistent g fs' ∧ 0 < (fs'.itable e).ref := by
  obtain ⟨copy, typed⟩ := h.synced e live valid
  unfold iputFree
  rw [copy]
  refine (itrunc_spec h.owns typed).bind fun ⟨d, ip⟩ ⟨owns, block, _, _, zero⟩ => .ok ?_
  simp only [iupdate_setIp, Fs.setEntry, update_self, update_idem]
  refine ⟨h.commit live rfl ?_ (fun free => absurd rfl free) (fun j _ _ p => by rw [block])
    fun invalid => Bool.noConfusion invalid, live⟩
  exact owns.bare (.inr zero) (.inl rfl)

theorem iput_spec (live : 0 < (fs.itable e).ref) : Ends Spared (iput fs e) (Consistent g) := by
  have free : Ends Spared (if (fs.itable e).ref = 1 ∧ (fs.itable e).valid ∧
    (fs.itable e).ip.nlink = 0
      then iputFree fs e else .ok fs) fun fs' => Consistent g fs' ∧ 0 < (fs'.itable e).ref := by
    split
    · rename_i last
      exact iputFree_spec h live last.2.1
    · exact .ok ⟨h, live⟩
  refine free.bind fun fs' ⟨h', live'⟩ => .ok ?_
  exact h'.entry (fun _ => h'.synced e live') fun _ => h'.fresh live' rfl

/-- A call keeps the account, and does not free a block that is free. -/
theorem call_spec {c : Call n} (ok : Held fs c) : Ends Spared (call g fs c) (Consistent g) := by
  cases c with
  | iget inum => exact (iget_spec h inum).bind fun ⟨_, _⟩ h' => .ok h'
  | idup e => exact .ok (h.entry (fun _ => h.synced e ok) fun _ => h.fresh ok rfl)
  | ialloc type => exact (ialloc_spec h type).bind fun ⟨_, _⟩ h' => .ok h'
  | iput e => exact iput_spec h ok
  | use e u => exact (ilock_spec h).bind fun fs' ⟨h', live, valid⟩ => locked_spec h' live valid u

omit h

/-! ## Runs -/

/-- Calls that complete, by any processes that have the references they use. -/
def FsStep (g : Super) : Fs n → Call n → Fs n → Prop :=
  When (ByStep fun fs c => (call g fs c).toOption) Held

/-- What the free map and the inodes on the disk say of each other. -/
structure Accounted (g : Super) (fs : Fs n) : Prop where
  once : ∀ i j p q, (fs.dinode i).type ≠ 0 → (fs.dinode j).type ≠ 0 →
    addrAt fs.disk.block (fs.dinode i) p ≠ 0 →
    addrAt fs.disk.block (fs.dinode i) p = addrAt fs.disk.block (fs.dinode j) q → i = j ∧ p = q
  marked : ∀ b ∈ g.data, fs.disk.bit b = true ↔
    ∃ i p, (fs.dinode i).type ≠ 0 ∧ addrAt fs.disk.block (fs.dinode i) p = b
  mapped : ∀ i, (fs.dinode i).type ≠ 0 →
    ∀ bn, bn < ((fs.dinode i).size.toNat + bsize - 1) / bsize →
      blockAt fs.disk.block (fs.dinode i) bn ≠ 0

/-- An image to start from: nothing is in memory yet, the blocks before the data
blocks are marked, and inodes have only data blocks. -/
structure Image (g : Super) (fs : Fs n) : Prop extends Accounted g fs where
  system : ∀ b, b < g.first → fs.disk.bit b = true
  inside : ∀ i p, (fs.dinode i).type ≠ 0 → addrAt fs.disk.block (fs.dinode i) p ≠ 0 →
    addrAt fs.disk.block (fs.dinode i) p ∈ g.data
  unused : ∀ e, (fs.itable e).ref = 0

theorem lt_ceil {m size} : m < (size + bsize - 1) / bsize ↔ m * bsize < size := by
  simp only [bsize]
  omega

theorem Image.consistent (h : Image g fs) : Consistent g fs where
  owns := by
    refine ⟨⟨fun ⟨i, p⟩ ⟨j, q⟩ b hi hj => ?_, fun ⟨i, p⟩ b hi => ?_, fun b hb => ?_⟩, h.system⟩
    · obtain ⟨live, at_p, ne⟩ := held_eq_some.1 hi
      obtain ⟨live', at_q, -⟩ := held_eq_some.1 hj
      obtain ⟨rfl, rfl⟩ := h.once i j p q live live' (at_p ▸ ne) (at_p.trans at_q.symm)
      rfl
    · obtain ⟨live, at_p, ne⟩ := held_eq_some.1 hi
      exact at_p ▸ h.inside i p live (at_p ▸ ne)
    · rw [h.marked b hb]
      constructor
      · intro ⟨i, p, live, at_p⟩
        exact ⟨(i, p), held_eq_some.2 ⟨live, at_p, ne_zero_of_data hb⟩⟩
      · intro ⟨⟨i, p⟩, hi⟩
        obtain ⟨live, at_p, -⟩ := held_eq_some.1 hi
        exact ⟨i, p, live, at_p⟩
  mapped i live bn lt := h.mapped i live bn (lt_ceil.2 lt)
  synced e live := absurd (h.unused e) (Nat.pos_iff_ne_zero.1 live)
  single e _ live := absurd (h.unused e) (Nat.pos_iff_ne_zero.1 live)

theorem Consistent.accounted (h : Consistent g fs) : Accounted g fs where
  once i j p q live live' ne same := by
    have eq := h.owns.only live live' same rfl (same ▸ ne)
    exact ⟨congrArg Prod.fst eq, congrArg Prod.snd eq⟩
  marked b hb := by
    rw [h.owns.exact.counted b hb]
    constructor
    · intro ⟨⟨i, p⟩, hi⟩
      obtain ⟨live, at_p, -⟩ := held_eq_some.1 hi
      exact ⟨i, p, live, at_p⟩
    · intro ⟨i, p, live, at_p⟩
      exact ⟨(i, p), held_eq_some.2 ⟨live, at_p, ne_zero_of_data hb⟩⟩
  mapped i live bn lt := h.mapped i live bn (lt_ceil.1 lt)

theorem step_consistent {c} (h : Consistent g fs) (st : FsStep g fs c fs') : Consistent g fs' := by
  obtain ⟨st, ok⟩ := st
  unfold ByStep at st
  dsimp only at st
  cases done : call g fs c with
  | ok fs1 =>
    rw [done] at st
    obtain rfl : fs1 = fs' := Option.some.inj st
    exact (call_spec h ok).of_ok done
  | error _ =>
    rw [done] at st
    cases st

/-- The account is exact after every run, and the next call does not panic with
`freeing free block`. -/
theorem blocks_accounted {fs0 : Fs n} {t : List (Call n)} (image : Image g fs0)
    (h : Run (FsStep g) fs0 t fs) :
    Accounted g fs ∧ ∀ c, Held fs c → call g fs c ≠ .error .freeingFree := by
  have cons := h.keeps image.consistent fun _ _ _ => step_consistent
  refine ⟨cons.accounted, fun c ok panic => ?_⟩
  have ends := call_spec cons ok
  rw [panic] at ends
  exact ends rfl

/-- Ten blocks, the first three of them before the data. -/
def sampleSuper : Super := { size := 10, first := 3, boot := by decide }

/-- An empty file system with three inodes. -/
def sampleImage : Fs 3 where
  disk := { bit := fun b => decide (b < 3), block := fun _ _ => 0 }
  dinode _ := .zero
  itable _ := { ref := 0, inum := 0, valid := false, ip := .zero }

theorem sampleImage_image : Image sampleSuper sampleImage where
  once _ _ _ _ live := absurd rfl live
  marked b hb := by
    constructor
    · intro used
      exact absurd (UInt32.lt_of_lt_of_le (of_decide_eq_true used) hb.1) (UInt32.lt_irrefl b)
    · intro ⟨_, _, live, _⟩
      exact absurd rfl live
  mapped _ live := absurd rfl live
  system b hb := decide_eq_true hb
  inside _ _ live := absurd rfl live
  unused _ := rfl

/-- A write of 2000 bytes to a new file ends with its source after the first
block, when the second one has been allocated. -/
theorem blocks_accounted_write : ∃ t fs, Run (FsStep sampleSuper) sampleImage t fs ∧
    (fs.dinode 1).type = 2 ∧ (fs.dinode 1).size = 1024 ∧ fs.disk.bit 4 = true ∧
    Accounted sampleSuper fs ∧ call sampleSuper fs (.iput 0) ≠ .error .freeingFree := by
  obtain ⟨fs, run, type, size, bit, live⟩ := foldlM_reaches_when
    (fun fs c => (call sampleSuper fs c).toOption) sampleImage Held
    [.ialloc 2, .use 0 (.writei ⟨fun _ => 7, fun tot => 1024 - tot, true⟩ 0 2000)]
    (P := fun fs => (fs.dinode 1).type = 2 ∧ (fs.dinode 1).size = 1024 ∧ fs.disk.bit 4 = true ∧
      0 < (fs.itable 0).ref) (by decide +kernel)
  obtain ⟨accounted, safe⟩ := blocks_accounted sampleImage_image run
  exact ⟨_, fs, run, type, size, bit, accounted, safe (.iput 0) live⟩

end OsProject.Xv6.BlockOwnership
