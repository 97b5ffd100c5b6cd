import OsProject.Xv6.BlockOwnership
import Mathlib.Data.List.GetD
import Mathlib.Data.Finset.Card

/-! # The bytes of inodes

A file is a list of bytes, laid out in the blocks that its inode maps. `readi`
returns a part of the list. `bmap` yields the block of a number and leaves the
bytes of every file where they are, and what is then stored in the block
changes that part of the one file only. -/
namespace OsProject.Xv6.Contents
open Lib.Outcome Lib.Words Inode BlockOwnership List
open Function (update update_of_ne update_self)

variable {g : Super} {d d' : Disk} {ip ip' : Dinode} {blk blk' : UInt32 → Block}
    {l : List UInt8} {bn : Nat}

theorem mod_bsize (k : Nat) : k % bsize < 4 * nindirect := Nat.mod_lt _ (by decide)

/-- Byte `k` of the file. -/
def byteAt (blk : UInt32 → Block) (ip : Dinode) (k : Nat) : UInt8 :=
  blk (blockAt blk ip (k / bsize)) ⟨k % bsize, mod_bsize k⟩

/-- The blocks of the inode hold the bytes `l`. -/
structure Holds (blk : UInt32 → Block) (ip : Dinode) (l : List UInt8) : Prop where
  upto : Upto blk ip l.length
  bytes : ∀ k, k < l.length → byteAt blk ip k = l.getD k 0

/-! ## Reading -/

/-- What `readi` returns: the bytes from `off` on, but none if `off + n` wraps. -/
def part (l : List UInt8) (off n : UInt32) : List UInt8 :=
  if off.toNat + n.toNat < 2 ^ 32 then (l.drop off.toNat).take n.toNat else []

/-- A part of a block is a part of the file. -/
theorem Holds.part (h : Holds blk ip l) {off m} (inside : off + m ≤ l.length)
    (one : m ≤ bsize - off % bsize) :
    ((List.ofFn (blk (blockAt blk ip (off / bsize)))).drop (off % bsize)).take m =
    (l.drop off).take m := by
  refine ext_getElem ?_ fun k hk hk' => ?_
  · have : (4 * nindirect) = bsize := rfl
    simp only [length_take, length_drop, length_ofFn, this]
    omega
  · simp only [length_take, length_drop] at hk'
    have same : (off + k) / bsize = off / bsize := by
      simp only [bsize] at *
      omega
    have pos : (off + k) % bsize = off % bsize + k := by
      simp only [bsize] at *
      omega
    have byte := h.bytes (off + k) (by omega)
    rw [getElem_take, getElem_drop, List.getElem_ofFn, getElem_take, getElem_drop]
    rw [getD_eq_getElem _ _ (by omega)] at byte
    rw [← byte, byteAt]
    simp only [same, pos]

/-- Copying a list in pieces of at most a block. `Done tot l` is what a copy of `l` to behind `tot`
bytes makes of the destination when `k` of its bytes were copied. -/
structure Copying {σ : Type} (copy : Nat → List UInt8 → σ → σ × Bool)
    (Done : Nat → List UInt8 → σ → σ → Nat → Prop) : Prop where
  nil : ∀ tot out, Done tot [] out out 0
  stop : ∀ {tot l out out'} (rest : List UInt8), l.length ≤ bsize → copy tot l out = (out', false) →
    ∃ k < l.length, Done tot (l ++ rest) out out' k
  more : ∀ {tot l rest out out' out'' k}, copy tot l out = (out', true) →
    Done (tot + l.length) rest out' out'' k → Done tot (l ++ rest) out out'' (l.length + k)

section reading
variable {σ : Type} {copy : Nat → List UInt8 → σ → σ × Bool}
    {Done : Nat → List UInt8 → σ → σ → Nat → Prop}
  (copies : Copying copy Done)
include copies

/-- The loop of `readi` copies a file whose blocks are there, as far as the destination takes it. -/
theorem readLoop_done (h : Holds d.block ip l) (n fuel : Nat) :
    ∀ (tot off : Nat) (out : σ), tot ≤ n → n - tot ≤ fuel → off + (n - tot) ≤ l.length →
    ∃ k out', Done tot ((l.drop off).take (n - tot)) out out' k ∧
      readLoop g copy n fuel tot off d ip out =
        .ok (if k = n - tot then some n else none, out', d, ip) := by
  have last : ∀ {off : Nat} {out : σ}, ∃ k out', Done n ((l.drop off).take (n - n)) out out' k ∧
      (.ok (some n, out, d, ip) : Except Panic _) =
      .ok (if k = n - n then some n else none, out', d, ip) := by
    intro off out
    rw [Nat.sub_self, take_zero]
    exact ⟨0, out, copies.nil n out, rfl⟩
  induction fuel with
  | zero =>
    intro tot off out le short _
    obtain rfl : tot = n := by omega
    exact last
  | succ fuel ih =>
    intro tot off out le short inside
    rw [readLoop]
    split
    · obtain rfl : tot = n := by omega
      exact last
    rename_i more
    have here : blockAt d.block ip (off / bsize) ≠ 0 := by
      refine h.upto _ ?_
      have := Nat.div_mul_le_self off bsize
      omega
    rw [bmap_mapped here]
    simp only [bind, Except.bind, pure, Except.pure]
    rw [if_neg here]
    have within : chunk n tot off ≤ bsize - off % bsize := chunk_le
    have part : chunk n tot off ≤ n - tot := min_le_left ..
    have some_bytes := chunk_pos (not_le.1 more) off
    rw [h.part (by omega) within]
    generalize chunk n tot off = c at *
    have split : (l.drop off).take (n - tot) =
        (l.drop off).take c ++ (l.drop (off + c)).take (n - (tot + c)) := by
      rw [show n - tot = c + (n - (tot + c)) by omega, take_add, drop_drop]
    have length : ((l.drop off).take c).length = c := by
      rw [length_take, length_drop]
      omega
    rw [split]
    split
    · rename_i stopped
      obtain ⟨k, lt, done⟩ := copies.stop _ (by omega) stopped
      refine ⟨k, _, done, ?_⟩
      rw [if_neg (by omega)]
    · rename_i copied
      obtain ⟨k, out', rest, eq⟩ := ih (tot + c) (off + c) _ (by omega) (by omega) (by omega)
      have done := copies.more copied (by rw [length]; exact rest)
      rw [length] at done
      refine ⟨c + k, out', done, eq.trans ?_⟩
      congr 2
      exact if_congr (by omega) rfl rfl

/-- `readi` reads as many bytes as there are, unless `off + n` wraps. -/
theorem readTo_done (h : Holds d.block ip l) (size : l.length = ip.size.toNat)
    (off n : UInt32) (out : σ) : ∃ k out', Done 0 (part l off n) out out' k ∧
      readTo g d ip copy off n out =
        .ok (if k = (part l off n).length then some k else none, out', d, ip) := by
  unfold part
  split
  swap
  · have below : off + n < off := by
      rw [UInt32.lt_iff_toNat_lt, UInt32.toNat_add]
      have := n.toNat_lt
      omega
    exact ⟨0, out, copies.nil 0 out, if_pos (.inr below)⟩
  rename_i nowrap
  have sum : (off + n).toNat = off.toNat + n.toNat := Nat.mod_eq_of_lt nowrap
  unfold readTo
  split
  · rename_i outside
    have behind : l.length ≤ off.toNat := by
      rcases outside with outside | wrap
      · exact size ▸ le_of_lt outside
      · have : off.toNat + n.toNat < off.toNat := sum ▸ wrap
        omega
    rw [drop_eq_nil_of_le behind, take_nil]
    exact ⟨0, out, copies.nil 0 out, rfl⟩
  rename_i inside
  rw [not_or, UInt32.not_lt] at inside
  have le : off.toNat ≤ l.length := size ▸ inside.1
  have count : (if ip.size < off + n then ip.size - off else n).toNat =
      min n.toNat (l.length - off.toNat) := by
    split
    · rename_i more
      rw [UInt32.lt_iff_toNat_lt, sum, ← size] at more
      rw [UInt32.toNat_sub_of_le _ _ inside.1, ← size]
      omega
    · rename_i fits
      rw [UInt32.lt_iff_toNat_lt, sum, ← size] at fits
      omega
  dsimp only
  rw [count]
  obtain ⟨k, out', done, eq⟩ := readLoop_done copies h (min n.toNat (l.length - off.toNat))
    (min n.toNat (l.length - off.toNat)) 0 off.toNat out (Nat.zero_le _) (Nat.le_refl _) (by omega)
  rw [Nat.sub_zero, ← length_drop, ← take_eq_take_min] at done
  refine ⟨k, out', done, ?_⟩
  rw [eq, length_take, length_drop, Nat.sub_zero]
  congr 2
  split
  · rename_i all
    rw [all]
  · rfl

end reading

/-- A destination that takes every block. -/
theorem collect_copying {got} (enough : ∀ tot, bsize ≤ got tot) :
    Copying (collect got) fun _ l out out' k => out' = out ++ l ∧ k = l.length where
  nil _ out := ⟨(append_nil out).symm, rfl⟩
  stop _ le stopped := by
    obtain ⟨-, short⟩ := Prod.mk.inj stopped
    exact absurd (le_trans le (enough _)) (of_decide_eq_false short)
  more copied := by
    obtain ⟨rfl, all⟩ := Prod.mk.inj copied
    rintro ⟨rfl, rfl⟩
    rw [take_of_length_le (of_decide_eq_true all), append_assoc]
    exact ⟨rfl, length_append.symm⟩

/-! ## Free blocks -/

variable {ι : Type*} {ino : ι → Dinode} {i j : ι} {a b : UInt32}

/-- A block is taken from the free ones. -/
def taken (d : Disk) (b : UInt32) : Disk where
  bit := update d.bit b true
  block := update d.block b fun _ => 0

/-- How many blocks `balloc` can still find. -/
def freeBlocks (g : Super) (d : Disk) : Nat :=
  ((Finset.range g.size.toNat).filter fun b => d.bit (UInt32.ofNat b) = false).card

theorem ofNat_toNat_data (h : a ∈ g.data) : a.toNat ∈ Finset.range g.size.toNat :=
  Finset.mem_range.2 (UInt32.lt_iff_toNat_lt.1 h.2)

/-- A block that is taken is one less. -/
theorem freeBlocks_taken (h : a ∈ g.data) (free : d.bit a = false) :
    freeBlocks g (taken d a) + 1 = freeBlocks g d := by
  have mem : a.toNat ∈ (Finset.range g.size.toNat).filter fun b =>
      d.bit (UInt32.ofNat b) = false := by
    refine Finset.mem_filter.2 ⟨ofNat_toNat_data h, ?_⟩
    rw [UInt32.ofNat_toNat]
    exact free
  have same : (Finset.range g.size.toNat).filter
      (fun b => update d.bit a true (UInt32.ofNat b) = false) =
      ((Finset.range g.size.toNat).filter fun b => d.bit (UInt32.ofNat b) = false).erase
      a.toNat := by
    ext b
    simp only [Finset.mem_filter, Finset.mem_erase, Finset.mem_range]
    by_cases eq : UInt32.ofNat b = a
    · rw [eq, update_self]
      refine ⟨fun both => (by cases both.2), fun both => ?_⟩
      have small : b < 2 ^ 32 := lt_trans both.2.1 g.size.toNat_lt
      refine absurd ?_ both.1
      rw [← eq, UInt32.toNat_ofNat_of_lt' small]
    · rw [update_of_ne eq]
      refine ⟨fun both => ⟨fun same => eq ?_, both⟩, fun both => both.2⟩
      rw [same, UInt32.ofNat_toNat]
  rw [freeBlocks, taken, same, Finset.card_erase_of_mem mem]
  exact Nat.succ_pred_eq_of_pos (Finset.card_pos.2 ⟨_, mem⟩)

variable (system : ∀ b, b < g.first → d.bit b = true)
include system

/-- `balloc` finds a block if there is one. -/
theorem balloc_counts :
    (freeBlocks g d = 0 ∧ balloc g d = (0, d)) ∨
    ∃ b, b ∈ g.data ∧ d.bit b = false ∧ balloc g d = (b, taken d b) := by
  rcases balloc_spec system with none | ⟨b, hb, free, some⟩
  · refine .inl ⟨?_, none⟩
    unfold balloc at none
    split at none
    · rename_i b found
      -- block 0 is never free
      have zero : UInt32.ofNat b = 0 := (Prod.mk.inj none).1
      have free : d.bit (UInt32.ofNat b) = false := by simpa using find?_some found
      rw [zero, system 0 g.boot] at free
      cases free
    · rename_i all
      refine Finset.card_eq_zero.2 (Finset.filter_eq_empty_iff.2 fun b mem free => ?_)
      have used := find?_eq_none.1 all b (mem_range.2 (Finset.mem_range.1 mem))
      rw [free] at used
      exact used rfl
  · exact .inr ⟨b, hb, free, some⟩

/-! ## Mapping a block -/

theorem bmapAddr_cases (ip : Dinode) (k : Fin (ndirect + 1)) :
    (ip.addrs k ≠ 0 ∧ bmapAddr g d ip k = (ip.addrs k, d, ip)) ∨
    (ip.addrs k = 0 ∧ freeBlocks g d = 0 ∧ bmapAddr g d ip k = (0, d, ip)) ∨
    ∃ b, b ∈ g.data ∧ d.bit b = false ∧ ip.addrs k = 0 ∧
      bmapAddr g d ip k = (b, taken d b, ip.setAddr k b) := by
  unfold bmapAddr
  split
  · rename_i empty
    rcases balloc_counts system with ⟨zero, none⟩ | ⟨b, hb, free, some⟩
    · simp only [none, if_true]
      exact .inr (.inl ⟨empty, zero, trivial⟩)
    · simp only [some, if_neg (ne_zero_of_data hb)]
      exact .inr (.inr ⟨b, hb, free, empty, rfl⟩)
  · rename_i ne
    exact .inl ⟨ne, rfl⟩

theorem bmapEntry_cases (a : UInt32) (e : Fin nindirect) :
    (word (d.block a) e ≠ 0 ∧ bmapEntry g d a e = (word (d.block a) e, d)) ∨
    (word (d.block a) e = 0 ∧ freeBlocks g d = 0 ∧ bmapEntry g d a e = (0, d)) ∨
    ∃ b, b ∈ g.data ∧ d.bit b = false ∧ word (d.block a) e = 0 ∧ bmapEntry g d a e =
      (b, { taken d b with
        block := update (taken d b).block a (setWord ((taken d b).block a) e b) }) := by
  unfold bmapEntry
  split
  · rename_i empty
    rcases balloc_counts system with ⟨zero, none⟩ | ⟨b, hb, free, some⟩
    · simp only [none, if_true]
      exact .inr (.inl ⟨empty, zero, trivial⟩)
    · simp only [some, if_neg (ne_zero_of_data hb)]
      exact .inr (.inr ⟨b, hb, free, empty, rfl⟩)
  · rename_i ne
    exact .inl ⟨ne, rfl⟩

omit system

/-- What `bmap` changes when it yields block `a` for number `bn`. -/
structure Maps (d : Disk) (ip : Dinode) (bn : Nat) (a : UInt32) (d' : Disk) (ip' : Dinode) :
    Prop where
  /-- Blocks in use stay as they are, but for the indirect block. -/
  kept : ∀ c, d.bit c = true → c ≠ ip'.ind → d'.block c = d.block c
  new : blockAt d.block ip bn = 0 → d'.block a = fun _ => 0
  only : ∀ bn', blockAt d'.block ip' bn' ≠ 0 → bn' = bn ∨ blockAt d.block ip bn' ≠ 0

theorem Maps.refl (mapped : blockAt d.block ip bn ≠ 0) : Maps d ip bn a d ip where
  kept _ _ _ := rfl
  new zero := absurd zero mapped
  only _ := .inr

theorem blockAt_direct (k : Fin ndirect) : blockAt blk ip k.val = ip.addrs k.castSucc :=
  dif_pos k.isLt

theorem blockAt_big (big : ndirect ≤ bn) :
    blockAt blk ip bn = if h :
    bn - ndirect < nindirect then addrAt blk ip (.entry ⟨bn - ndirect, h⟩) else 0 :=
  dif_neg (not_lt.2 big)

theorem taken_kept {c} (free : d.bit b = false) (used : d.bit c = true) :
    (taken d b).block c = d.block c ∧ (taken d b).bit c = true := by
  have ne : c ≠ b := by
    rintro rfl
    rw [used] at free
    cases free
  exact ⟨update_of_ne ne .., (update_of_ne ne ..).trans used⟩

/-- A block for another number of the table leaves the numbers alone. -/
theorem blockAt_setAddr {bn bn'} (small : bn < ndirect) (ne : bn' ≠ bn)
    (same : ip.ind ≠ 0 → blk' ip.ind = blk ip.ind) :
    blockAt blk' (ip.setAddr ⟨bn, Nat.lt_succ_of_lt small⟩ b) bn' = blockAt blk ip bn' := by
  have other : (⟨bn, Nat.lt_succ_of_lt small⟩ : Fin (ndirect + 1)) ≠ Fin.last ndirect :=
    fun eq => absurd (congrArg Fin.val eq) (ne_of_lt small)
  rcases lt_or_ge bn' ndirect with small' | big'
  · rw [blockAt_direct ⟨bn', small'⟩, blockAt_direct ⟨bn', small'⟩]
    exact setAddr_ne fun eq => ne (congrArg Fin.val eq)
  · have place : ∀ q, q ≠ placeOf (⟨bn, Nat.lt_succ_of_lt small⟩ : Fin (ndirect + 1)) →
        addrAt blk' (ip.setAddr ⟨bn, Nat.lt_succ_of_lt small⟩ b) q = addrAt blk ip q :=
      fun q => addrAt_setAddr same fun last => absurd last other
    rw [blockAt_big big', blockAt_big big']
    split
    · refine place _ ?_
      rw [placeOf, dif_pos small]
      exact Place.noConfusion
    · rfl

/-- The indirect block, allocated if there is none. -/
theorem bmapAddr_ind (h : Owns g d ino) (live : (ino i).type ≠ 0)
    (ne : (bmapAddr g d (ino i) (Fin.last ndirect)).1 ≠ 0) :
    let r := bmapAddr g d (ino i) (Fin.last ndirect)
    r.2.2.ind = r.1 ∧ r.2.1.bit r.1 = true ∧ (∀ b, b < g.first → r.2.1.bit b = true) ∧
      (∀ c, d.bit c = true → r.2.1.block c = d.block c ∧ r.2.1.bit c = true) ∧
      ∀ bn, blockAt r.2.1.block r.2.2 bn = blockAt d.block (ino i) bn := by
  rcases bmapAddr_cases h.system (ino i) (Fin.last ndirect) with
    ⟨some, eq⟩ | ⟨-, -, eq⟩ | ⟨b, hb, free, none, eq⟩
  · rw [eq]
    refine ⟨rfl, ?_, h.system, fun c used => ⟨rfl, used⟩, fun _ => rfl⟩
    exact h.bit (p := .indirect) live some
  · rw [eq] at ne
    exact absurd rfl ne
  · rw [eq]
    have hb0 := ne_zero_of_data hb
    have ind : ((ino i).setAddr (Fin.last ndirect) b).ind = b := setAddr_self
    refine ⟨ind, update_self .., fun c low => (taken_kept free (h.system c low)).2,
      fun c used => taken_kept free used, fun bn => ?_⟩
    rcases lt_or_ge bn ndirect with small | big
    · rw [blockAt_direct ⟨bn, small⟩, blockAt_direct ⟨bn, small⟩]
      exact setAddr_ne fun eq => absurd (congrArg Fin.val eq) (ne_of_lt small)
    · rw [blockAt_big big, blockAt_big big]
      split
      · -- the new indirect block is all zeros, and without one there were no entries
        have none : (ino i).ind = 0 := none
        simp only [addrAt, ind, if_neg hb0, none, if_true, taken, update_self]
        exact word_zero _
      · rfl

theorem bmap_maps {bn} (h : Owns g d ino) (live : (ino i).type ≠ 0)
    (done : bmap g d (ino i) bn = .ok (a, d', ip')) (ne : a ≠ 0) : Maps d (ino i) bn a d' ip' := by
  unfold bmap at done
  split at done
  · rename_i small
    rcases bmapAddr_cases h.system (ino i) ⟨bn, Nat.lt_succ_of_lt small⟩ with
      ⟨some, eq⟩ | ⟨-, -, eq⟩ | ⟨b, hb, free, none, eq⟩
    · rw [eq] at done
      cases done
      exact .refl (by rw [blockAt_direct ⟨bn, small⟩]; exact some)
    · rw [eq] at done
      cases done
      exact absurd rfl ne
    · rw [eq] at done
      cases done
      have apart : (ino i).ind ≠ 0 → (taken d a).block (ino i).ind = d.block (ino i).ind :=
        fun some => (taken_kept free (h.bit (p := .indirect) live some)).1
      refine ⟨fun c used _ => (taken_kept free used).1, fun _ => update_self ..,
        fun bn' mapped => ?_⟩
      by_cases eq : bn' = bn
      · exact .inl eq
      · rw [blockAt_setAddr small eq apart] at mapped
        exact .inr mapped
  · rename_i big
    split at done
    · rename_i within
      have facts := bmapAddr_ind h live
      generalize bmapAddr g d (ino i) (Fin.last ndirect) = r at done facts
      obtain ⟨c, d1, ip1⟩ := r
      dsimp only at done facts
      split at done
      · rename_i zero
        cases done
        exact absurd zero ne
      rename_i some
      obtain ⟨ind, bit, system, kept, blocks⟩ := facts some
      subst ind
      have entry : ∀ (blk : UInt32 → Block) (e : Fin nindirect), addrAt blk ip1 (.entry e) =
        word (blk ip1.ind) e :=
        fun blk e => if_neg some
      have mapped : blockAt d.block (ino i) bn =
          word (d1.block ip1.ind) ⟨bn - ndirect, within⟩ := by
        rw [← blocks, blockAt_big (not_lt.1 big), dif_pos within, entry]
      rcases bmapEntry_cases system ip1.ind ⟨bn - ndirect, within⟩ with
        ⟨word_ne, eq⟩ | ⟨-, -, eq⟩ | ⟨b, hb, free, empty, eq⟩
      · rw [eq] at done
        cases Except.ok.inj done
        exact ⟨fun c used _ => (kept c used).1, fun zero => absurd (mapped.symm.trans zero) word_ne,
          fun bn' at' => .inr (by rw [← blocks]; exact at')⟩
      · rw [eq] at done
        cases Except.ok.inj done
        exact absurd rfl ne
      · rw [eq] at done
        obtain ⟨rfl, rest⟩ := Prod.mk.inj (Except.ok.inj done)
        obtain ⟨rfl, rfl⟩ := Prod.mk.inj rest
        have apart : b ≠ ip1.ind := by
          rintro rfl
          rw [bit] at free
          cases free
        refine ⟨fun c used other => ?_, fun _ => ?_, fun bn' at' => ?_⟩
        · obtain ⟨same, used1⟩ := kept c used
          show update _ ip1.ind _ c = _
          rw [update_of_ne other, (taken_kept free used1).1, same]
        · show update _ ip1.ind _ b = _
          rw [update_of_ne apart]
          exact update_self ..
        · by_cases same : bn' = bn
          · exact .inl same
          · refine .inr ?_
            rw [← blocks]
            rcases lt_or_ge bn' ndirect with small' | big'
            · rw [blockAt_direct ⟨bn', small'⟩] at at' ⊢
              exact at'
            · rw [blockAt_big big'] at at' ⊢
              split at at'
              · rename_i within'
                have other : (⟨bn' - ndirect, within'⟩ : Fin nindirect) ≠
                    ⟨bn - ndirect, within⟩ := by
                  intro eq
                  have := congrArg Fin.val eq
                  dsimp only at this
                  omega
                rw [entry] at at'
                dsimp only at at'
                rw [update_self, word_setWord_ne _ _ other, (taken_kept free bit).1] at at'
                rw [dif_pos within', entry]
                exact at'
              · exact absurd rfl at'
    · cases done

/-! ## Where the blocks are -/

/-- The number of the block at a place. -/
def numberOf : Place → Nat
  | .direct k => k.val
  | .indirect => 0
  | .entry e => ndirect + e.val

theorem blockAt_number (ne : blockAt blk ip bn ≠ 0) :
    ∃ p, p ≠ .indirect ∧ numberOf p = bn ∧ ∀ blk ip, blockAt blk ip bn = addrAt blk ip p := by
  rcases lt_or_ge bn ndirect with small | big
  · exact ⟨.direct ⟨bn, small⟩, Place.noConfusion, rfl, fun _ _ => dif_pos small⟩
  · by_cases within : bn - ndirect < nindirect
    · refine ⟨.entry ⟨bn - ndirect, within⟩, Place.noConfusion, Nat.add_sub_cancel' big,
        fun blk ip => ?_⟩
      rw [blockAt_big big, dif_pos within]
    · rw [blockAt_big big, dif_neg within] at ne
      exact absurd rfl ne

/-- A block of a file is in one place of one file. -/
theorem blockAt_only {bn'} (h : Owns g d ino) (live : (ino i).type ≠ 0) (live' : (ino j).type ≠ 0)
    (here : blockAt d.block (ino i) bn = a) (there : blockAt d.block (ino j) bn' = a) (ne : a ≠ 0) :
    i = j ∧ bn = bn' := by
  obtain ⟨p, -, number, at_p⟩ := blockAt_number (here ▸ ne)
  obtain ⟨q, -, number', at_q⟩ := blockAt_number (there ▸ ne)
  have same := h.only live live' (at_p _ _ ▸ here) (at_q _ _ ▸ there) ne
  cases same
  exact ⟨rfl, number.symm.trans number'⟩

/-- The block of a file is nobody's indirect block. -/
theorem blockAt_ne_ind (h : Owns g d ino) (live : (ino i).type ≠ 0) (live' : (ino j).type ≠ 0)
    (here : blockAt d.block (ino i) bn = a) (ne : a ≠ 0) : (ino j).ind ≠ a := by
  intro ind
  obtain ⟨p, plain, -, at_p⟩ := blockAt_number (here ▸ ne)
  have same := h.only live live' (q := .indirect) (at_p _ _ ▸ here) ind ne
  exact plain (Prod.mk.inj same).2

theorem blockAt_used (h : Owns g d ino) (live : (ino i).type ≠ 0)
    (ne : blockAt d.block (ino i) bn ≠ 0) : d.bit (blockAt d.block (ino i) bn) = true := by
  obtain ⟨p, -, -, at_p⟩ := blockAt_number ne
  rw [at_p] at ne ⊢
  exact h.bit live ne

/-- The indirect block decides which blocks a file has. -/
theorem blockAt_block (same : ip.ind ≠ 0 → blk' ip.ind = blk ip.ind) :
    blockAt blk' ip bn = blockAt blk ip bn := by
  rcases blockAt_place bn with ⟨p, -, at_p⟩ | none
  · rw [at_p, at_p, addrAt_block same]
  · rw [none, none]

section round
variable [DecidableEq ι] {p : List UInt8} {d1 : Disk} {ip1 : Dinode}

/-- Block number `bn` of the file has been mapped. -/
structure Mapped (g : Super) (d : Disk) (ino : ι → Dinode) (i : ι) (bn : Nat)
    (a : UInt32) (d1 : Disk) (ip1 : Dinode) : Prop where
  live : (ino i).type ≠ 0
  owns : Owns g d ino
  grows : Grows g ino i d d1 ip1
  maps : Maps d (ino i) bn a d1 ip1
  here : blockAt d1.block ip1 bn = a
  ne : a ≠ 0

theorem mapped_of_bmap (h : Owns g d ino) (live : (ino i).type ≠ 0)
    (done : bmap g d (ino i) bn = .ok (a, d1, ip1)) (ne : a ≠ 0) :
    Mapped g d ino i bn a d1 ip1 := by
  obtain ⟨grows, here⟩ := (bmap_spec h live _).of_ok done
  exact ⟨live, h, grows, bmap_maps h live done ne, here ne, ne⟩

namespace Mapped

variable (h : Mapped g d ino i bn a d1 ip1)
include h

theorem live1 : (update ino i ip1 i).type ≠ 0 := by
  rw [update_self, h.grows.type]
  exact h.live

theorem ind_ne : ip1.ind ≠ a := by
  have here : blockAt d1.block (update ino i ip1 i) bn = a := by
    rw [update_self]
    exact h.here
  have := blockAt_ne_ind h.grows.owns h.live1 h.live1 here h.ne
  rw [update_self] at this
  exact this

/-- Other numbers of the file are as before. -/
theorem other {bn'} (ne : bn' ≠ bn) (mapped : blockAt d1.block ip1 bn' ≠ 0) :
    blockAt d1.block ip1 bn' = blockAt d.block (ino i) bn' ∧ blockAt d.block (ino i) bn' ≠ a ∧
      d1.block (blockAt d.block (ino i) bn') = d.block (blockAt d.block (ino i) bn') := by
  have before : blockAt d.block (ino i) bn' ≠ 0 := (h.maps.only bn' mapped).resolve_left ne
  have same := h.grows.blockAt bn' before
  have at1 : blockAt d1.block (update ino i ip1 i) bn' = blockAt d.block (ino i) bn' := by
    rw [update_self]
    exact same
  refine ⟨same, fun eq => ne ?_, ?_⟩
  · exact (blockAt_only h.grows.owns h.live1 h.live1 (at1.trans eq)
      (by rw [update_self]; exact h.here) h.ne).2
  · refine h.maps.kept _ (blockAt_used h.owns h.live before) (Ne.symm ?_)
    have := blockAt_ne_ind (j := i) h.grows.owns h.live1 h.live1 at1 before
    rw [update_self] at this
    exact this

/-- What the block holds before it is written. -/
theorem old {k} (at_k : k / bsize = bn) : d1.block a ⟨k % bsize, mod_bsize k⟩ =
      if blockAt d.block (ino i) bn = 0 then 0 else byteAt d.block (ino i) k := by
  split
  · rename_i none
    rw [h.maps.new none]
  · rename_i some
    have same := h.grows.blockAt _ some
    rw [h.here] at same
    have kept := h.maps.kept a (by rw [same]; exact blockAt_used h.owns h.live some) h.ind_ne.symm
    rw [kept, byteAt, at_k, ← same]

theorem blocks (v : Block) (bn' : Nat) :
    blockAt (update d1.block a v) ip1 bn' = blockAt d1.block ip1 bn' :=
  blockAt_block fun _ => update_of_ne h.ind_ne ..

/-- The bytes of the file, once the block is written. -/
theorem byteAt_update (v : Block) {k} (mapped : blockAt d1.block ip1 (k / bsize) ≠ 0) :
    byteAt (update d1.block a v) ip1 k =
      if k / bsize = bn then v ⟨k % bsize, mod_bsize k⟩ else byteAt d.block (ino i) k := by
  rw [byteAt, h.blocks]
  split
  · rename_i at_k
    rw [at_k, h.here, update_self]
  · rename_i at_k
    obtain ⟨same, ne_a, kept⟩ := h.other at_k mapped
    rw [same, update_of_ne ne_a, kept, byteAt]

/-- The blocks of the other files stay. -/
theorem others (v : Block) (hj : j ≠ i) (live : (ino j).type ≠ 0) :
    (∀ bn, blockAt (update d1.block a v) (ino j) bn = blockAt d.block (ino j) bn) ∧
    ∀ bn, blockAt d.block (ino j) bn ≠ 0 →
      update d1.block a v (blockAt d.block (ino j) bn) = d.block (blockAt d.block (ino j) bn) := by
  have node : update ino i ip1 j = ino j := update_of_ne hj ..
  have live' : (update ino i ip1 j).type ≠ 0 := by
    rw [node]
    exact live
  have same : ∀ bn, blockAt d1.block (ino j) bn = blockAt d.block (ino j) bn := by
    intro bn
    rcases blockAt_place bn with ⟨p, -, at_p⟩ | none
    · rw [at_p, at_p, h.grows.others j hj live]
    · rw [none, none]
  have ind : (ino j).ind ≠ a := by
    have here : blockAt d1.block (update ino i ip1 i) bn = a := by
      rw [update_self]
      exact h.here
    have := blockAt_ne_ind h.grows.owns h.live1 live' here h.ne
    rw [node] at this
    exact this
  refine ⟨fun bn => ?_, fun bn mapped => ?_⟩
  · rw [blockAt_block fun _ => update_of_ne ind .., same]
  · have at1 : blockAt d1.block (update ino i ip1 j) bn = blockAt d.block (ino j) bn := by
      rw [node, same]
    have ne_a : blockAt d.block (ino j) bn ≠ a := fun eq => hj
      (blockAt_only h.grows.owns live' h.live1 (at1.trans eq) (by rw [update_self]; exact h.here)
      h.ne).1
    have ne_ind := blockAt_ne_ind (j := i) h.grows.owns live' h.live1 at1 mapped
    rw [update_self] at ne_ind
    rw [update_of_ne ne_a]
    exact h.maps.kept _ (blockAt_used h.owns live mapped) ne_ind.symm

end Mapped

end round

end OsProject.Xv6.Contents
