import OsProject.Xv6.FileBytes

/-! # Writing a file in transactions

`filewrite` on an inode writes three blocks at a time, each time in a transaction
of its own, for which `begin_op` has reserved `MAXOPBLOCKS` blocks of the log.
The functions here say which blocks a write passes to `log_write`. -/
namespace OsProject.Xv6.FileWrite
open Lib.Outcome Lib.Words Inode BlockOwnership List
open Contents Writing FileBytes
open Function (update update_self update_eq_self)

def maxopblocks : Nat := 10
def bpb : UInt32 := 8192
def ipb : UInt32 := 16

/-- Where the superblock has the inodes and the free map. -/
structure Layout where
  inodestart : UInt32
  bmapstart : UInt32

/-- `BBLOCK(b, sb)`. -/
def Layout.bblock (m : Layout) (b : UInt32) : UInt32 := b / bpb + m.bmapstart

/-- `IBLOCK(i, sb)`. -/
def Layout.iblock (m : Layout) (inum : UInt32) : UInt32 := inum / ipb + m.inodestart

/-! ## What is logged -/

/-- `balloc`: the block of the free map, and in `bzero` the block itself. -/
def ballocLogs (m : Layout) (g : Super) (d : Disk) : List UInt32 :=
  match (List.range g.size.toNat).find? fun b => !d.bit (UInt32.ofNat b) with
  | some b => [m.bblock (UInt32.ofNat b), UInt32.ofNat b]
  | none => []

def bmapAddrLogs (m : Layout) (g : Super) (d : Disk) (ip : Dinode) (k : Fin (ndirect + 1)) :
    List UInt32 :=
  if ip.addrs k = 0 then ballocLogs m g d else []

/-- With the indirect block `addr`, if a block goes into it. -/
def bmapEntryLogs (m : Layout) (g : Super) (d : Disk) (addr : UInt32) (j : Fin nindirect) :
    List UInt32 :=
  if word (d.block addr) j = 0 then
    ballocLogs m g d ++ if (balloc g d).1 = 0 then [] else [addr]
  else []

def bmapLogs (m : Layout) (g : Super) (d : Disk) (ip : Dinode) (bn : Nat) : List UInt32 :=
  if h : bn < ndirect then bmapAddrLogs m g d ip ⟨bn, Nat.lt_succ_of_lt h⟩
  else if h : bn - ndirect < nindirect then
    let r := bmapAddr g d ip (Fin.last ndirect)
    bmapAddrLogs m g d ip (Fin.last ndirect) ++
      if r.1 = 0 then [] else bmapEntryLogs m g r.2.1 r.1 ⟨bn - ndirect, h⟩
  else []

/-- `writei`'s loop: a block of data is logged once its chunk is complete. -/
def writeLogs (m : Layout) (g : Super) (src : Source) (n : Nat) :
    Nat → Nat → Nat → Disk → Dinode → List UInt32
  | 0, _, _, _, _ => []
  | fuel + 1, tot, off, d, ip =>
    if n ≤ tot then []
    else bmapLogs m g d ip (off / bsize) ++
      match bmap g d ip (off / bsize) with
      | .error _ => []
      | .ok (addr, d, ip) =>
        if addr = 0 then []
        else
          let c := chunk n tot off
          if src.got tot < c then []
          else
            let new := copyInto (d.block addr) (off % bsize) src tot (min c (src.got tot))
            addr :: writeLogs m g src n fuel (tot + c) (off + c)
              { d with block := update d.block addr new } ip

/-- With the block of the inode, which `iupdate` logs. -/
def writeiLogs (m : Layout) (g : Super) (inum : UInt32) (d : Disk) (ip : Dinode) (src : Source)
    (off n : UInt32) : List UInt32 :=
  if ip.size < off ∨ off + n < off then []
  else if maxfile * bsize < (off + n).toNat then []
  else writeLogs m g src n.toNat n.toNat 0 off.toNat d ip ++ [m.iblock inum]

/-! ## filewrite -/

/-- How much `filewrite` writes at a time. -/
def maxChunk : Nat := (maxopblocks - 1 - 1 - 2) / 2 * bsize

/-- The loop of `filewrite` on an inode, with `src i` the memory from `addr + i` on
and the blocks that each transaction has logged. -/
def filewriteLoop (m : Layout) (g : Super) (inum : UInt32) (src : Nat → Source) (n : Nat) :
    Nat → Nat → UInt32 → Disk → Dinode →
      Except Panic (Nat × UInt32 × Disk × Dinode × List (List UInt32))
  | 0, i, off, d, ip => .ok (i, off, d, ip, [])
  | fuel + 1, i, off, d, ip =>
    if n ≤ i then .ok (i, off, d, ip, [])
    else do
      let n1 := min (n - i) maxChunk
      let op := writeiLogs m g inum d ip (src i) off (UInt32.ofNat n1)
      let (r, d, ip) ← writei g d ip (src i) off (UInt32.ofNat n1)
      let off := off + UInt32.ofNat (r.getD 0)
      if r = some n1 then
        let (i, off, d, ip, ops) ← filewriteLoop m g inum src n fuel (i + n1) off d ip
        return (i, off, d, ip, op :: ops)
      else return (i, off, d, ip, [op])

/-- What `filewrite` on an inode does: its result, the file afterwards, and the
blocks logged by each of its transactions. -/
structure Written where
  ret : Int
  off : UInt32
  disk : Disk
  ip : Dinode
  ops : List (List UInt32)

def filewrite (m : Layout) (g : Super) (inum : UInt32) (src : Nat → Source) (n : Int)
    (off : UInt32) (d : Disk) (ip : Dinode) : Except Panic Written := do
  let (i, off, d, ip, ops) ← filewriteLoop m g inum src n.toNat n.toNat 0 off d ip
  return { ret := if (i : Int) = n then n else -1, off := off, disk := d, ip := ip, ops := ops }

/-! ## How much is logged -/

section logs
variable {ι : Type} {g : Super} {m : Layout} {d d' : Disk} {ino : ι → Dinode} {i : ι}
    {ip ip' : Dinode}
  {a x : UInt32} {bn : Nat}

theorem ballocLogs_eq (system : ∀ b, b < g.first → d.bit b = true) :
    ballocLogs m g d = if (balloc g d).1 = 0 then []
      else [m.bblock (balloc g d).1, (balloc g d).1] := by
  cases found : (List.range g.size.toNat).find? fun b => !d.bit (UInt32.ofNat b) with
  | some b =>
    have free : d.bit (UInt32.ofNat b) = false := by simpa using find?_some found
    have ne : UInt32.ofNat b ≠ 0 := by
      intro zero
      rw [zero, system 0 g.boot] at free
      cases free
    simp only [ballocLogs, balloc, found, if_neg ne]
  | none => simp only [ballocLogs, balloc, found, if_true]

/-- What `bmap` logs belongs to the block it yields, or to the indirect block. -/
theorem bmapLogs_mem (h : Owns g d ino) (live : (ino i).type ≠ 0)
    (done : bmap g d (ino i) bn = .ok (a, d', ip')) (mem : x ∈ bmapLogs m g d (ino i) bn) :
    (x = a ∨ x = m.bblock a) ∨ ip'.ind ≠ 0 ∧ (x = ip'.ind ∨ x = m.bblock ip'.ind) := by
  have addr : ∀ k, x ∈ bmapAddrLogs m g d (ino i) k → (bmapAddr g d (ino i) k).1 ≠ 0 ∧
      (x = (bmapAddr g d (ino i) k).1 ∨ x = m.bblock (bmapAddr g d (ino i) k).1) := by
    intro k mem
    unfold bmapAddrLogs at mem
    unfold bmapAddr
    split at mem
    · rename_i empty
      rw [ballocLogs_eq h.system] at mem
      simp only [empty, if_true]
      split at mem
      · cases mem
      · rename_i ne
        rw [if_neg ne]
        simp only [mem_cons, not_mem_nil, or_false] at mem
        exact ⟨ne, mem.symm⟩
    · cases mem
  unfold bmapLogs at mem
  unfold bmap at done
  split at mem
  · rename_i small
    rw [dif_pos small] at done
    have eq := Except.ok.inj done
    have here := (addr _ mem).2
    rw [eq] at here
    exact .inl here
  · rename_i big
    rw [dif_neg big] at done
    split at mem
    · rename_i within
      rw [dif_pos within] at done
      have facts := bmapAddr_ind h live
      have last := addr (Fin.last ndirect)
      generalize bmapAddr g d (ino i) (Fin.last ndirect) = r at done facts mem last
      dsimp only at done mem
      by_cases zero : r.1 = 0
      · rw [if_pos zero, append_nil] at mem
        exact absurd zero (last mem).1
      obtain ⟨ind, -, system, -, -⟩ := facts zero
      rw [if_neg zero] at done mem
      obtain ⟨block, rest⟩ := Prod.mk.inj (Except.ok.inj done)
      cases rest
      rw [ind]
      rcases mem_append.1 mem with mem | mem
      · exact .inr ⟨zero, (last mem).2⟩
      · unfold bmapEntryLogs at mem
        unfold bmapEntry at block
        split at mem
        · rename_i empty
          rw [ballocLogs_eq system] at mem
          simp only [empty, if_true] at block
          split at mem
          · cases mem
          · rename_i ne
            rw [if_neg ne] at block
            simp only [cons_append, nil_append, mem_cons, not_mem_nil, or_false] at mem
            rw [block] at mem
            rcases mem with eq | eq | eq
            · exact .inl (.inr eq)
            · exact .inl (.inl eq)
            · exact .inr ⟨zero, .inl eq⟩
        · cases mem
    · cases mem

theorem bmapLogs_mapped (ne : blockAt d.block ip bn ≠ 0) : bmapLogs m g d ip bn = [] := by
  unfold bmapLogs
  unfold blockAt at ne
  split
  · rename_i small
    rw [dif_pos small] at ne
    exact if_neg ne
  · rename_i big
    rw [dif_neg big] at ne
    split
    · rename_i within
      rw [dif_pos within] at ne
      by_cases zero : ip.ind = 0
      · exact absurd (if_pos zero) ne
      · have addr : bmapAddr g d ip (Fin.last ndirect) = (ip.ind, d, ip) := if_neg zero
        have none : bmapAddrLogs m g d ip (Fin.last ndirect) = [] := if_neg zero
        have entry : word (d.block ip.ind) ⟨bn - ndirect, within⟩ ≠ 0 := by
          rw [addrAt, if_neg zero] at ne
          exact ne
        simp only [none, addr, if_neg zero, bmapEntryLogs, if_neg entry, nil_append]
    · rfl

/-- In how many rounds the loop writes the bytes from `tot` to `n`. -/
def rounds (n tot off : Nat) : Nat :=
  if n ≤ tot then 0 else (off % bsize + (n - tot) - 1) / bsize + 1

theorem rounds_step {n tot} (off : Nat) (more : tot < n) :
    rounds n (tot + chunk n tot off) (off + chunk n tot off) + 1 = rounds n tot off := by
  unfold rounds
  rw [if_neg (not_le.2 more)]
  by_cases last : n ≤ tot + chunk n tot off
  · rw [if_pos last]
    simp only [chunk, bsize] at *
    omega
  · rw [if_neg last]
    simp only [chunk, bsize] at *
    omega

/-- What is logged: `r` blocks of data, `f` blocks of the free map for them, and
besides the indirect block with its block of the free map. -/
def Logged (m : Layout) (ind : UInt32) (r f : Nat) (l : List UInt32) : Prop :=
  ∃ (c : UInt32) (data free : List UInt32), (ind ≠ 0 → c = ind) ∧ data.length ≤ r ∧
    free.length ≤ f ∧ ∀ x ∈ l, x ∈ data ∨ x ∈ free ∨ x = c ∨ x = m.bblock c

namespace Logged
variable {ind ind' : UInt32} {r f : Nat} {l rest : List UInt32}

theorem nil : Logged m ind r f [] :=
  ⟨ind, [], [], fun _ => rfl, Nat.zero_le _, Nat.zero_le _, fun _ mem => absurd mem not_mem_nil⟩

/-- Less is logged. -/
theorem sub (h : Logged m ind r f l) (sub : rest ⊆ l) : Logged m ind r f rest := by
  obtain ⟨c, data, free, same, short, short', all⟩ := h
  exact ⟨c, data, free, same, short, short', fun x mem => all x (sub mem)⟩

theorem mono {r' f'} (h : Logged m ind r f l) (le : r ≤ r') (le' : f ≤ f') :
    Logged m ind r' f' l := by
  obtain ⟨c, data, free, same, short, short', all⟩ := h
  exact ⟨c, data, free, same, le_trans short le, le_trans short' le', all⟩

/-- A round on a block that is there. -/
theorem plain (h : Logged m ind r f rest) : Logged m ind (r + 1) f (a :: rest) := by
  obtain ⟨c, data, free, same, short, short', all⟩ := h
  refine ⟨c, a :: data, free, same, Nat.succ_le_succ short, short', fun x mem => ?_⟩
  rcases mem_cons.1 mem with rfl | mem
  · exact .inl mem_cons_self
  · rcases all x mem with mem | rest
    · exact .inl (mem_cons_of_mem _ mem)
    · exact .inr rest

/-- A round that maps block `a`. -/
theorem round (kept : ind ≠ 0 → ind' = ind)
    (own : ∀ x ∈ l, (x = a ∨ x = m.bblock a) ∨ ind' ≠ 0 ∧ (x = ind' ∨ x = m.bblock ind'))
    (h : Logged m ind' r f rest) : Logged m ind (r + 1) (f + 1) (l ++ a :: rest) := by
  obtain ⟨c, data, free, same, short, short', all⟩ := h
  refine ⟨c, a :: data, m.bblock a :: free, fun ne => ?_, Nat.succ_le_succ short,
    Nat.succ_le_succ short', fun x mem => ?_⟩
  · have eq := kept ne
    rw [same (by rw [eq]; exact ne), eq]
  · rcases mem_append.1 mem with mem | mem
    · rcases own x mem with (rfl | rfl) | ⟨ne, of_ind⟩
      · exact .inl mem_cons_self
      · exact .inr (.inl mem_cons_self)
      · rw [← same ne] at of_ind
        exact .inr (.inr of_ind)
    · rcases mem_cons.1 mem with rfl | mem
      · exact .inl mem_cons_self
      · rcases all x mem with mem | mem | eq
        · exact .inl (mem_cons_of_mem _ mem)
        · exact .inr (.inl (mem_cons_of_mem _ mem))
        · exact .inr (.inr eq)

/-- With the block of the inode. -/
theorem card {y} (h : Logged m ind r f l) : (l ++ [y]).toFinset.card ≤ r + f + 3 := by
  obtain ⟨c, data, free, -, short, short', all⟩ := h
  have sub : (l ++ [y]).toFinset ⊆ (data ++ free ++ [c, m.bblock c, y]).toFinset := by
    intro x mem
    simp only [mem_toFinset, mem_append, mem_cons, not_mem_nil, or_false] at mem ⊢
    rcases mem with mem | rfl
    · rcases all x mem with mem | mem | rfl | rfl <;> simp [*]
    · simp
  have bound := toFinset_card_le (data ++ free ++ [c, m.bblock c, y])
  have le := Finset.card_le_card sub
  simp only [length_append, length_cons, length_nil] at bound
  omega

end Logged

variable [DecidableEq ι]

theorem writeLogs_logged (src : Source) (n fuel : Nat) :
    ∀ (tot off : Nat) {d : Disk} {ino : ι → Dinode}, Owns g d ino → (ino i).type ≠ 0 →
    Logged m (ino i).ind (rounds n tot off) (rounds n tot off)
      (writeLogs m g src n fuel tot off d (ino i)) := by
  induction fuel with
  | zero => exact fun tot off d ino _ _ => Logged.nil
  | succ fuel ih =>
    intro tot off d ino h live
    rw [writeLogs]
    split
    · exact .nil
    rename_i more
    rw [← rounds_step off (Nat.lt_of_not_le more)]
    cases done : bmap g d (ino i) (off / bsize) with
    | error e =>
      have none : bmapLogs m g d (ino i) (off / bsize) = [] := by
        unfold bmap at done
        unfold bmapLogs
        split at done
        · cases done
        rename_i big
        split at done
        · dsimp only at done
          split at done <;> cases done
        · rename_i far
          rw [dif_neg big, dif_neg far]
      rw [none]
      exact .nil
    | ok r =>
      obtain ⟨a, d1, ip1⟩ := r
      obtain ⟨grows, here⟩ := (bmap_spec h live _).of_ok done
      have kept : (ino i).ind ≠ 0 → ip1.ind = (ino i).ind := grows.kept .indirect
      have own := fun x mem => bmapLogs_mem (m := m) (x := x) h live done mem
      -- the loop ends here: at most the block has been mapped
      have ends : Logged m (ino i).ind
        (rounds n (tot + chunk n tot off) (off + chunk n tot off) + 1)
          (rounds n (tot + chunk n tot off) (off + chunk n tot off) + 1)
          (bmapLogs m g d (ino i) (off / bsize) ++ []) :=
        (Logged.round kept own Logged.nil).sub (by rw [append_nil]; exact subset_append_left ..)
      dsimp only
      split
      · exact ends
      rename_i ne
      split
      · exact ends
      · refine Logged.round kept own ?_
        have filled := (grows.fill live (here ne) ne
          (copyInto (d1.block a) (off % bsize) src tot (min (chunk n tot off) (src.got tot)))).1
        have rest := ih (tot + chunk n tot off) (off + chunk n tot off) filled.owns
          (by rw [update_self, grows.type]; exact live)
        rw [update_self] at rest
        exact rest

/-- Three blocks of bytes are in at most four blocks; if the first of those is
there, it takes nothing from the free map. -/
theorem writeLogs_mapped {src n off} (h : Owns g d ino) (live : (ino i).type ≠ 0)
    (here : blockAt d.block (ino i) (off / bsize) ≠ 0) (short : n ≤ 3 * bsize) :
    Logged m (ino i).ind 4 3 (writeLogs m g src n n 0 off d (ino i)) := by
  cases n with
  | zero => exact .nil
  | succ fuel =>
    rw [writeLogs, if_neg (by omega), bmapLogs_mapped here, bmap_mapped here, nil_append]
    dsimp only
    rw [if_neg here]
    split
    · exact .nil
    · refine Logged.plain ?_
      have there : blockAt d.block (ino i) (off / bsize) = blockAt d.block (ino i) (off / bsize) :=
        rfl
      have filled := ((Grows.refl h).fill live there here
        (copyInto (d.block (blockAt d.block (ino i) (off / bsize))) (off % bsize) src 0
          (min (chunk (fuel + 1) 0 off) (src.got 0)))).1
      have rest := writeLogs_logged (m := m) src (fuel + 1) fuel (0 + chunk (fuel + 1) 0 off)
        (off + chunk (fuel + 1) 0 off) filled.owns (by rw [update_self]; exact live)
      rw [update_self] at rest
      have three : rounds (fuel + 1) (0 + chunk (fuel + 1) 0 off) (off + chunk (fuel + 1) 0 off) ≤
          3 := by
        unfold rounds
        split
        · exact Nat.zero_le _
        · simp only [chunk, bsize] at *
          omega
      exact rest.mono three three

/-- A chunk of `filewrite` logs at most `MAXOPBLOCKS` blocks. -/
theorem writeiLogs_card (src : Source) (off inum : UInt32) {n} (h : Owns g d ino)
    (live : (ino i).type ≠ 0)
    (upto : Upto d.block (ino i) (ino i).size.toNat) (short : n.toNat ≤ maxChunk) :
    (writeiLogs m g inum d (ino i) src off n).toFinset.card ≤ maxopblocks := by
  unfold writeiLogs
  split
  · exact Nat.zero_le _
  rename_i inside
  split
  · exact Nat.zero_le _
  replace inside : off.toNat ≤ (ino i).size.toNat := by
    rw [not_or, UInt32.not_lt] at inside
    exact inside.1
  replace short : n.toNat ≤ 3 * bsize := short
  by_cases aligned : off.toNat % bsize = 0
  · have three : rounds n.toNat 0 off.toNat ≤ 3 := by
      unfold rounds
      split
      · exact Nat.zero_le _
      · simp only [bsize] at *
        omega
    have logged := (writeLogs_logged (m := m) src n.toNat n.toNat 0 off.toNat h live).mono three
      three
    exact le_trans logged.card (by decide)
  · have here : blockAt d.block (ino i) (off.toNat / bsize) ≠ 0 := by
      refine upto _ ?_
      have := Nat.div_add_mod off.toNat bsize
      rw [mul_comm] at this
      omega
    exact (writeLogs_mapped h live here short).card

/-- `writei` does not panic, and keeps the offset within the file. -/
theorem writei_total (src : Source) (n : UInt32) {off} (h : Owns g d ino) (live : (ino i).type ≠ 0)
    (upto : Upto d.block (ino i) (ino i).size.toNat) (inside : off ≤ (ino i).size) :
    ∃ r d' ip', writei g d (ino i) src off n = .ok (r, d', ip') ∧ Owns g d' (update ino i ip') ∧
      ip'.type = (ino i).type ∧ Upto d'.block ip' ip'.size.toNat ∧ off + UInt32.ofNat (r.getD 0) ≤
        ip'.size := by
  by_cases fits : off.toNat + n.toNat ≤ maxfile * bsize
  · obtain ⟨t, d', ip1, eq, stops, -⟩ := writei_stops src h live inside fits
    obtain ⟨owns, type, upto', -, -⟩ := (writei_spec h live upto src off n).of_ok eq
    refine ⟨some t, d', _, eq, owns, type, upto', ?_⟩
    have le := stops.le
    have small : maxfile * bsize < 2 ^ 32 := by decide
    have size := (ino i).size.toNat_lt
    have small_t : t < 2 ^ 32 := by omega
    have small_size : max (ino i).size.toNat (off.toNat + t) < 2 ^ 32 := by omega
    rw [UInt32.le_iff_toNat_le, Option.getD_some, UInt32.toNat_add,
      UInt32.toNat_ofNat_of_lt' small_t, UInt32.toNat_ofNat_of_lt' small_size,
      Nat.mod_eq_of_lt (by omega)]
    omega
  · refine ⟨none, d, ino i, ?_, by rw [update_eq_self]; exact h, rfl, upto, by simpa using inside⟩
    unfold writei
    split
    · rfl
    rename_i within
    rw [not_or, UInt32.not_lt, UInt32.not_lt] at within
    have sum : (off + n).toNat = (off.toNat + n.toNat) % 2 ^ 32 := UInt32.toNat_add off n
    have nowrap : off.toNat ≤ (off + n).toNat := UInt32.le_iff_toNat_le.1 within.2
    have := n.toNat_lt
    rw [if_pos (by omega)]

theorem filewriteLoop_fits (inum : UInt32) (src : Nat → Source) (n fuel : Nat) :
    ∀ (k : Nat) (off : UInt32) {d : Disk} {ino : ι → Dinode}, Owns g d ino → (ino i).type ≠ 0 →
    Upto d.block (ino i) (ino i).size.toNat → off ≤ (ino i).size →
    ∃ r, filewriteLoop m g inum src n fuel k off d (ino i) = .ok r ∧
      ∀ op ∈ r.2.2.2.2, op.toFinset.card ≤ maxopblocks := by
  induction fuel with
  | zero => exact fun k off d ino _ _ _ _ => ⟨_, rfl, fun op mem => absurd mem not_mem_nil⟩
  | succ fuel ih =>
    intro k off d ino h live upto inside
    rw [filewriteLoop]
    split
    · exact ⟨_, rfl, fun op mem => absurd mem not_mem_nil⟩
    have short : (UInt32.ofNat (min (n - k) maxChunk)).toNat ≤ maxChunk := by
      have big : maxChunk < 2 ^ 32 := by decide
      have small : min (n - k) maxChunk < 2 ^ 32 := by omega
      rw [UInt32.toNat_ofNat_of_lt' small]
      exact min_le_right ..
    have fits := writeiLogs_card (m := m) (src k) off inum h live upto short
    obtain ⟨r, d', ip', eq, owns, type, upto', inside'⟩ :=
      writei_total (src k) (UInt32.ofNat (min (n - k) maxChunk)) h live upto inside
    simp only [eq, bind, Except.bind, pure, Except.pure]
    split
    · have self : update ino i ip' i = ip' := update_self ..
      obtain ⟨rest, done, all⟩ := ih (k + min (n - k) maxChunk) (off + UInt32.ofNat (r.getD 0)) owns
        (by rw [self, type]; exact live) (by rw [self]; exact upto') (by rw [self]; exact inside')
      rw [self] at done
      refine ⟨_, by rw [done], fun op mem => ?_⟩
      rcases mem_cons.1 mem with rfl | mem
      · exact fits
      · exact all op mem
    · refine ⟨_, rfl, fun op mem => ?_⟩
      rw [mem_singleton.1 mem]
      exact fits

/-- Whatever the layout of the disk, the offset within the file and the length,
each transaction of `filewrite` logs at most as many blocks as `begin_op` has
reserved for it. -/
theorem filewrite_fits_log (h : Owns g d ino) (live : (ino i).type ≠ 0)
    (upto : Upto d.block (ino i) (ino i).size.toNat) {off : UInt32} (inside : off ≤ (ino i).size)
    (m : Layout) (inum : UInt32) (src : Nat → Source) (n : Int) :
    ∃ r, filewrite m g inum src n off d (ino i) = .ok r ∧ ∀ op ∈ r.ops, op.toFinset.card ≤
      maxopblocks := by
  obtain ⟨r, eq, all⟩ :=
    filewriteLoop_fits (m := m) inum src n.toNat n.toNat 0 off h live upto inside
  exact ⟨_, by rw [filewrite, eq]; rfl, all⟩

end logs

/-- Five thousand bytes for an empty file, on a disk with ten blocks. -/
theorem filewrite_fits_log_sample :
    ∃ r, filewrite ⟨2, 2⟩ sampleSuper 1 (fun _ => twoSevens.src) 5000 0
    oneFile.disk (oneFile.ino ()) = .ok r ∧ ∀ op ∈ r.ops, op.toFinset.card ≤ maxopblocks :=
  filewrite_fits_log oneFile_owns oneFile_solid.live oneFile_solid.upto (by decide) _ _ _ _

end OsProject.Xv6.FileWrite
