import OsProject.Xv6.FileBytes

/-! # Directories as bytes

`dirlookup`, `dirlink`, `isdirempty` and the part of `sys_unlink` that removes an
entry, over the bytes of an inode: entries of 16 bytes, a number and a name that
is padded with zeros, or not if it is 14 bytes long. A string is the list of its
bytes, which may go on behind its NUL. -/
namespace OsProject.Xv6.Directory
open Inode BlockOwnership Contents Writing List
open FileBytes

def dirsiz : Nat := 14
def tDir : Int16 := 1

/-! ## Strings -/

/-- `string.c`; behind the end of a list there is a NUL. -/
def strncmp : Nat → List UInt8 → List UInt8 → Int
  | 0, _, _ => 0
  | n + 1, p, q =>
    if p.headD 0 ≠ 0 ∧ p.headD 0 = q.headD 0 then strncmp n p.tail q.tail
    else (p.headD 0).toNat - (q.headD 0).toNat

/-- The bytes that `strncpy` leaves in a field of `n`. -/
def strncpy : Nat → List UInt8 → List UInt8
  | 0, _ => []
  | n + 1, t => if t.headD 0 ≠ 0 then t.headD 0 :: strncpy n t.tail else List.replicate (n + 1) 0

def namecmp (s t : List UInt8) : Int := strncmp dirsiz s t

/-- The first `n` bytes up to the NUL. -/
def upToNul (n : Nat) (s : List UInt8) : List UInt8 := (s.take n).takeWhile (· ≠ 0)

/-- What directories tell names apart by. -/
def key (s : List UInt8) : List UInt8 := upToNul dirsiz s

theorem upToNul_succ (n : Nat) (s : List UInt8) :
    upToNul (n + 1) s = if s.headD 0 ≠ 0 then s.headD 0 :: upToNul n s.tail else [] := by
  cases s with
  | nil => rfl
  | cons b s =>
    rw [upToNul, take_succ_cons, takeWhile_cons]
    by_cases nul : b = 0
    · simp [nul]
    · simp [nul, upToNul]

theorem strncmp_eq_zero_iff (n : Nat) : ∀ p q, strncmp n p q = 0 ↔ upToNul n p = upToNul n q := by
  induction n with
  | zero => exact fun p q => ⟨fun _ => rfl, fun _ => rfl⟩
  | succ n ih =>
    intro p q
    rw [strncmp, upToNul_succ, upToNul_succ]
    by_cases more : p.headD 0 ≠ 0 ∧ p.headD 0 = q.headD 0
    · rw [if_pos more, if_pos more.1, ← more.2, if_pos more.1, ih, cons_inj_right]
    · rw [if_neg more]
      have bytes : ((p.headD 0).toNat : Int) - (q.headD 0).toNat = 0 ↔ p.headD 0 = q.headD 0 := by
        rw [← UInt8.toNat_inj]
        omega
      rw [bytes]
      by_cases left : p.headD 0 = 0
      · rw [left, if_neg (not_not.2 rfl)]
        by_cases right : q.headD 0 = 0
        · rw [right, if_neg (not_not.2 rfl)]
          exact ⟨fun _ => rfl, fun _ => rfl⟩
        · rw [if_pos right]
          exact ⟨fun eq => absurd eq.symm right, fun eq => absurd eq (cons_ne_nil _ _).symm⟩
      · rw [if_pos left]
        refine ⟨fun eq => absurd ⟨left, eq⟩ more, fun eq => ?_⟩
        split at eq
        · exact (List.cons.inj eq).1
        · exact absurd eq (cons_ne_nil _ _)

theorem namecmp_iff {s t} : namecmp s t = 0 ↔ key s = key t := strncmp_eq_zero_iff ..

theorem strncpy_length (n : Nat) : ∀ t, (strncpy n t).length = n := by
  induction n with
  | zero => exact fun t => rfl
  | succ n ih =>
    intro t
    rw [strncpy]
    split
    · rw [length_cons, ih]
    · exact length_replicate

theorem upToNul_strncpy (n : Nat) : ∀ t, upToNul n (strncpy n t) = upToNul n t := by
  induction n with
  | zero => exact fun t => rfl
  | succ n ih =>
    intro t
    rw [upToNul_succ n t, strncpy]
    split
    · rename_i more
      rw [upToNul_succ, headD_cons, if_pos more, tail_cons, ih]
    · rw [upToNul_succ, replicate_succ, headD_cons, if_neg (not_not.2 rfl)]

/-! ## The code -/

inductive Panic where
  | dirlookupNotDir | dirlookupRead | dirlinkRead | isdiremptyReadi | unlinkWritei
      | inode (e : Inode.Panic)

/-- `de.inum` of the bytes of an entry. -/
def inumOf (de : List UInt8) : Nat := (de.getD 0 0).toNat + 256 * (de.getD 1 0).toNat

/-- `de.name`. -/
def nameOf (de : List UInt8) : List UInt8 := de.drop 2

/-- The bytes of a `struct dirent`. -/
def dirent (inum : UInt16) (name : List UInt8) : List UInt8 :=
  UInt8.ofNat inum.toNat :: UInt8.ofNat (inum.toNat / 256) :: name

/-- The loop over the entries that three functions have: it ends at an entry that
`stop` holds of, or behind the last. -/
def scan (g : Super) (fail : Panic) (stop : List UInt8 → Bool) :
    Nat → Nat → Disk → Dinode → Except Panic (Nat × Option (List UInt8) × Disk × Dinode)
  | 0, off, d, dp => .ok (off, none, d, dp)
  | fuel + 1, off, d, dp =>
    if dp.size.toNat ≤ off then .ok (off, none, d, dp)
    else match readi g d dp (fun _ => bsize) (UInt32.ofNat off) 16 with
      | .error e => .error (.inode e)
      | .ok (r, de, d, dp) =>
        if r ≠ some 16 then .error fail
        else if stop de then .ok (off, some de, d, dp)
        else scan g fail stop fuel (off + 16) d dp

/-- As many rounds as there are entries, and one. -/
def rounds (dp : Dinode) : Nat := dp.size.toNat / 16 + 1

/-- The number and the offset of the entry, without the `iget` of the number. -/
def dirlookup (g : Super) (d : Disk) (dp : Dinode) (name : List UInt8) :
    Except Panic (Option (Nat × Nat) × Disk × Dinode) :=
  if dp.type ≠ tDir then .error .dirlookupNotDir
  else do
    let (off, de, d, dp) ← scan g .dirlookupRead (fun de => inumOf de ≠ 0 ∧
      namecmp name (nameOf de) = 0) (rounds dp) 0 d dp
    return (de.map fun de => (inumOf de, off), d, dp)

/-- The kernel's own memory, of which `writei` can read every byte. -/
def kernelMemory (l : List UInt8) : Source := ⟨fun k => l.getD k 0, fun _ => bsize, true⟩

/-- Whether the entry was made. -/
def dirlink (g : Super) (d : Disk) (dp : Dinode) (name : List UInt8) (inum : UInt32) :
    Except Panic (Bool × Disk × Dinode) := do
  let (found, d, dp) ← dirlookup g d dp name
  if found.isSome then return (false, d, dp)
  else
    let (off, _, d, dp) ← scan g .dirlinkRead (fun de => inumOf de = 0) (rounds dp) 0 d dp
    let de := dirent inum.toUInt16 (strncpy dirsiz name)
    match writei g d dp (kernelMemory de) (UInt32.ofNat off) 16 with
    | .error e => .error (.inode e)
    | .ok (r, d, dp) => return (decide (r = some 16), d, dp)

def isdirempty (g : Super) (d : Disk) (dp : Dinode) : Except Panic (Bool × Disk × Dinode) := do
  let (_, de, d, dp) ← scan g .isdiremptyReadi (fun de => inumOf de ≠ 0) (rounds dp) 32 d dp
  return (de.isNone, d, dp)

def dot : List UInt8 := [46]
def dotdot : List UInt8 := [46, 46]

/-- What `sys_unlink` does to the directory: whether the entry was removed.
`empty` says that the inode of the entry is not a directory with entries of its own. -/
def unlink (g : Super) (d : Disk) (dp : Dinode) (name : List UInt8) (empty : Bool) :
    Except Panic (Bool × Disk × Dinode) :=
  if namecmp name dot = 0 ∨ namecmp name dotdot = 0 then .ok (false, d, dp)
  else do
    let (found, d, dp) ← dirlookup g d dp name
    match found with
    | none => return (false, d, dp)
    | some (_, off) =>
      if !empty then return (false, d, dp)
      else match writei g d dp (kernelMemory (List.replicate 16 0)) (UInt32.ofNat off) 16 with
        | .error e => .error (.inode e)
        | .ok (r, d, dp) => if r ≠ some 16 then .error .unlinkWritei else return (true, d, dp)

/-! ## Entries -/

/-- Entry `k` of the bytes of a directory. -/
def entry (l : List UInt8) (k : Nat) : List UInt8 := (l.drop (16 * k)).take 16

section entries
variable {l p : List UInt8} {j k : Nat}

theorem entry_length (lt : 16 * k + 16 ≤ l.length) : (entry l k).length = 16 := by
  rw [entry, length_take, length_drop]
  omega

theorem entry_getD (k : Nat) {b} (lt : b < 16) : (entry l k).getD b 0 = l.getD (16 * k + b) 0 := by
  simp only [entry, getD_eq_getElem?_getD, getElem?_take_of_lt lt, getElem?_drop]

/-- Writing an entry changes that one. -/
theorem entry_put (inside : 16 * j ≤ l.length) (length : p.length = 16)
    (whole : 16 * k + 16 ≤ (put l (16 * j) p).length) :
    entry (put l (16 * j) p) k = if k = j then p else entry l k := by
  have old : k ≠ j → 16 * k + 16 ≤ l.length := by
    rw [put_length inside] at whole
    omega
  refine ext_getElem ?_ fun b lt lt' => ?_
  · rw [entry_length whole]
    split
    · exact length.symm
    · rename_i other
      exact (entry_length (old other)).symm
  · rw [entry_length whole] at lt
    rw [← getD_eq_getElem _ 0, ← getD_eq_getElem _ 0, entry_getD k lt, put_getD inside, length]
    by_cases same : k = j
    · rw [if_pos same, if_pos (by omega), same, Nat.add_sub_cancel_left]
    · rw [if_neg same, if_neg (by omega), entry_getD k lt]

end entries

/-- The bytes of a directory: a number of whole entries. -/
structure IsDir (d : Disk) (dp : Dinode) (count : Nat) : Prop where
  type : dp.type = tDir
  upto : Upto d.block dp dp.size.toNat
  size : dp.size.toNat = 16 * count

section scans
variable {g : Super} {d : Disk} {dp : Dinode} {count : Nat}

theorem IsDir.length (h : IsDir d dp count) : (contents d.block dp).length = 16 * count := by
  rw [contents_length, h.size]

theorem IsDir.small (h : IsDir d dp count) : 16 * count < 2 ^ 31 := by
  have le := upto_le h.upto
  have max : maxfile * bsize < 2 ^ 31 := by decide
  rw [h.size] at le
  omega

theorem toNat_offset (k : Nat) (small : 16 * k < 2 ^ 31) :
    (UInt32.ofNat (16 * k)).toNat = 16 * k := by
  have lt : 16 * k < 2 ^ 32 := by omega
  exact UInt32.toNat_ofNat_of_lt' lt

theorem IsDir.rounds_eq (h : IsDir d dp count) : rounds dp = count + 1 := by
  rw [rounds, h.size, Nat.mul_div_cancel_left _ (by decide)]

theorem readi_entry (h : IsDir d dp count) {k} (lt : k < count) :
    readi g d dp (fun _ => bsize) (UInt32.ofNat (16 * k)) 16 =
      .ok (some 16, entry (contents d.block dp) k, d, dp) := by
  have small := h.small
  have off := toNat_offset k (by omega)
  have all : part (contents d.block dp) (UInt32.ofNat (16 * k)) 16 =
      entry (contents d.block dp) k := by
    rw [part, off, if_pos (by show 16 * k + 16 < 2 ^ 32; omega)]
    rfl
  rw [readi_part h.upto (fun _ => le_refl _), all, entry_length (by rw [h.length]; omega)]

/-- The first entry from `k` on that `stop` holds of. -/
def first (stop : List UInt8 → Bool) (l : List UInt8) (count k : Nat) : Option Nat :=
  (List.range' k (count - k)).find? fun j => stop (entry l j)

theorem scan_eq (h : IsDir d dp count) (fail : Panic) (stop : List UInt8 → Bool)
    (fuel : Nat) : ∀ k, count < fuel + k → scan g fail stop fuel (16 * k) d dp =
      .ok (16 * (first stop (contents d.block dp) count k).getD (max k count),
        (first stop (contents d.block dp) count k).map (entry (contents d.block dp)), d, dp) := by
  unfold first
  induction fuel with
  | zero =>
    intro k past
    rw [show count - k = 0 by omega, show max k count = k by omega]
    rfl
  | succ fuel ih =>
    intro k enough
    rw [scan, h.size]
    by_cases last : count ≤ k
    · rw [if_pos (by omega), show count - k = 0 by omega, show max k count = k by omega]
      rfl
    · rw [if_neg (by omega), readi_entry h (by omega),
        show count - k = (count - (k + 1)) + 1 by omega, range'_succ, find?_cons]
      dsimp only
      rw [if_neg (not_not.2 rfl)]
      cases stops : stop (entry (contents d.block dp) k) with
      | true => rfl
      | false =>
        rw [if_neg Bool.false_ne_true, show 16 * k + 16 = 16 * (k + 1) by omega,
          ih (k + 1) (by omega), show max k count = max (k + 1) count by omega]

theorem first_some {stop l k j} (h : first stop l count k = some j) :
    k ≤ j ∧ j < count ∧ stop (entry l j) = true := by
  have mem := mem_of_find?_eq_some h
  rw [mem_range'_1] at mem
  exact ⟨mem.1, by omega, find?_some (p := fun j => stop (entry l j)) h⟩

theorem first_none {stop l k} :
    first stop l count k = none ↔ ∀ j, k ≤ j → j < count → stop (entry l j) = false := by
  rw [first, find?_eq_none]
  constructor
  · intro all j ge lt
    exact Bool.eq_false_iff.2 (all j (mem_range'_1.2 (by omega)))
  · intro all j mem
    rw [mem_range'_1] at mem
    rw [all j mem.1 (by omega)]
    exact Bool.false_ne_true

theorem dirlookup_eq (h : IsDir d dp count) (name : List UInt8) :
    dirlookup g d dp name = .ok ((first (fun de => inumOf de ≠ 0 ∧ namecmp name (nameOf de) = 0)
      (contents d.block dp) count 0).map fun j => (inumOf (entry (contents d.block dp) j), 16 * j),
        d, dp) := by
  have scanned := scan_eq (g := g) h .dirlookupRead (fun de => inumOf de ≠ 0 ∧
    namecmp name (nameOf de) = 0) (count + 1) 0 (by omega)
  rw [dirlookup, if_neg (not_not.2 h.type), h.rounds_eq, show (0 : Nat) = 16 * 0 from rfl, scanned]
  cases first (fun de => inumOf de ≠ 0 ∧ namecmp name (nameOf de) = 0) (contents d.block dp)
    count 0 with
  | none => rfl
  | some j => rfl

theorem isdirempty_eq (h : IsDir d dp count) :
    isdirempty g d dp = .ok ((first (fun de => inumOf de ≠ 0) (contents d.block dp) count 2).isNone,
      d, dp) := by
  have scanned := scan_eq (g := g) h .isdiremptyReadi (fun de => inumOf de ≠ 0)
    (count + 1) 2 (by omega)
  rw [isdirempty, h.rounds_eq, show (32 : Nat) = 16 * 2 from rfl, scanned]
  simp only [bind, Except.bind, pure, Except.pure, Option.isNone_map]

end scans

section write
variable {ι : Type} [DecidableEq ι] {g : Super} {d : Disk} {ino : ι → Dinode} {i : ι}
    {count k : Nat} {p : List UInt8}

/-- The bytes from `p` on its way to the disk. -/
theorem sent_kernelMemory : sent (kernelMemory p) p.length = p := by
  refine ext_getElem sent_length fun b _ lt => ?_
  rw [← getD_eq_getElem _ 0, ← getD_eq_getElem _ 0, sent_getD lt]
  rfl

/-- What a write of one entry does: all of it is written, or nothing because it
would be behind the last one and the disk is full or the directory as large as can be. -/
structure Entered (g : Super) (d : Disk) (ino : ι → Dinode) (i : ι) (count k : Nat) (p : List UInt8)
    (r : Option Nat) (d' : Disk) (ip' : Dinode) : Prop where
  owns : Owns g d' (Function.update ino i ip')
  others : ∀ j, j ≠ i → (ino j).type ≠ 0 → Untouched d.block d'.block (ino j)
  cases : (r = some 16 ∧ IsDir d' ip' (max count (k + 1)) ∧
      contents d'.block ip' = put (contents d.block (ino i)) (16 * k) p) ∨
    (r ≠ some 16 ∧ k = count ∧ IsDir d' ip' count ∧
      contents d'.block ip' = contents d.block (ino i))

theorem writei_entry (owns : Owns g d ino) (h : IsDir d (ino i) count) (inside : k ≤ count)
    (length : p.length = 16) :
    ∃ r d' ip', writei g d (ino i) (kernelMemory p) (UInt32.ofNat (16 * k)) 16 = .ok (r, d', ip') ∧
      Entered g d ino i count k p r d' ip' := by
  have small := h.small
  have off := toNat_offset k (by omega)
  have live : (ino i).type ≠ 0 := by
    rw [h.type]
    decide
  by_cases fits : 16 * k + 16 ≤ maxfile * bsize
  · have start : UInt32.ofNat (16 * k) ≤ (ino i).size := by
      rw [UInt32.le_iff_toNat_le, off, h.size]
      omega
    obtain ⟨t, d', ip1, eq, stops, wrote⟩ := writei_stops (n := 16) (kernelMemory p) owns live start
      (by rw [off]; exact fits)
    rw [off] at eq stops wrote
    have reads : ¬ (kernelMemory p).got t < chunk 16 t (16 * k + t) :=
      not_lt.2 (le_trans chunk_le (Nat.sub_le ..))
    have none : spilt g (kernelMemory p) 16 (16 * k) d (ino i) 0 t = 0 :=
      if_neg fun ⟨_, short, room⟩ => reads (stops.why short room)
    replace wrote : Wrote g (kernelMemory p) (16 * k) ino i d 0 t d' ip1 := by
      rw [show (UInt32.toNat 16) = 16 from rfl, none, add_zero] at wrote
      exact wrote
    have le : t ≤ 16 := stops.le
    have whole : t = 0 ∨ t = 16 := by
      by_contra between
      have starts := stops.starts (show t < 16 by omega)
      simp only [Starts, bsize] at starts
      omega
    have within : 16 * k ≤ (ino i).size.toNat := by
      rw [h.size]
      omega
    have low : max (ino i).size.toNat (16 * k + t) < 2 ^ 32 := by
      rw [h.size]
      omega
    have size := UInt32.toNat_ofNat_of_lt' low
    have shows := (contents_wrote wrote (le_refl _) h.upto within low).2 fun b ge lt => by omega
    have grown := Wrote.upto_max wrote h.upto within (le_refl _)
    have dir : ∀ count', max (16 * count) (16 * k + t) = 16 * count' →
        IsDir d' { ip1 with size := UInt32.ofNat (max (ino i).size.toNat (16 * k + t)) }
        count' := by
      intro count' length'
      refine ⟨wrote.grows.type.trans h.type, ?_, ?_⟩
      · rw [size]
        exact grown
      · rw [size, h.size, length']
    refine ⟨some t, d', _, eq, wrote.grows.owns.replace rfl rfl, wrote.others, ?_⟩
    rcases whole with rfl | rfl
    · by_cases old : k < count
      · have mapped : blockAt d.block (ino i) ((16 * k + 0) / bsize) ≠ 0 := by
          refine h.upto _ ?_
          have := Nat.div_mul_le_self (16 * k + 0) bsize
          rw [h.size]
          omega
        have room : Room g (16 * k) d (ino i) 0 0 := by
          rw [Room, needs_one, wanted_mapped mapped]
          exact Nat.zero_le _
        exact absurd (stops.why (by decide) room) reads
      · refine .inr ⟨by decide, by omega, dir count (by omega), shows.trans ?_⟩
        rw [put, show sent (kernelMemory p) 0 = [] from rfl, append_nil, length_nil, add_zero,
          take_append_drop]
    · refine .inl ⟨rfl, dir _ (by omega), shows.trans ?_⟩
      rw [← length, sent_kernelMemory]
  · have le := upto_le h.upto
    rw [h.size] at le
    have last : k = count := by omega
    have sum : (UInt32.ofNat (16 * k) + 16).toNat = 16 * k + 16 := by
      rw [UInt32.toNat_add, off]
      exact Nat.mod_eq_of_lt (by show 16 * k + 16 < 2 ^ 32; omega)
    have within : ¬ ((ino i).size < UInt32.ofNat (16 * k) ∨ UInt32.ofNat (16 * k) + 16 <
        UInt32.ofNat (16 * k)) := by
      rw [UInt32.lt_iff_toNat_lt, UInt32.lt_iff_toNat_lt, sum, off, h.size]
      omega
    refine ⟨none, d, ino i, ?_, ?_, fun j _ _ => .refl,
      .inr ⟨(Option.some_ne_none 16).symm, last, h, rfl⟩⟩
    · rw [writei, if_neg within, if_pos (by rw [sum]; omega)]
    · rw [Function.update_eq_self]
      exact owns

end write

end OsProject.Xv6.Directory
