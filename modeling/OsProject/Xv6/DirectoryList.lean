import OsProject.Xv6.DirectoryMap
import OsProject.Xv6.Files

/-! # Directories as lists of entries

In `Files` a directory is the list of its entries. The functions on its bytes find and
write the same entries. -/
namespace OsProject.Xv6.DirectoryList
open Inode BlockOwnership Contents FileBytes
open Directory DirectoryMap List

variable {n : Nat} {g : Super} {d : Disk} {dp : Dinode} {l name : List UInt8}
  {es : List (Files.Dirent n)}

theorem first_eq {stop} {p : Files.Dirent n → Bool}
    (same : ∀ k (lt : k < es.length), stop (entry l k) = p es[k]) :
    first stop l es.length 0 = es.findIdx? p := by
  cases found : es.findIdx? p with
  | none =>
    refine first_none.2 fun j _ lt => (same j lt).trans ?_
    exact findIdx?_eq_none_iff.1 found _ (getElem_mem lt)
  | some j =>
    obtain ⟨lt, yes, before⟩ := findIdx?_eq_some_iff_getElem.1 found
    rw [first, Nat.sub_zero, ← range_eq_range', find?_range_eq_some]
    refine ⟨(same j lt).trans yes, mem_range.2 lt, fun i earlier => ?_⟩
    rw [same i (lt_trans earlier lt)]
    simpa using before i earlier

variable [NeZero n]

/-- The bytes of one entry. -/
def Shows (e : Files.Dirent n) (de : List UInt8) : Prop :=
  inumOf de = e.inum ∧ (e.inum ≠ 0 → key (nameOf de) = e.name.take dirsiz)

/-- The bytes of a directory are those of a list of entries. -/
def Lists (l : List UInt8) (es : List (Files.Dirent n)) : Prop :=
  ∀ k (lt : k < es.length), Shows es[k] (entry l k)

/-- The test of `dirlookup`. -/
def seeks (name : List UInt8) (e : Files.Dirent n) : Bool := e.inum ≠ 0 ∧ Files.namecmp name e.name

theorem lookup_eq (name : List UInt8) (es : List (Files.Dirent n)) (off : Nat) :
    Files.lookup name es off =
      (es.findIdx? (seeks name)).bind fun j => es[j]?.map fun e => (e.inum, off + j) := by
  induction es generalizing off with
  | nil => rfl
  | cons e es ih =>
    rw [Files.lookup, findIdx?_cons]
    split
    · rename_i found
      simp [seeks, found]
    · rename_i other
      rw [ih]
      simp [seeks, other, Option.bind_map, Nat.add_right_comm off 1, add_assoc]

theorem key_plain (nul : 0 ∉ name) : key name = name.take dirsiz :=
  takeWhile_eq_self_iff.2 fun _ mem => decide_eq_true fun zero => nul (zero ▸ mem_of_mem_take mem)

/-- `dirlookup` on the disk finds what it finds in the list. -/
theorem dirlookup_lists (h : IsDir d dp es.length) (lists : Lists (contents d.block dp) es)
    (nul : 0 ∉ name) : dirlookup g d dp name =
      .ok ((Files.lookup name es 0).map fun r => (r.1.val, 16 * r.2), d, dp) := by
  rw [dirlookup_eq h, first_eq (p := seeks name), lookup_eq]
  · cases found : es.findIdx? (seeks name) with
    | none => rfl
    | some j =>
      obtain ⟨lt, -⟩ := findIdx?_eq_some_iff_getElem.1 found
      simp [lt, (lists j lt).1]
  · intro k lt
    obtain ⟨inum, like⟩ := lists k lt
    rw [seeks, decide_eq_decide, inum, Fin.val_ne_zero_iff, namecmp_iff, key_plain nul,
      Files.namecmp, decide_eq_true_iff]
    exact and_congr_right fun used => by rw [like used]; rfl

theorem isdirempty_lists {x : Files.Node n} (h : IsDir d dp x.slots.length)
    (lists : Lists (contents d.block dp) x.slots) :
    isdirempty g d dp = .ok (Files.isdirempty x, d, dp) := by
  rw [isdirempty_eq h]
  congr 2
  rw [Files.isdirempty, Bool.eq_iff_iff, Option.isNone_iff_eq_none, first_none, all_eq_true]
  constructor
  · intro none e mem
    obtain ⟨j, lt, rfl⟩ := mem_drop_iff_getElem.1 mem
    simpa [(lists (2 + j) (by omega)).1] using none (2 + j) (by omega) (by omega)
  · intro all j ge lt
    have mem : x.slots[j] ∈ x.slots.drop 2 :=
      mem_drop_iff_getElem.2 ⟨j - 2, by omega, by simp [show 2 + (j - 2) = j by omega]⟩
    simpa [(lists j lt).1] using all _ mem

/-! ## `dirlink` -/

theorem fillSlot_eq (e : Files.Dirent n) (es : List (Files.Dirent n)) :
    Files.fillSlot e es = (es.findIdx? (·.inum = 0)).map fun j => es.set j e := by
  induction es with
  | nil => rfl
  | cons x es ih =>
    rw [Files.fillSlot, findIdx?_cons]
    split
    · rename_i free
      simp [free]
    · rename_i used
      rw [ih]
      simp [used, Function.comp_def]

theorem Lists.put (lists : Lists l es) (length : l.length = 16 * es.length) {es' p j e}
    (sixteen : p.length = 16) (inside : j ≤ es.length) (size : es'.length = max es.length (j + 1))
    (new : ∀ k, es'[k]? = if k = j then some e else es[k]?) (shows : Shows e p) :
    Lists (FileBytes.put l (16 * j) p) es' := by
  intro k lt
  rw [entry_put (by omega) sixteen (by rw [put_length (by omega)]; omega)]
  have here := (getElem?_eq_getElem lt).symm.trans (new k)
  split
  · rename_i same
    rw [if_pos same] at here
    rw [Option.some.inj here]
    exact shows
  · rename_i other
    rw [if_neg other, getElem?_eq_getElem (by omega)] at here
    rw [Option.some.inj here]
    exact lists k _

variable {ι : Type} [DecidableEq ι] {ino : ι → Dinode} {i : ι}

/-- A name that is not there goes to the same entry, or there is no room for it. -/
theorem dirlink_lists (owns : Owns g d ino) (h : IsDir d (ino i) es.length)
    (lists : Lists (contents d.block (ino i)) es) (nul : 0 ∉ name)
    (missing : Files.lookup name es 0 = none) (inum : Fin n) (small : n ≤ 65536) :
    ∃ room d' ip', dirlink g d (ino i) name (UInt32.ofNat inum) = .ok
        ((Files.addSlot room ⟨inum, name.take dirsiz⟩ es).isSome, d', ip') ∧
      ∃ es', (Files.addSlot room ⟨inum, name.take dirsiz⟩ es).getD es = es' ∧
        IsDir d' ip' es'.length ∧ Lists (contents d'.block ip') es' := by
  have look := dirlookup_lists (g := g) h lists nul
  rw [missing] at look
  obtain ⟨r, d', ip', eq, entered⟩ := dirlink_enters owns h look (UInt32.ofNat inum)
  have slot : first (fun de => inumOf de = 0) (contents d.block (ino i)) es.length 0 =
      es.findIdx? (·.inum = 0) := first_eq fun k lt => by
    rw [(lists k lt).1, decide_eq_decide, Fin.val_eq_zero_iff]
  rw [freeSlot, slot] at entered
  have shows : Shows (⟨inum, name.take dirsiz⟩ : Files.Dirent n)
      (dirent (UInt32.ofNat inum).toUInt16 (strncpy dirsiz name)) := by
    refine ⟨?_, fun _ => ?_⟩
    · have lt := inum.isLt
      rw [inumOf_dirent, UInt32.toNat_toUInt16, UInt32.toNat_ofNat',
        Nat.mod_mod_of_dvd _ (by decide)]
      exact Nat.mod_eq_of_lt (by omega)
    · rw [key_dirent, key_plain nul, take_take, min_self]
  generalize (⟨inum, name.take dirsiz⟩ : Files.Dirent n) = e at shows ⊢
  have sixteen := dirent_length (UInt32.ofNat inum).toUInt16 name
  unfold Files.addSlot
  rw [fillSlot_eq]
  cases found : es.findIdx? (·.inum = 0) with
  | some j =>
    obtain ⟨lt, -⟩ := findIdx?_eq_some_iff_getElem.1 found
    rw [found, Option.getD_some] at entered
    rcases entered.cases with ⟨all, dir, bytes⟩ | ⟨-, last, -⟩
    · have size : (es.set j e).length = max es.length (j + 1) := by
        rw [length_set]
        omega
      refine ⟨true, d', ip', by rw [eq, decide_eq_true all]; rfl, es.set j e, rfl, ?_, ?_⟩
      · rw [size]
        exact dir
      · rw [bytes]
        refine lists.put h.length sixteen (le_of_lt lt) size (fun k => ?_) shows
        grind
    · exact absurd last (ne_of_lt lt)
  | none =>
    rw [found, Option.getD_none] at entered
    rcases entered.cases with ⟨all, dir, bytes⟩ | ⟨not_all, -, dir, bytes⟩
    · have fits := upto_le dir.upto
      rw [dir.size] at fits
      have room : es.length < Files.maxSlots := by
        rw [Files.maxSlots]
        omega
      have size : (es ++ [e]).length = max es.length (es.length + 1) := by
        rw [length_append, length_singleton]
        omega
      refine ⟨true, d', ip', by rw [eq, decide_eq_true all]; simp [room], es ++ [e],
        by simp [room], ?_, ?_⟩
      · rw [size]
        exact dir
      · rw [bytes]
        refine lists.put h.length sixteen (le_refl _) size (fun k => ?_) shows
        grind
    · refine ⟨false, d', ip', by rw [eq, decide_eq_false not_all]; rfl, es, rfl, dir, ?_⟩
      rw [bytes]
      exact lists

end OsProject.Xv6.DirectoryList
