import OsProject.Xv6.Directory

/-! # A directory is a finite map

The names in a directory, cut to 14 bytes and to what is before a NUL, with the
numbers they were linked to. `dirlookup`, `dirlink`, `unlink` and `isdirempty` act
on the map, in every run of links and removals on a directory that was empty. -/
namespace OsProject.Xv6.DirectoryMap
open Lib.Transition Inode BlockOwnership Contents List Option
open Writing FileBytes Directory
open Function (update update_of_ne update_self update_eq_self)

abbrev Name := List UInt8

/-! ## The map of the bytes -/

section map
variable {l p : List UInt8} {count j k : Nat} {m : Name → Option Nat} {nm : Name} {v : Nat}

/-- Entry `j` is in use, with that name and number. -/
structure Has (l : List UInt8) (count j : Nat) (nm : Name) (v : Nat) : Prop where
  lt : j < count
  live : v ≠ 0
  inum : inumOf (entry l j) = v
  name : key (nameOf (entry l j)) = nm

/-- The entries in use are those of the map, with one entry for a name. -/
structure Maps (l : List UInt8) (count : Nat) (m : Name → Option Nat) : Prop where
  length : l.length = 16 * count
  iff : ∀ nm v, m nm = some v ↔ ∃ j, Has l count j nm v
  once : ∀ j j' nm v v', Has l count j nm v → Has l count j' nm v' → j = j'

/-- Another entry in the place of one that is free, or behind the last. -/
theorem has_put (length : l.length = 16 * count) (inside : j ≤ count) (sixteen : p.length = 16) :
    Has (put l (16 * j) p) (max count (j + 1)) k nm v ↔
      (k = j ∧ v ≠ 0 ∧ inumOf p = v ∧ key (nameOf p) = nm) ∨ (k ≠ j ∧ Has l count k nm v) := by
  have le : 16 * j ≤ l.length := by omega
  have at_k : k < max count (j + 1) → entry (put l (16 * j) p) k = if k = j then p
      else entry l k := by
    intro lt
    refine entry_put le sixteen ?_
    rw [put_length le, length, sixteen]
    omega
  constructor
  · rintro ⟨lt, live, inum, name⟩
    rw [at_k lt] at inum name
    by_cases same : k = j
    · rw [if_pos same] at inum name
      exact .inl ⟨same, live, inum, name⟩
    · rw [if_neg same] at inum name
      exact .inr ⟨same, by omega, live, inum, name⟩
  · rintro (⟨same, live, inum, name⟩ | ⟨other, lt, live, inum, name⟩)
    · have here := at_k (by omega)
      rw [if_pos same] at here
      exact ⟨by omega, live, by rw [here]; exact inum, by rw [here]; exact name⟩
    · have there := at_k (by omega)
      rw [if_neg other] at there
      exact ⟨by omega, live, by rw [there]; exact inum, by rw [there]; exact name⟩

theorem put_count (length : l.length = 16 * count) (inside : j ≤ count) (sixteen : p.length = 16) :
    (put l (16 * j) p).length = 16 * max count (j + 1) := by
  rw [put_length (by omega), length, sixteen]
  omega

/-- A new name goes to an entry that is not in use. -/
theorem Maps.link (h : Maps l count m) (inside : j ≤ count)
    (free : j < count → inumOf (entry l j) = 0)
    (sixteen : p.length = 16) (live : inumOf p ≠ 0) (new : m (key (nameOf p)) = none) :
    Maps (put l (16 * j) p) (max count (j + 1)) (update m (key (nameOf p)) (some (inumOf p))) := by
  have unused : ∀ nm v, ¬ Has l count j nm v :=
    fun nm v has => has.live (has.inum.symm.trans (free has.lt))
  have absent : ∀ k v, ¬ Has l count k (key (nameOf p)) v := by
    intro k v has
    have := (h.iff _ _).2 ⟨k, has⟩
    rw [new] at this
    cases this
  refine ⟨put_count h.length inside sixteen, fun nm v => ?_, fun k k' nm v v' has has' => ?_⟩
  · by_cases same : nm = key (nameOf p)
    · subst same
      rw [update_self, Option.some.injEq]
      constructor
      · rintro rfl
        exact ⟨j, (has_put h.length inside sixteen).2 (.inl ⟨rfl, live, rfl, rfl⟩)⟩
      · rintro ⟨k, has⟩
        rcases (has_put h.length inside sixteen).1 has with ⟨-, -, eq, -⟩ | ⟨-, old⟩
        · exact eq
        · exact absurd old (absent k v)
    · rw [update_of_ne same, h.iff]
      constructor
      · rintro ⟨k, has⟩
        refine ⟨k, (has_put h.length inside sixteen).2 (.inr ⟨fun eq => ?_, has⟩)⟩
        exact unused nm v (eq ▸ has)
      · rintro ⟨k, has⟩
        rcases (has_put h.length inside sixteen).1 has with ⟨-, -, -, eq⟩ | ⟨-, old⟩
        · exact absurd eq.symm same
        · exact ⟨k, old⟩
  · rcases (has_put h.length inside sixteen).1 has with ⟨rfl, -, -, eq⟩ | ⟨ne, old⟩
    · rcases (has_put h.length inside sixteen).1 has' with ⟨rfl, -⟩ | ⟨ne', old'⟩
      · rfl
      · exact absurd (eq ▸ old') (absent k' v')
    · rcases (has_put h.length inside sixteen).1 has' with ⟨rfl, -, -, eq⟩ | ⟨ne', old'⟩
      · exact absurd (eq ▸ old) (absent k v)
      · exact h.once k k' nm v v' old old'

/-- The entry of a name is cleared. -/
theorem Maps.unlink (h : Maps l count m) (has : Has l count j nm v) (sixteen : p.length = 16)
    (zero : inumOf p = 0) : Maps (put l (16 * j) p) count (update m nm none) := by
  have inside : j ≤ count := le_of_lt has.lt
  have same_count : max count (j + 1) = count := max_eq_left has.lt
  have iff : ∀ k nm' v', Has (put l (16 * j) p) count k nm' v' ↔ k ≠ j ∧ Has l count k nm' v' := by
    intro k nm' v'
    have all : Has (put l (16 * j) p) _ k nm' v' ↔ _ := has_put h.length inside sixteen
    rw [same_count] at all
    refine all.trans ⟨fun either => ?_, .inr⟩
    rcases either with ⟨-, live, inum, -⟩ | other
    · exact absurd (inum.symm.trans zero) live
    · exact other
  refine ⟨?_, fun nm' v' => ?_, fun k k' nm' v' v'' has1 has2 => ?_⟩
  · rw [put_count h.length inside sixteen, same_count]
  · by_cases same : nm' = nm
    · subst same
      rw [update_self]
      refine ⟨fun none => ?_, fun ⟨k, other⟩ => ?_⟩
      · cases none
      · obtain ⟨ne, old⟩ := (iff k nm' v').1 other
        exact absurd (h.once k j nm' v' v old has) ne
    · rw [update_of_ne same, h.iff]
      constructor
      · rintro ⟨k, old⟩
        refine ⟨k, (iff k nm' v').2 ⟨fun eq => same ?_, old⟩⟩
        subst eq
        exact old.name.symm.trans has.name
      · rintro ⟨k, old⟩
        exact ⟨k, ((iff k nm' v').1 old).2⟩
  · exact h.once k k' nm' v' v'' ((iff k nm' v').1 has1).2 ((iff k' nm' v'').1 has2).2

end map

/-! ## The code on the map -/

theorem dirent_length (inum : UInt16) (name : Name) :
    (dirent inum (strncpy dirsiz name)).length = 16 := by
  rw [dirent, length_cons, length_cons, strncpy_length]
  rfl

theorem inumOf_dirent (inum : UInt16) (name : Name) : inumOf (dirent inum name) = inum.toNat := by
  have := inum.toNat_lt
  simp only [inumOf, dirent, getD_cons_zero, getD_cons_succ, UInt8.toNat_ofNat']
  omega

theorem key_dirent (inum : UInt16) (name : Name) :
    key (nameOf (dirent inum (strncpy dirsiz name))) = key name :=
  upToNul_strncpy dirsiz name

section code
variable {ι : Type} [DecidableEq ι] {g : Super} {d : Disk} {ino : ι → Dinode} {i : ι} {dp : Dinode}
    {count : Nat}
  {m : Name → Option Nat}

/-- `dirlookup` finds the entry of the name, if the map has the name. -/
theorem dirlookup_maps (h : IsDir d dp count) (maps : Maps (contents d.block dp) count m)
    (name : Name) : (m (key name) = none ∧ dirlookup g d dp name = .ok (none, d, dp)) ∨
    ∃ j v, m (key name) = some v ∧ Has (contents d.block dp) count j (key name) v ∧
      dirlookup g d dp name = .ok (some (v, 16 * j), d, dp) := by
  rw [dirlookup_eq h]
  cases found : first (fun de => inumOf de ≠ 0 ∧ namecmp name (nameOf de) = 0) (contents d.block dp)
    count 0 with
  | none =>
    refine .inl ⟨?_, rfl⟩
    rw [first_none] at found
    cases value : m (key name) with
    | none => rfl
    | some v =>
      obtain ⟨j, has⟩ := (maps.iff _ _).1 value
      have unlike := of_decide_eq_false (found j (Nat.zero_le _) has.lt)
      exact absurd ⟨by rw [has.inum]; exact has.live, namecmp_iff.2 has.name.symm⟩ unlike
  | some j =>
    obtain ⟨-, lt, like⟩ := first_some found
    obtain ⟨live, same⟩ := of_decide_eq_true like
    have has : Has (contents d.block dp) count j (key name)
      (inumOf (entry (contents d.block dp) j)) :=
      ⟨lt, live, rfl, (namecmp_iff.1 same).symm⟩
    exact .inr ⟨j, _, (maps.iff _ _).2 ⟨j, has⟩, has, rfl⟩

/-- A name that is there is not linked again. -/
theorem dirlink_exists (h : IsDir d dp count) (maps : Maps (contents d.block dp) count m) {name}
    (there : m (key name) ≠ none) (inum : UInt32) :
    dirlink g d dp name inum = .ok (false, d, dp) := by
  rcases dirlookup_maps (g := g) h maps name with ⟨none, -⟩ | ⟨j, v, -, -, eq⟩
  · exact absurd none there
  · rw [dirlink, eq]
    rfl

/-- A directory with its map, in a file system whose blocks are accounted for. -/
structure Good (g : Super) (s : Volume ι) (i : ι) (count : Nat) (m : Name → Option Nat) : Prop where
  owns : Owns g s.disk s.ino
  dir : IsDir s.disk (s.ino i) count
  maps : Maps (s.shows i) count m

/-- The volume with another disk and another inode `i`. -/
def Volume.set (s : Volume ι) (i : ι) (d : Disk) (ip : Dinode) : Volume ι := ⟨d, update s.ino i ip⟩

theorem shows_set {s d ip} : (Volume.set s i d ip).shows i = contents d.block ip := by
  simp only [Volume.set, Volume.shows, update_self]

/-- The entry that `dirlink` writes to. -/
def freeSlot (l : List UInt8) (count : Nat) : Nat :=
  (first (fun de => inumOf de = 0) l count 0).getD count

theorem freeSlot_le (l : List UInt8) (count : Nat) : freeSlot l count ≤ count ∧
    (freeSlot l count < count → inumOf (entry l (freeSlot l count)) = 0) := by
  unfold freeSlot
  cases found : first (fun de => inumOf de = 0) l count 0 with
  | none => exact ⟨le_refl _, fun lt => absurd lt (lt_irrefl _)⟩
  | some k =>
    obtain ⟨-, lt, free⟩ := first_some found
    exact ⟨le_of_lt lt, fun _ => of_decide_eq_true free⟩

/-- `dirlink` of a name that `dirlookup` does not find. -/
theorem dirlink_enters (owns : Owns g d ino) (h : IsDir d (ino i) count) {name}
    (look : dirlookup g d (ino i) name = .ok (none, d, ino i)) (inum : UInt32) :
    ∃ r d' ip', dirlink g d (ino i) name inum = .ok (decide (r = some 16), d', ip') ∧
      Entered g d ino i count (freeSlot (contents d.block (ino i)) count)
        (dirent inum.toUInt16 (strncpy dirsiz name)) r d' ip' := by
  have scanned := scan_eq (g := g) h .dirlinkRead (fun de => inumOf de = 0) (count + 1) 0 (by omega)
  rw [mul_zero, Nat.zero_max] at scanned
  obtain ⟨r, d', ip', write, entered⟩ :=
    writei_entry owns h (freeSlot_le ..).1 (dirent_length inum.toUInt16 name)
  refine ⟨r, d', ip', ?_, entered⟩
  rw [dirlink, look]
  simp only [bind, Except.bind, pure, Except.pure]
  rw [isSome_none, if_neg Bool.false_ne_true, h.rounds_eq, scanned]
  dsimp only
  rw [← freeSlot, write]

/-- A name that is not there is linked in an entry that was free, or the directory stays as it
is. -/
theorem dirlink_new {s} (h : Good g s i count m) {name inum} (new : m (key name) = none)
    (pos : 0 < inum.toNat) (small : inum.toNat < 65536) :
    ∃ r d' ip', dirlink g s.disk (s.ino i) name inum = .ok (r, d', ip') ∧
      if r then ∃ j, j ≤ count ∧ (j < count → inumOf (entry (s.shows i) j) = 0) ∧
        Good g (Volume.set s i d' ip') i (max count (j + 1))
          (update m (key name) (some inum.toNat)) ∧
        (Volume.set s i d' ip').shows i = put (s.shows i) (16 * j)
        (dirent inum.toUInt16 (strncpy dirsiz name))
      else Good g (Volume.set s i d' ip') i count m ∧ (Volume.set s i d' ip').shows i =
        s.shows i := by
  have value : inumOf (dirent inum.toUInt16 (strncpy dirsiz name)) = inum.toNat := by
    rw [inumOf_dirent, UInt32.toNat_toUInt16]
    omega
  have like := key_dirent inum.toUInt16 name
  have look : dirlookup g s.disk (s.ino i) name = .ok (none, s.disk, s.ino i) := by
    rcases dirlookup_maps (g := g) h.dir h.maps name with ⟨-, eq⟩ | ⟨j, v, there, -⟩
    · exact eq
    · rw [new] at there
      cases there
  obtain ⟨r, d', ip', eq, entered⟩ := dirlink_enters h.owns h.dir look inum
  refine ⟨_, d', ip', eq, ?_⟩
  have self : (Volume.set s i d' ip').ino i = ip' := update_self ..
  rcases entered.cases with ⟨all, dir, shows⟩ | ⟨not_all, -, dir, shows⟩
  · obtain ⟨inside, free⟩ := freeSlot_le (s.shows i) count
    rw [decide_eq_true all, if_pos rfl]
    refine ⟨_, inside, free, ⟨entered.owns, by rw [self]; exact dir, ?_⟩, shows_set.trans shows⟩
    rw [shows_set, shows, ← like, ← value]
    exact h.maps.link inside free (dirent_length ..) (by rw [value]; omega)
      (by rw [like]; exact new)
  · rw [decide_eq_false not_all, if_neg Bool.false_ne_true]
    refine ⟨⟨entered.owns, by rw [self]; exact dir, ?_⟩, shows_set.trans shows⟩
    rw [shows_set, shows]
    exact h.maps

/-- The names that stay. -/
def Stays (nm : Name) : Prop := nm = dot ∨ nm = dotdot

/-- A name that is there is removed, unless it is one of the two, or of a directory that is not
empty. -/
theorem unlink_maps {s} (h : Good g s i count m) (name : Name) (empty : Bool) :
    ∃ r d' ip', unlink g s.disk (s.ino i) name empty = .ok (r, d', ip') ∧
      (r = true ↔ empty = true ∧ m (key name) ≠ none ∧ ¬ Stays (key name)) ∧
      if r then ∃ j v, Has (s.shows i) count j (key name) v ∧
        Good g (Volume.set s i d' ip') i count (update m (key name) none) ∧
        (Volume.set s i d' ip').shows i = put (s.shows i) (16 * j) (List.replicate 16 0)
      else d' = s.disk ∧ ip' = s.ino i := by
  have dots : (namecmp name dot = 0 ∨ namecmp name dotdot = 0) ↔ Stays (key name) := by
    rw [namecmp_iff, namecmp_iff]
    rfl
  unfold unlink
  split
  · rename_i stays
    exact ⟨false, _, _, rfl, ⟨fun no => (by cases no), fun all => absurd (dots.1 stays) all.2.2⟩,
      rfl, rfl⟩
  rename_i plain
  rw [dots] at plain
  rcases dirlookup_maps (g := g) h.dir h.maps name with ⟨none, look⟩ | ⟨j, v, value, has, look⟩
  · rw [look]
    exact ⟨false, _, _, rfl, ⟨fun no => (by cases no), fun all => absurd none all.2.1⟩, rfl, rfl⟩
  rw [look]
  simp only [bind, Except.bind, pure, Except.pure]
  cases empty with
  | false => exact ⟨false, _, _, rfl, ⟨fun no => (by cases no), fun all => all.1⟩, rfl, rfl⟩
  | true =>
    obtain ⟨r, d', ip', write, entered⟩ :=
      writei_entry (p := List.replicate 16 0) h.owns h.dir (le_of_lt has.lt) length_replicate
    have self : (Volume.set s i d' ip').ino i = ip' := update_self ..
    have there : m (key name) ≠ none := by
      rw [value]
      exact some_ne_none v
    rw [write]
    rcases entered.cases with ⟨all, dir, shows⟩ | ⟨-, last, -⟩
    · refine ⟨true, d', ip', ?_, ⟨fun _ => ⟨rfl, there, plain⟩, fun _ => rfl⟩, j, v, has,
        ⟨entered.owns, ?_, ?_⟩, shows_set.trans shows⟩
      · dsimp only
        rw [if_neg (not_not.2 all)]
        rfl
      · rw [self, ← max_eq_left (Nat.succ_le_of_lt has.lt)]
        exact dir
      · rw [shows_set, shows]
        exact h.maps.unlink has length_replicate rfl
    · exact absurd last (ne_of_lt has.lt)

/-- `isdirempty` finds no entry behind the first two. -/
theorem isdirempty_maps (h : IsDir d dp count) : ∃ r, isdirempty g d dp = .ok (r, d, dp) ∧
    (r = true ↔ ∀ j nm v, Has (contents d.block dp) count j nm v → j < 2) := by
  refine ⟨_, isdirempty_eq h, ?_⟩
  rw [isNone_iff_eq_none, first_none]
  constructor
  · intro all j nm v has
    by_contra late
    have zero := of_decide_eq_false (all j (by omega) has.lt)
    rw [not_not, has.inum] at zero
    exact has.live zero
  · intro all j late lt
    refine decide_eq_false fun live => ?_
    have := all j _ _ ⟨lt, live, rfl, rfl⟩
    omega

end code

/-! ## Runs -/

/-- What happens to the directory: a link or a removal, with its result, or
something that leaves it alone. -/
inductive Op where
  | link (name : Name) (inum : UInt32) (made : Bool)
  | unlink (name : Name) (empty removed : Bool)
  | other

section runs
variable {ι : Type} [DecidableEq ι] {g : Super} {i : ι} {s s' : Volume ι}

/-- One operation on directory `i`. The numbers are those of inodes, which fit in 16 bits. -/
inductive Step (g : Super) (i : ι) : Volume ι → Op → Volume ι → Prop
  | link {s : Volume ι} {name : Name} {inum : UInt32} {made : Bool} {d : Disk} {ip : Dinode} :
    0 < inum.toNat → inum.toNat < 65536 → dirlink g s.disk (s.ino i) name inum = .ok (made, d, ip) →
    Step g i s (.link name inum made) (Volume.set s i d ip)
  | unlink {s : Volume ι} {name : Name} {empty removed : Bool} {d : Disk} {ip : Dinode} :
    unlink g s.disk (s.ino i) name empty = .ok (removed, d, ip) →
    Step g i s (.unlink name empty removed) (Volume.set s i d ip)
  | other {s s' : Volume ι} : Owns g s'.disk s'.ino → s'.ino i = s.ino i →
      Untouched s.disk.block s'.disk.block (s.ino i) →
    Step g i s .other s'

/-- The map after a history, the newest first. -/
def linked : List Op → Name → Option Nat
  | [] => fun _ => none
  | .link name inum made :: t =>
    if made then update (linked t) (key name) (some inum.toNat) else linked t
  | .unlink name _ removed :: t => if removed then update (linked t) (key name) none else linked t
  | .other :: t => linked t

/-- An inode that `ialloc` has made for a directory. -/
structure Fresh (g : Super) (s : Volume ι) (i : ι) : Prop where
  owns : Owns g s.disk s.ino
  type : (s.ino i).type = tDir
  size : (s.ino i).size = 0

omit [DecidableEq ι] in
theorem Fresh.good (h : Fresh g s i) : Good g s i 0 (linked []) := by
  have size : (s.ino i).size.toNat = 0 := by
    rw [h.size]
    rfl
  have nil : s.shows i = [] := by
    rw [Volume.shows, contents, size]
    rfl
  refine ⟨h.owns, ⟨h.type, fun bn lt => absurd lt (by omega), size⟩, ?_, fun nm v => ?_,
    fun j j' nm v v' has => ?_⟩
  · rw [nil]
    rfl
  · refine ⟨fun none => ?_, fun some => ?_⟩
    · cases none
    · obtain ⟨j, has⟩ := some
      exact absurd has.lt (Nat.not_lt_zero _)
  · exact absurd has.lt (Nat.not_lt_zero _)

/-- What an operation does to the entries. -/
structure Effect (l : List UInt8) (count : Nat) (op : Op) (l' : List UInt8) (count' : Nat) :
    Prop where
  stays : ∀ j nm v, Stays nm → Has l count j nm v → Has l' count' j nm v
  made : ∀ name inum, op = .link name inum true → ∃ j, j ≤ count ∧ (∀ nm v, ¬ Has l count j nm v) ∧
    count' = max count (j + 1) ∧ Has l' count' j (key name) inum.toNat
  other : op = .other → count' = count ∧ l' = l

theorem Effect.same {l count op} (no : ∀ name inum, op ≠ .link name inum true) :
    Effect l count op l count :=
  ⟨fun _ _ _ _ has => has, fun name inum eq => absurd eq (no name inum), fun _ => ⟨rfl, rfl⟩⟩

/-- Every operation does to the directory what it does to the map. -/
theorem step_good {t op count} (h : Good g s i count (linked t)) (step : Step g i s op s') :
    ∃ count', Good g s' i count' (linked (op :: t)) ∧
      Effect (s.shows i) count op (s'.shows i) count' := by
  cases step with
  | @link name inum made d ip pos small eq =>
    by_cases new : linked t (key name) = none
    · obtain ⟨made', d', ip', eq', rest⟩ := dirlink_new h new pos small
      obtain ⟨rfl, rest'⟩ := Prod.mk.inj (Except.ok.inj (eq.symm.trans eq'))
      cases rest'
      cases made with
      | true =>
        obtain ⟨j, inside, free, good, shows⟩ := rest
        have unused : ∀ nm v, ¬ Has (s.shows i) count j nm v := fun nm v has =>
          has.live (has.inum.symm.trans (free has.lt))
        have has_iff : ∀ k nm v,
          Has (put (s.shows i) (16 * j) (dirent inum.toUInt16 (strncpy dirsiz name))) _ k nm v ↔
          _ :=
          fun k nm v => has_put h.maps.length inside (dirent_length ..)
        refine ⟨_, good, fun k nm v _ has => ?_, fun name' inum' eq => ?_, fun eq => (by cases eq)⟩
        · rw [shows, has_iff]
          refine .inr ⟨?_, has⟩
          rintro rfl
          exact unused nm v has
        · cases eq
          refine ⟨j, inside, unused, rfl, ?_⟩
          rw [shows, has_iff]
          refine .inl ⟨rfl, by omega, ?_, key_dirent ..⟩
          rw [inumOf_dirent, UInt32.toNat_toUInt16]
          omega
      | false =>
        refine ⟨count, rest.1, ?_⟩
        rw [rest.2]
        exact .same fun _ _ eq => by cases eq
    · have same := dirlink_exists (g := g) h.dir h.maps new inum
      obtain ⟨rfl, rest⟩ := Prod.mk.inj (Except.ok.inj (eq.symm.trans same))
      cases rest
      rw [Volume.set, update_eq_self]
      exact ⟨count, h, .same fun _ _ eq => by cases eq⟩
  | @unlink name empty removed d ip eq =>
    obtain ⟨removed', d', ip', eq', when, rest⟩ := unlink_maps h name empty
    obtain ⟨rfl, rest'⟩ := Prod.mk.inj (Except.ok.inj (eq.symm.trans eq'))
    cases rest'
    cases removed with
    | true =>
      obtain ⟨j, v, has, good, shows⟩ := rest
      refine ⟨count, good, fun k nm v' stays other => ?_, fun _ _ eq => (by cases eq),
        fun eq => (by cases eq)⟩
      have ne : k ≠ j := by
        rintro rfl
        exact (when.1 rfl).2.2 (has.name ▸ other.name.symm ▸ stays)
      have all : Has (put (s.shows i) (16 * j) (List.replicate 16 0)) _ k nm v' :=
        (has_put h.maps.length (le_of_lt has.lt) length_replicate).2 (.inr ⟨ne, other⟩)
      rw [max_eq_left (Nat.succ_le_of_lt has.lt)] at all
      rw [shows]
      exact all
    | false =>
      obtain ⟨rfl, rfl⟩ := rest
      rw [Volume.set, update_eq_self]
      exact ⟨count, h, .same fun _ _ eq => by cases eq⟩
  | other owns node untouched =>
    obtain ⟨same, upto⟩ := untouched_contents untouched h.dir.upto
    have shows : s'.shows i = s.shows i := by
      rw [Volume.shows, node]
      exact same
    refine ⟨count, ⟨owns, ?_, ?_⟩, ?_⟩
    · rw [node]
      exact ⟨h.dir.type, upto, h.dir.size⟩
    · rw [shows]
      exact h.maps
    · rw [shows]
      exact .same fun _ _ eq => by cases eq

/-! ### `.` and `..` -/

/-- The operations on the directory itself. -/
def Op.acts : Op → Bool
  | .other => false
  | _ => true

/-- The first two operations are those of `create`. -/
def Created (own parent : UInt32) (t : List Op) : Prop :=
  ∃ more, t.filter Op.acts = more ++ [.link dotdot parent true, .link dot own true]

/-- Where the two entries are, at every stage of `create` and after it. -/
structure Dots (own parent : UInt32) (t : List Op) (l : List UInt8) (count : Nat) : Prop where
  none : t.filter Op.acts = [] → count = 0
  one : t.filter Op.acts = [.link dot own true] → count = 1 ∧ Has l count 0 dot own.toNat
  both : Created own parent t → Has l count 0 dot own.toNat ∧ Has l count 1 dotdot parent.toNat

theorem stays_dot : Stays dot := .inl rfl
theorem stays_dotdot : Stays dotdot := .inr rfl

omit [DecidableEq ι] in
theorem step_dots {own parent t op count count'}
    (effect : Effect (s.shows i) count op (s'.shows i) count')
    (dots : Dots own parent t (s.shows i) count) :
    Dots own parent (op :: t) (s'.shows i) count' := by
  cases acts : op.acts with
  | false =>
    obtain rfl : op = .other := by
      cases op with
      | other => rfl
      | link => cases acts
      | unlink => cases acts
    obtain ⟨eq, shows⟩ := effect.other rfl
    rw [eq, shows]
    exact ⟨dots.none, dots.one, dots.both⟩
  | true =>
    have filter : (op :: t).filter Op.acts = op :: t.filter Op.acts := filter_cons_of_pos acts
    refine ⟨fun nil => ?_, fun one => ?_, fun ⟨more, all⟩ => ?_⟩
    · rw [filter] at nil
      cases nil
    · rw [filter] at one
      obtain ⟨rfl, nil⟩ := List.cons.inj one
      have zero := dots.none nil
      subst zero
      obtain ⟨j, le, -, rfl, has⟩ := effect.made dot own rfl
      obtain rfl : j = 0 := by omega
      exact ⟨rfl, has⟩
    · rw [filter] at all
      cases more with
      | nil =>
        obtain ⟨rfl, one⟩ := List.cons.inj all
        obtain ⟨rfl, first⟩ := dots.one one
        obtain ⟨j, le, unused, rfl, has⟩ := effect.made dotdot parent rfl
        obtain rfl : j = 1 := by
          by_contra other
          obtain rfl : j = 0 := by omega
          exact unused dot own.toNat first
        exact ⟨effect.stays 0 dot _ stays_dot first, has⟩
      | cons _ more =>
        obtain ⟨first, second⟩ := dots.both ⟨more, (List.cons.inj all).2⟩
        exact ⟨effect.stays 0 dot _ stays_dot first, effect.stays 1 dotdot _ stays_dotdot second⟩

theorem run_good {t} (fresh : Fresh g s i) (run : Run (Step g i) s t s') (own parent : UInt32) :
    ∃ count, Good g s' i count (linked t) ∧ Dots own parent t (s'.shows i) count := by
  refine run.invariant (I := fun t s' => ∃ count, Good g s' i count (linked t) ∧
    Dots own parent t (s'.shows i) count) ?_ ?_
  · refine ⟨0, fresh.good, fun _ => rfl, fun one => ?_, fun ⟨more, all⟩ => ?_⟩
    · cases one
    · cases more with
      | nil => cases all
      | cons => cases all
  · intro t s1 op s2 _ ⟨count, good, dots⟩ step
    obtain ⟨count', good', effect⟩ := step_good good step
    exact ⟨count', good', step_dots effect dots⟩

/-- How many entries the directory has. -/
def entries (s : Volume ι) (i : ι) : Nat := (s.ino i).size.toNat / 16

/-- Directory `i` is the finite map of its history. -/
structure IsMap (g : Super) (s : Volume ι) (i : ι) (t : List Op) : Prop where
  once : ∀ j j' nm v v', Has (s.shows i) (entries s i) j nm v →
    Has (s.shows i) (entries s i) j' nm v' → j = j'
  absent : ∀ name, linked t (key name) = none → dirlookup g s.disk (s.ino i) name =
    .ok (none, s.disk, s.ino i)
  present : ∀ name v, linked t (key name) = some v →
    ∃ j, Has (s.shows i) (entries s i) j (key name) v ∧ dirlookup g s.disk (s.ino i) name =
    .ok (some (v, 16 * j), s.disk, s.ino i)
  refuses : ∀ name inum, linked t (key name) ≠ none → dirlink g s.disk (s.ino i) name inum =
    .ok (false, s.disk, s.ino i)
  links : ∀ name inum, 0 < inum.toNat → inum.toNat < 65536 → ∃ made d ip,
    dirlink g s.disk (s.ino i) name inum = .ok (made, d, ip) ∧
    (made = false → contents d.block ip = s.shows i)
  removes : ∀ name empty, ∃ removed d ip, unlink g s.disk (s.ino i) name empty =
    .ok (removed, d, ip) ∧ (removed = false → contents d.block ip = s.shows i) ∧
    (removed = true ↔ empty = true ∧ linked t (key name) ≠ none ∧ ¬ Stays (key name))

/-- `.` and `..` are in the first two entries, and `isdirempty` looks for others. -/
structure HasDots (g : Super) (s : Volume ι) (i : ι) (t : List Op) (own parent : UInt32) :
    Prop where
  dot : Has (s.shows i) (entries s i) 0 dot own.toNat
  dotdot : Has (s.shows i) (entries s i) 1 dotdot parent.toNat
  empty : ∃ r, isdirempty g s.disk (s.ino i) = .ok (r, s.disk, s.ino i) ∧
    (r = true ↔ ∀ nm, linked t nm ≠ none → Stays nm)

omit [DecidableEq ι] in
theorem entries_eq {m count} (h : Good g s i count m) : entries s i = count := by
  rw [entries, h.dir.size, Nat.mul_div_cancel_left _ (by decide)]

theorem good_isMap {t count} (h : Good g s i count (linked t)) : IsMap g s i t := by
  have same := entries_eq h
  refine ⟨?_, fun name none => ?_, fun name v value => ?_,
    fun name inum there => dirlink_exists h.dir h.maps there inum, fun name inum pos small =>
    ?_, fun name empty => ?_⟩
  · rw [same]
    exact h.maps.once
  · rcases dirlookup_maps (g := g) h.dir h.maps name with ⟨-, eq⟩ | ⟨j, v, value, -⟩
    · exact eq
    · rw [none] at value
      cases value
  · rcases dirlookup_maps (g := g) h.dir h.maps name with ⟨none, -⟩ | ⟨j, v', value', has, eq⟩
    · rw [none] at value
      cases value
    · obtain rfl : v' = v := Option.some.inj (value'.symm.trans value)
      rw [same]
      exact ⟨j, has, eq⟩
  · by_cases new : linked t (key name) = none
    · obtain ⟨made, d, ip, eq, rest⟩ := dirlink_new h new pos small
      refine ⟨made, d, ip, eq, fun failed => ?_⟩
      rw [failed, if_neg Bool.false_ne_true] at rest
      exact shows_set.symm.trans rest.2
    · exact ⟨false, _, _, dirlink_exists h.dir h.maps new inum, fun _ => rfl⟩
  · obtain ⟨removed, d, ip, eq, when, rest⟩ := unlink_maps h name empty
    refine ⟨removed, d, ip, eq, fun failed => ?_, when⟩
    rw [failed, if_neg Bool.false_ne_true] at rest
    obtain ⟨rfl, rfl⟩ := rest
    rfl

omit [DecidableEq ι] in
theorem good_hasDots {t count own parent} (h : Good g s i count (linked t))
    (first : Has (s.shows i) count 0 dot own.toNat)
    (second : Has (s.shows i) count 1 dotdot parent.toNat) : HasDots g s i t own parent := by
  obtain ⟨r, eq, early_only⟩ := isdirempty_maps (g := g) h.dir
  refine ⟨?_, ?_, r, eq, early_only.trans ⟨fun all nm there => ?_, fun all j nm v has => ?_⟩⟩
  · rw [entries_eq h]
    exact first
  · rw [entries_eq h]
    exact second
  · obtain ⟨v, value⟩ := ne_none_iff_exists'.1 there
    obtain ⟨j, has⟩ := (h.maps.iff nm v).1 value
    have early := all j nm v has
    rcases (show j = 0 ∨ j = 1 by omega) with rfl | rfl
    · exact .inl (has.name.symm.trans first.name)
    · exact .inr (has.name.symm.trans second.name)
  · have there : linked t nm ≠ none := by
      rw [(h.maps.iff nm v).2 ⟨j, has⟩]
      exact some_ne_none v
    rcases all nm there with rfl | rfl
    · have := h.maps.once j 0 dot v own.toNat has first
      omega
    · have := h.maps.once j 1 dotdot v parent.toNat has second
      omega

/-- In every run of links and removals on a directory that was empty, it is the
finite map of what was linked and not removed since. If the run starts with the two
links of `create`, they stay where they are, and `isdirempty` tells if there are others. -/
theorem directory_is_finite_map {t : List Op} (fresh : Fresh g s i) (run : Run (Step g i) s t s') :
    IsMap g s' i t ∧ ∀ own parent, Created own parent t → HasDots g s' i t own parent := by
  obtain ⟨_, good, -⟩ := run_good fresh run 0 0
  refine ⟨good_isMap good, fun own parent created => ?_⟩
  obtain ⟨_, good, dots⟩ := run_good fresh run own parent
  obtain ⟨first, second⟩ := dots.both created
  exact good_hasDots good first second

end runs

/-- An inode for a directory, and `create`'s two entries in it. -/
def newDir : Volume Unit := ⟨oneFile.disk, fun _ => { Dinode.zero with type := tDir }⟩

theorem newDir_fresh : Fresh sampleSuper newDir () := ⟨bare_owns tDir, rfl, rfl⟩

def linkIn (s : Volume Unit) (name : Name) (inum : UInt32) : Option (Volume Unit) :=
  (dirlink sampleSuper s.disk (s.ino ()) name inum).toOption.bind fun r =>
    if r.1 then some (Volume.set s () r.2.1 r.2.2) else none

theorem step_linkIn {s s' name inum} (pos : 0 < inum.toNat)
    (small : inum.toNat < 65536) (eq : linkIn s name inum = some s') :
    Step sampleSuper () s (.link name inum true) s' := by
  unfold linkIn at eq
  cases call : dirlink sampleSuper s.disk (s.ino ()) name inum with
  | error e =>
    rw [call] at eq
    cases eq
  | ok r =>
    rw [call] at eq
    obtain ⟨made, d, ip⟩ := r
    cases made with
    | false => cases eq
    | true =>
      cases eq
      exact .link pos small call

/-- A directory that `create` has made as inode 2 in the root, with an entry for inode 3. -/
theorem created_directory : ∃ s, Run (Step sampleSuper ()) newDir
      [.link [120] 3 true, .link dotdot 1 true, .link dot 2 true] s ∧
    IsMap sampleSuper s () [.link [120] 3 true, .link dotdot 1 true, .link dot 2 true] ∧
    HasDots sampleSuper s () [.link [120] 3 true, .link dotdot 1 true, .link dot 2 true] 2 1 := by
  have links : ((linkIn newDir dot 2).bind fun s => (linkIn s dotdot 1).bind fun s =>
      linkIn s [120] 3).isSome = true := by
    decide +kernel
  obtain ⟨s3, eq⟩ := isSome_iff_exists.1 links
  obtain ⟨s1, first, eq⟩ := bind_eq_some_iff.1 eq
  obtain ⟨s2, second, third⟩ := bind_eq_some_iff.1 eq
  have run : Run (Step sampleSuper ()) newDir [.link [120] 3 true, .link dotdot 1 true,
    .link dot 2 true] s3 :=
    .cons (.cons (.cons .nil (step_linkIn (by decide) (by decide) first))
    (step_linkIn (by decide) (by decide) second))
      (step_linkIn (by decide) (by decide) third)
  obtain ⟨map, dots⟩ := directory_is_finite_map newDir_fresh run
  exact ⟨s3, run, map, dots 2 1 ⟨[.link [120] 3 true], rfl⟩⟩

end OsProject.Xv6.DirectoryMap
