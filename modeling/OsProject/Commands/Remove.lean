import Mathlib.Logic.Relation
import OsProject.Lib.Paths

/-! # custom_rm

The recursion of `remove_recursive` over a POSIX tree. It works on names, so the paths it builds
can leave its target through a link or when they are cut. -/
namespace OsProject.Commands.Remove
open Lib.Paths List Option
open Relation (TransGen)
open Option (ite_none_right_eq_some ite_none_left_eq_some)

/-- What the system decides at a call: whether it succeeds, and for `opendir` what `readdir` will
return, in which order and whether to the end. -/
structure Choice where
  ok : Bool
  reads : List Name → List Name
  subperm : ∀ names, (reads names).Subperm names

/-- The entries that are gone, and the choices to come. -/
structure State where
  gone : List Entry
  next : Nat → Choice

def State.skip (s : State) : State := { s with next := fun i => s.next (i + 1) }

def State.drop (s : State) (e : Entry) : State := { s.skip with gone := e :: s.gone }

inductive Exit where
  | success | failure
  deriving DecidableEq

/-- `MAX_PATH`. -/
def maxPath : Nat := 1024

/-- `snprintf(filepath, sizeof(filepath), "%s/%s", path, name)`. -/
def filepath (path : PathName) (name : Name) : PathName :=
  (path ++ slash :: name).take (maxPath - 1)

section program
variable (t : Tree) (links : Nat)

/-- The file of a path, if it is a directory. -/
def dirOf (gone : List Entry) (path : PathName) : Option Nat :=
  (t.resolve gone links path).filter fun i => (t.node i).isDir

/-- `stat` and `S_ISDIR`; no directory when `stat` fails. -/
def isDirectory (path : PathName) (s : State) : Bool × State :=
  ((s.next 0).ok && (dirOf t links s.gone path).isSome, s.skip)

/-- `opendir`, with what `readdir` will return. -/
def opendir (path : PathName) (s : State) : Option (List Name) × State :=
  (if (s.next 0).ok then
    (dirOf t links s.gone path).map fun d =>
      (s.next 0).reads ([dot] :: [dot, dot] :: t.names s.gone d)
  else none, s.skip)

def unlink (path : PathName) (s : State) : Int × State :=
  match t.entryOf s.gone links path with
  | some (e, i) => if (s.next 0).ok ∧ (t.node i).isDir = false then (0, s.drop e) else (-1, s.skip)
  | none => (-1, s.skip)

def rmdir (path : PathName) (s : State) : Int × State :=
  match t.entryOf s.gone links (Tree.strip path) with
  | some (e, i) =>
    if (s.next 0).ok ∧ (t.node i).isDir = true ∧ t.names s.gone i = [] then (0, s.drop e)
    else (-1, s.skip)
  | none => (-1, s.skip)

/-- Go down if it is a directory, otherwise `unlink`. -/
def removeEntry (remove : PathName → State → Int × State) (file : PathName) (s : State) :
    Int × State :=
  match isDirectory t links file s with
  | (true, s) => remove file s
  | (false, s) => unlink t links file s

/-- The loop over the entries; false where it returns -1. -/
def entryLoop (remove : PathName → State → Int × State) (path : PathName) :
    List Name → State → Bool × State
  | [], s => (true, s)
  | name :: names, s =>
    if name = [dot] ∨ name = [dot, dot] then entryLoop remove path names s
    else
      match removeEntry t links remove (filepath path name) s with
      | (r, s) => if r < 0 then (false, s) else entryLoop remove path names s

/-- With `fds` descriptors left: each call keeps its directory open while it goes down. -/
def removeRecursive : Nat → PathName → State → Int × State
  | 0, _, s => (-1, s)
  | fds + 1, path, s =>
    match opendir t links path s with
    | (none, s) => (-1, s)
    | (some names, s) =>
      match entryLoop t links (removeRecursive fds) path names s with
      | (false, s) => (-1, s)
      | (true, s) => rmdir t links path s

/-- `-r`. -/
def flagR : PathName := [45, 114]

/-- One argument. -/
def removeTarget (fds : Nat) (recursive : Bool) (target : PathName) (s : State) : State :=
  if target = flagR then s
  else
    match isDirectory t links target s with
    | (true, s) => if recursive then (removeRecursive t links fds target s).2 else s
    | (false, s) => (unlink t links target s).2

/-- `main`, without `argv[0]`. -/
def main (fds : Nat) (argv : List PathName) (s : State) : Exit × State :=
  if argv.all fun a => a = flagR then (.failure, s)
  else (.success,
    argv.foldl (fun s target => removeTarget t links fds (argv.contains flagR) target s) s)

end program

/-! ## What it is for -/

/-- The directory and the directories below it. -/
inductive Within (t : Tree) (top : Nat) : Nat → Prop
  | self : Within t top top
  | child {d i : Nat} {n : Name} : Within t top d → (n, i) ∈ (t.node d).entries →
      (t.node i).isDir = true → Within t top i

/-- An entry of the directory itself or of what is below, or the one that names it. -/
def Inside (t : Tree) (top : Nat) (e : Entry) : Prop :=
  Within t top e.1 ∨ (e.2, top) ∈ (t.node e.1).entries

/-- The recursion goes from a directory to the path built for one of its entries. -/
def Builds (t : Tree) (links : Nat) (p q : PathName) : Prop :=
  ∃ d, dirOf t links [] p = some d ∧ ∃ n ∈ t.names [] d, q = filepath p n

/-- No path that the recursion builds names a file, a link or an empty directory outside. -/
structure Harmless (t : Tree) (links : Nat) (path : PathName) (top : Nat) : Prop where
  file : ∀ q, TransGen (Builds t links) path q → ∀ e i, t.entryOf [] links q = some (e, i) →
    (t.node i).isDir = false → Inside t top e
  empty : ∀ q, TransGen (Builds t links) path q → ∀ e i, t.entryOf [] links (Tree.strip q) =
    some (e, i) → (t.node i).isDir = true → t.names [] i = [] → Inside t top e

/-! ## What a call does to the tree -/

variable {t : Tree} {links top : Nat} {path p q : PathName} {gone : List Entry}

theorem dirOf_some {i} : dirOf t links gone p = some i ↔ t.resolve gone links p = some i ∧
    (t.node i).isDir = true := by
  unfold dirOf
  rw [filter_eq_some_iff]

theorem unlink_cases (t : Tree) (links : Nat) (q : PathName) (s : State) :
    (unlink t links q s).2.gone = s.gone ∨
    ∃ e i, t.entryOf s.gone links q = some (e, i) ∧ (t.node i).isDir = false ∧
      (unlink t links q s).2.gone = e :: s.gone := by
  unfold unlink
  split
  · rename_i e i found
    split
    · rename_i file
      exact .inr ⟨e, i, found, file.2, rfl⟩
    · exact .inl rfl
  · exact .inl rfl

theorem rmdir_cases (t : Tree) (links : Nat) (q : PathName) (s : State) :
    (rmdir t links q s).2.gone = s.gone ∨
    ∃ e i, t.entryOf s.gone links (Tree.strip q) = some (e, i) ∧ (t.node i).isDir = true ∧
      t.names s.gone i = [] ∧ (rmdir t links q s).2.gone = e :: s.gone := by
  unfold rmdir
  split
  · rename_i e i found
    split
    · rename_i dir
      exact .inr ⟨e, i, found, dir.2.1, dir.2.2, rfl⟩
    · exact .inl rfl
  · exact .inl rfl

/-- What each entry keeps, the loop keeps. -/
theorem entryLoop_keeps {I : List Entry → Prop} {remove : PathName → State → Int × State}
    {names : List Name} {s : State}
    (down : ∀ n ∈ names, ¬ Special n → ∀ s, I s.gone →
      (dirOf t links s.gone (filepath p n)).isSome = true → I (remove (filepath p n) s).2.gone)
    (file : ∀ n ∈ names, ¬ Special n → ∀ s, I s.gone → I (unlink t links (filepath p n) s).2.gone)
    (real : ∀ n ∈ names, n ≠ []) (start : I s.gone) :
    I (entryLoop t links remove p names s).2.gone := by
  induction names generalizing s with
  | nil => exact start
  | cons n names ih =>
    have tail : ∀ s, I s.gone → I (entryLoop t links remove p names s).2.gone := fun s start =>
      ih (fun m mem => down m (mem_cons_of_mem n mem)) (fun m mem => file m (mem_cons_of_mem n mem))
        (fun m mem => real m (mem_cons_of_mem n mem)) start
    unfold entryLoop
    split
    · exact tail s start
    · rename_i dots
      have entry : ¬ Special n := fun sp => sp.elim (real n mem_cons_self) dots
      have step : I (removeEntry t links remove (filepath p n) s).2.gone := by
        unfold removeEntry isDirectory
        split
        · rename_i eq
          obtain ⟨isDir, rfl⟩ := Prod.mk.inj eq
          exact down n mem_cons_self entry s.skip start (Bool.and_eq_true_iff.1 isDir).2
        · rename_i eq
          obtain ⟨-, rfl⟩ := Prod.mk.inj eq
          exact file n mem_cons_self entry s.skip start
      dsimp only
      split
      · exact step
      · exact tail _ step

/-- What the entries and the final `rmdir` keep, a call keeps. -/
theorem removeRecursive_keeps {I J : List Entry → Prop} {fds s}
    (down : ∀ d, dirOf t links s.gone p = some d → ∀ n ∈ t.names s.gone d, ∀ s, I s.gone →
      (dirOf t links s.gone (filepath p n)).isSome = true →
        I (removeRecursive t links fds (filepath p n) s).2.gone)
    (file : ∀ d, dirOf t links s.gone p = some d → ∀ n ∈ t.names s.gone d, ∀ s, I s.gone →
      I (unlink t links (filepath p n) s).2.gone)
    (last : ∀ s, I s.gone → J (rmdir t links p s).2.gone) (weaker : ∀ gone, I gone → J gone)
    (start : I s.gone) : J (removeRecursive t links (fds + 1) p s).2.gone := by
  unfold removeRecursive opendir
  split
  · rename_i s' eq
    obtain ⟨-, rfl⟩ := Prod.mk.inj eq
    exact weaker _ start
  · rename_i names s' eq
    obtain ⟨opened, rfl⟩ := Prod.mk.inj eq
    obtain ⟨_, opened⟩ := ite_none_right_eq_some.1 opened
    obtain ⟨d, dir, rfl⟩ := map_eq_some_iff.1 opened
    have read : ∀ n ∈ (s.next 0).reads ([dot] :: [dot, dot] :: t.names s.gone d), n ≠ [] ∧
        (¬ Special n → n ∈ t.names s.gone d) := by
      intro n mem
      have mem := ((s.next 0).subperm _).subset mem
      rw [mem_cons, mem_cons] at mem
      obtain rfl | rfl | mem := mem
      · exact ⟨cons_ne_nil _ _, fun no => absurd (.inr (.inl rfl)) no⟩
      · exact ⟨cons_ne_nil _ _, fun no => absurd (.inr (.inr rfl)) no⟩
      · obtain ⟨⟨i, entry⟩, -⟩ := mem_names.1 mem
        exact ⟨fun nil => (t.proper d _ entry).1 (.inl nil), fun _ => mem⟩
    have loop : I (entryLoop t links (removeRecursive t links fds) p _ s.skip).2.gone :=
      entryLoop_keeps (fun n mem entry => down d dir n ((read n mem).2 entry))
        (fun n mem entry => file d dir n ((read n mem).2 entry)) (fun n mem => (read n mem).1) start
    split
    · rename_i ran
      rw [ran] at loop
      exact weaker _ loop
    · rename_i ran
      rw [ran] at loop
      exact last _ loop

theorem unlink_grows (q : PathName) (s : State) : s.gone ⊆ (unlink t links q s).2.gone := by
  obtain same | ⟨e, i, -, -, more⟩ := unlink_cases t links q s
  · exact same ▸ List.Subset.refl _
  · exact more ▸ subset_cons_self e _

theorem rmdir_grows (q : PathName) (s : State) : s.gone ⊆ (rmdir t links q s).2.gone := by
  obtain same | ⟨e, i, -, -, -, more⟩ := rmdir_cases t links q s
  · exact same ▸ List.Subset.refl _
  · exact more ▸ subset_cons_self e _

/-- What is gone stays gone. -/
theorem removeRecursive_grows (fds : Nat) (p : PathName) (s : State) :
    s.gone ⊆ (removeRecursive t links fds p s).2.gone := by
  induction fds generalizing p s with
  | zero => exact List.Subset.refl _
  | succ fds ih =>
    refine removeRecursive_keeps (I := fun gone => s.gone ⊆ gone) (J := fun gone => s.gone ⊆ gone)
      ?_ ?_ ?_ (fun _ sub => sub) (List.Subset.refl _)
    · exact fun _ _ n _ s' sub _ => List.Subset.trans sub (ih (filepath p n) s')
    · exact fun _ _ n _ s' sub => List.Subset.trans sub (unlink_grows (filepath p n) s')
    · exact fun s' sub => List.Subset.trans sub (rmdir_grows p s')

theorem entryLoop_grows (fds : Nat) (names : List Name) (real : ∀ n ∈ names, n ≠ []) (s : State) :
    s.gone ⊆ (entryLoop t links (removeRecursive t links fds) p names s).2.gone :=
  entryLoop_keeps (I := fun gone => s.gone ⊆ gone)
    (fun n _ _ s' sub _ => List.Subset.trans sub (removeRecursive_grows fds (filepath p n) s'))
    (fun n _ _ s' sub => List.Subset.trans sub (unlink_grows (filepath p n) s')) real
    (List.Subset.refl _)

/-! ## The paths it builds -/

theorem filepath_short {n} (short : p.length < 1023) :
    filepath p n = p ++ slash :: n.take (1022 - p.length) := by
  obtain ⟨k, len⟩ : ∃ k, 1023 - p.length = k + 1 := ⟨1022 - p.length, by omega⟩
  have : k = 1022 - p.length := by omega
  show (p ++ slash :: n).take 1023 = _
  rw [take_append, take_of_length_le (le_of_lt short), len, take_succ_cons, this]

theorem filepath_long {n} (long : 1023 ≤ p.length) : filepath p n = p.take 1023 :=
  take_append_of_le_length long

/-- A path behind `path` has a component more; if that was cut to one with a meaning of its own,
it is the last. -/
structure Below (path q : PathName) : Prop where
  more : ∃ rest, q = path ++ slash :: rest
  comps : ∃ c cs, Tree.components q = Tree.components path ++ c :: cs ∧
    (Special c → cs = [] ∧ q.length = 1023)
  len : q.length ≤ 1023

theorem below_child {n} (short : path.length < 1023) (proper : ¬ Special n ∧ slash ∉ n) :
    Below path (filepath path n) := by
  have comps : Tree.components (n.take (1022 - path.length)) = [n.take (1022 - path.length)] :=
    components_name fun mem => proper.2 (mem_of_mem_take mem)
  rw [filepath_short short]
  refine ⟨⟨_, rfl⟩, ⟨_, [], by rw [components_snoc, comps], fun cut => ⟨rfl, ?_⟩⟩, ?_⟩
  · have longer : 1022 - path.length < n.length := by
      by_contra whole
      rw [take_of_length_le (Nat.le_of_not_lt whole)] at cut
      exact proper.1 cut
    rw [length_append, length_cons, length_take]
    omega
  · rw [length_append, length_cons, length_take]
    omega

theorem Below.child {n} (b : Below path q) (proper : ¬ Special n ∧ slash ∉ n) :
    Below path (filepath q n) := by
  by_cases short : q.length < 1023
  · obtain ⟨more, comps, len⟩ := below_child short proper
    obtain ⟨rest, eq⟩ := b.more
    obtain ⟨rest', eq'⟩ := more
    obtain ⟨c, cs, whole, cut⟩ := b.comps
    obtain ⟨c', cs', whole', -⟩ := comps
    refine ⟨⟨rest ++ slash :: rest', ?_⟩, ⟨c, cs ++ c' :: cs', ?_, fun sp => ?_⟩, len⟩
    · rw [eq', eq, append_assoc, cons_append]
    · rw [whole', whole, append_assoc, cons_append]
    · have := (cut sp).2
      omega
  · have same : filepath q n = q := by
      rw [filepath_long (Nat.le_of_not_lt short), take_of_length_le b.len]
    rw [same]
    exact b

theorem Builds.proper (b : Builds t links p q) :
    ∃ n, (¬ Special n ∧ slash ∉ n) ∧ q = filepath p n := by
  obtain ⟨d, -, n, mem, eq⟩ := b
  obtain ⟨⟨i, entry⟩, -⟩ := mem_names.1 mem
  exact ⟨n, t.proper d _ entry, eq⟩

theorem built_below (short : path.length < 1023) (built : TransGen (Builds t links) path q) :
    Below path q := by
  induction built with
  | single b =>
    obtain ⟨n, proper, rfl⟩ := b.proper
    exact below_child short proper
  | tail _ b ih =>
    obtain ⟨n, proper, rfl⟩ := b.proper
    exact ih.child proper

theorem built_long (long : 1023 ≤ path.length) (built : TransGen (Builds t links) path q) :
    q = path.take 1023 := by
  induction built with
  | single b =>
    obtain ⟨n, -, rfl⟩ := b.proper
    exact filepath_long long
  | tail _ b ih =>
    obtain ⟨n, -, rfl⟩ := b.proper
    rw [filepath_long, ih, take_take, min_self]
    rw [ih, length_take]
    omega

/-! ## It stays inside -/

/-- The entry of a directory below is inside. -/
theorem Within.entry {d i c} (w : Within t top i) (entry : (c, i) ∈ (t.node d).entries)
    (dir : (t.node i).isDir = true) : Inside t top (d, c) := by
  cases w with
  | self => exact .inr entry
  | child w' entry' _ =>
    obtain ⟨rfl, -⟩ := t.once _ _ _ _ _ entry entry' dir
    exact .inl w'

theorem entryOf_mem {d i c} (h : t.entryOf gone links p = some ((d, c), i)) :
    (c, i) ∈ (t.node d).entries := by
  obtain ⟨init, l, -, entry, -, found⟩ := entryOf_some h
  exact (child_entry found entry).1

/-- What is gone while the loops run. -/
structure Good (t : Tree) (links : Nat) (path : PathName) (top : Nat) (gone : List Entry) :
    Prop where
  inside : ∀ e ∈ gone, Inside t top e
  named : ∀ e ∈ gone, ∃ q, TransGen (Builds t links) path q ∧
    ∃ i, t.entryOf [] links (Tree.strip q) = some (e, i)
  own : ∀ e ∈ gone, (e.2, top) ∈ (t.node e.1).entries → t.names gone top = []

/-- An entry inside goes, that of the target only when nothing is left in it. -/
theorem Good.cons (good : Good t links path top gone) (built : TransGen (Builds t links) path q)
    {d c i}
    (found : t.entryOf [] links (Tree.strip q) = some ((d, c), i)) (inside : Inside t top (d, c))
    (empty : i = top → t.names gone top = []) : Good t links path top ((d, c) :: gone) where
  inside := forall_mem_cons.2 ⟨inside, good.inside⟩
  named := forall_mem_cons.2 ⟨⟨q, built, i, found⟩, good.named⟩
  own := forall_mem_cons.2
    ⟨fun own => names_mono (subset_cons_self _ _)
    (empty (t.distinct d c i top (entryOf_mem found) own)),
      fun e mem own => names_mono (subset_cons_self _ _) (good.own e mem own)⟩

theorem Good.unlink (target : dirOf t links [] path = some top)
    (harmless : Harmless t links path top)
    (built : TransGen (Builds t links) path q) {s} (good : Good t links path top s.gone) :
    Good t links path top (unlink t links q s).2.gone := by
  obtain same | ⟨⟨d, c⟩, i, found, file, more⟩ := unlink_cases t links q s
  · rw [same]
    exact good
  · have first := entryOf_mono (nil_subset _) found
    rw [more]
    refine good.cons built ((strip_of_entryOf first).symm ▸ first)
      (harmless.file q built _ i first file) ?_
    rintro rfl
    rw [(dirOf_some.1 target).2] at file
    cases file

/-- A path that leads through the target names the target or nothing once that is empty. -/
theorem through_empty (target : dirOf t links [] path = some top) (short : path.length < 1023)
    (built : TransGen (Builds t links) path q) (empty : t.names gone top = []) {d i c}
    (found : t.entryOf gone links (Tree.strip q) = some ((d, c), i))
    (dir : (t.node i).isDir = true) : i = top := by
  obtain ⟨resolved, topDir⟩ := dirOf_some.1 target
  obtain ⟨⟨rest, eq⟩, ⟨c', cs, comps, cut⟩, -⟩ := built_below short built
  have some_byte : path ≠ [] := by
    rintro rfl
    cases resolved
  have first : t.start t.cwd q = t.start t.cwd path := by
    unfold Tree.start
    rw [eq, head?_append_of_ne_nil _ some_byte]
  have res := entryOf_resolve found dir
  unfold Tree.resolve at res resolved
  rw [if_neg some_byte] at resolved
  obtain ⟨_, res⟩ := ite_none_left_eq_some.1 res
  rw [comps, walk_append, first] at res
  obtain ⟨⟨l, i'⟩, ran, rfl⟩ := map_eq_some_iff.1 res
  obtain ⟨⟨l', mid⟩, ran', ran⟩ := bind_eq_some_iff.1 ran
  -- the part of `path` leads to the target still
  rw [walk_mono (nil_subset _) ran'] at resolved
  obtain rfl : mid = top := Option.some.inj resolved
  rw [walk_cons] at ran
  obtain ⟨j, step, ran⟩ := bind_eq_some_iff.1 ran
  by_cases sp : Special c'
  · obtain ⟨rfl, -⟩ := cut sp
    obtain rfl | entry := entryOf_last found comps
    · rw [child_nil topDir] at step
      cases step
      cases node : t.node mid with
      | dir parent entries =>
        rw [node] at ran
        rw [walk_nil] at ran
        exact (congrArg Prod.snd (Option.some.inj ran)).symm
      | file => rw [node] at topDir; cases topDir
      | link target => rw [node] at topDir; cases topDir
    · exact absurd sp entry
  · obtain ⟨mem, out⟩ := child_entry step sp
    have : c' ∈ t.names gone mid := mem_names.2 ⟨⟨j, mem⟩, out⟩
    rw [empty] at this
    cases this

theorem Good.rmdir (target : dirOf t links [] path = some top)
    (harmless : Harmless t links path top)
    (built : TransGen (Builds t links) path q) {s} (good : Good t links path top s.gone) :
    Good t links path top (rmdir t links q s).2.gone := by
  obtain same | ⟨⟨d, c⟩, i, found, dir, empty, more⟩ := rmdir_cases t links q s
  · rw [same]
    exact good
  · have first := entryOf_mono (nil_subset _) found
    have entry := entryOf_mem first
    have inside : Inside t top (d, c) := by
      cases before : t.names [] i with
      | nil => exact harmless.empty q built _ i first dir before
      | cons n ns =>
        -- an entry of the directory is gone already, so the directory is below or holds the target
        obtain ⟨⟨j, mem⟩, -⟩ := mem_names.1 (before ▸ mem_cons_self : n ∈ t.names [] i)
        have goneBefore : (i, n) ∈ s.gone := by
          by_contra out
          have : n ∈ t.names s.gone i := mem_names.2 ⟨⟨j, mem⟩, out⟩
          rw [empty] at this
          cases this
        obtain below | own := good.inside (i, n) goneBefore
        · exact below.entry entry dir
        · have same : i = top := by
            by_cases short : path.length < 1023
            · exact through_empty target short built (good.own _ goneBefore own) found dir
            · -- every path built is the same, and names one entry only
              obtain ⟨q', built', i', named⟩ := good.named _ goneBefore
              have long := Nat.le_of_not_lt short
              rw [built_long long built'] at named
              rw [built_long long built, named] at first
              obtain ⟨⟨rfl, rfl⟩, rfl⟩ := Option.some.inj first
              exact t.distinct _ _ _ _ entry own
          subst same
          exact .inr entry
    rw [more]
    exact good.cons built first inside (by rintro rfl; exact empty)

/-- One more path: what the recursion sees in the changed tree was there before. -/
theorem builds_of {gone d n} (dir : dirOf t links gone p = some d) (mem : n ∈ t.names gone d) :
    Builds t links p (filepath p n) := by
  obtain ⟨resolved, isDir⟩ := dirOf_some.1 dir
  refine ⟨d, dirOf_some.2 ⟨resolve_mono (nil_subset _) resolved, isDir⟩, n, ?_, rfl⟩
  exact mem_names.2 ⟨(mem_names.1 mem).1, not_mem_nil⟩

theorem Good.recursive (target : dirOf t links [] path = some top)
    (harmless : Harmless t links path top) (fds : Nat)
    (built : TransGen (Builds t links) path q) {s : State} (good : Good t links path top s.gone) :
    Good t links path top (removeRecursive t links fds q s).2.gone := by
  induction fds generalizing q s with
  | zero => exact good
  | succ fds ih =>
    refine removeRecursive_keeps (I := Good t links path top) ?_ ?_ ?_ (fun _ good => good) good
    · exact fun d dir n mem s' good _ => ih (built.tail (builds_of dir mem)) good
    · exact fun d dir n mem s' good => good.unlink target harmless (built.tail (builds_of dir mem))
    · exact fun s' good => good.rmdir target harmless built

theorem harmless_inside (target : dirOf t links [] path = some top)
    (harmless : Harmless t links path top) (fds : Nat)
    (next : Nat → Choice) : ∀ e ∈ (removeRecursive t links fds path ⟨[], next⟩).2.gone,
      Inside t top e := by
  have start : Good t links path top [] :=
    ⟨fun e no => absurd no not_mem_nil, fun e no => absurd no not_mem_nil,
      fun e no => absurd no not_mem_nil⟩
  cases fds with
  | zero => exact start.inside
  | succ fds =>
    refine removeRecursive_keeps (I := Good t links path top)
      (J := fun gone => ∀ e ∈ gone, Inside t top e) ?_ ?_ ?_ (fun _ good => good.inside) start
    · exact fun d dir n mem s' good _ =>
        good.recursive target harmless fds (.single (builds_of dir mem))
    · exact fun d dir n mem s' good => good.unlink target harmless (.single (builds_of dir mem))
    · intro s' good
      obtain same | ⟨⟨d, c⟩, i, found, dir, -, more⟩ := rmdir_cases t links path s'
      · rw [same]
        exact good.inside
      · have first := entryOf_mono (nil_subset _) found
        have same := (entryOf_resolve first dir).symm.trans (dirOf_some.1 target).1
        cases same
        rw [more]
        exact forall_mem_cons.2 ⟨.inr (entryOf_mem first), good.inside⟩

/-! ## How it gets outside -/

def Choice.yes : Choice := ⟨true, id, fun _ => .refl _⟩

def Choice.no : Choice := ⟨false, id, fun _ => .refl _⟩

theorem first_subperm (n : Name) (names : List Name) :
    (if n ∈ names then n :: names.erase n else names).Subperm names := by
  split
  · exact (perm_cons_erase ‹_›).symm.subperm
  · exact .refl _

/-- The directory is opened, and `readdir` returns one name before the others. -/
def Choice.first (n : Name) : Choice :=
  ⟨true, fun names => if n ∈ names then n :: names.erase n else names, first_subperm n⟩

def choose (c : Choice) (next : Nat → Choice) : Nat → Choice
  | 0 => c
  | i + 1 => next i

/-- The system can have the path of any entry taken first. -/
theorem removeEntry_first {d n} (dir : dirOf t links [] p = some d)
    (mem : n ∈ t.names [] d) (fds : Nat) (next : Nat → Choice) :
    (removeEntry t links (removeRecursive t links fds) (filepath p n) ⟨[], next⟩).2.gone ⊆
      (removeRecursive t links (fds + 1) p ⟨[], choose (.first n) next⟩).2.gone := by
  have proper : ∀ m ∈ t.names [] d, ¬ Special m := by
    intro m mem
    obtain ⟨⟨i, entry⟩, -⟩ := mem_names.1 mem
    exact (t.proper d _ entry).1
  generalize eq : [dot] :: [dot, dot] :: t.names [] d = names
  have there : n ∈ names := eq ▸ mem_cons_of_mem _ (mem_cons_of_mem _ mem)
  have real : ∀ m ∈ names.erase n, m ≠ [] := by
    intro m mem
    have mem := mem_of_mem_erase mem
    rw [← eq, mem_cons, mem_cons] at mem
    obtain rfl | rfl | mem := mem
    · exact cons_ne_nil _ _
    · exact cons_ne_nil _ _
    · exact fun nil => proper m mem (.inl nil)
  have opened : opendir t links p ⟨[], choose (.first n) next⟩ =
      (some (n :: names.erase n), ⟨[], next⟩) := by
    unfold opendir
    refine Prod.ext ?_ rfl
    rw [dir, map_some, eq]
    exact congrArg some (if_pos there)
  have last : ∀ r : Bool × State, r.2.gone ⊆ (match r with
      | (false, s) => (-1, s)
      | (true, s) => rmdir t links p s : Int × State).2.gone := by
    rintro ⟨_ | _, s⟩
    · exact List.Subset.refl _
    · exact rmdir_grows p s
  unfold removeRecursive
  rw [opened]
  refine List.Subset.trans ?_ (last _)
  rw [entryLoop, if_neg fun dots => proper n mem (.inr dots)]
  generalize removeEntry t links (removeRecursive t links fds) (filepath p n) ⟨[], next⟩ = r
  dsimp only
  split
  · exact List.Subset.refl _
  · exact entryLoop_grows fds _ real _

/-- An entry can go when the path of a file, a link or an empty directory is built for it. -/
theorem removes_built (built : TransGen (Builds t links) path q) {e}
    (bad : (∃ i, t.entryOf [] links q = some (e, i) ∧ (t.node i).isDir = false) ∨
      ∃ i, t.entryOf [] links (Tree.strip q) = some (e, i) ∧ (t.node i).isDir = true ∧
        t.names [] i = []) :
    ∃ fds next, e ∈ (removeRecursive t links fds path ⟨[], next⟩).2.gone := by
  induction built using TransGen.head_induction_on with
  | @single p b =>
    obtain ⟨d, dir, n, mem, rfl⟩ := b
    obtain ⟨i, found, file⟩ | ⟨i, found, isDir, empty⟩ := bad
    · refine ⟨1, choose (.first n) (choose .no fun _ => .yes), removeEntry_first dir mem 0 _ ?_⟩
      have gone : (unlink t links (filepath p n) ⟨[], fun _ => .yes⟩).2.gone = [e] := by
        unfold unlink
        rw [found]
        dsimp only
        rw [if_pos ⟨rfl, file⟩]
        rfl
      show e ∈ (unlink t links (filepath p n) ⟨[], fun _ => .yes⟩).2.gone
      rw [gone]
      exact mem_singleton_self e
    · refine ⟨2, choose (.first n) (choose .yes fun _ => .yes), removeEntry_first dir mem 1 _ ?_⟩
      have there : dirOf t links [] (filepath p n) = some i :=
        dirOf_some.2 ⟨entryOf_resolve found isDir, isDir⟩
      have gone : (removeRecursive t links 1 (filepath p n) ⟨[], fun _ => .yes⟩).2.gone = [e] := by
        unfold removeRecursive opendir
        rw [there, map_some, empty]
        show (rmdir t links (filepath p n) ⟨[], fun _ => .yes⟩).2.gone = [e]
        unfold rmdir
        rw [found]
        dsimp only
        rw [if_pos ⟨rfl, isDir, empty⟩]
        rfl
      unfold removeEntry isDirectory
      rw [there]
      show e ∈ (removeRecursive t links 1 (filepath p n) ⟨[], fun _ => .yes⟩).2.gone
      rw [gone]
      exact mem_singleton_self e
  | head b rest ih =>
    obtain ⟨d, dir, n, mem, rfl⟩ := b
    obtain ⟨fds, next, removed⟩ := ih
    refine ⟨fds + 1, choose (.first n) (choose .yes next), removeEntry_first dir mem fds _ ?_⟩
    obtain ⟨_, ⟨d', there, -⟩, -⟩ := TransGen.head'_iff.1 rest
    unfold removeEntry isDirectory
    rw [there]
    exact removed

/-! ## When it is safe -/

/-- The path is short enough, and no link in the target leads to a directory. -/
structure Plain (t : Tree) (links : Nat) (path : PathName) (top : Nat) : Prop where
  short : path.length < 1023
  noLink : ∀ d n i goal, Within t top d → (n, i) ∈ (t.node d).entries → t.node i = .link goal →
    ∀ r, t.walk [] links (t.start d goal) (Tree.components goal) = some r →
    (t.node r.2).isDir = false

/-- A path built from the target has its last component in a directory below. -/
structure Placed (t : Tree) (links top : Nat) (q : PathName) (c : Name) : Prop where
  place : ∃ init l d, Tree.components q = init ++ [c] ∧ t.walk [] links (t.start t.cwd q) init =
    some (l, d) ∧ Within t top d ∧ (t.node d).isDir = true
  cut : Special c → q.length = 1023
  len : q.length ≤ 1023

theorem placed_child {d n} (dir : dirOf t links [] p = some d) (within : Within t top d)
    (short : p.length < 1023) (proper : ¬ Special n ∧ slash ∉ n) :
    Placed t links top (filepath p n) (n.take (1022 - p.length)) := by
  obtain ⟨resolved, isDir⟩ := dirOf_some.1 dir
  have below := below_child short proper
  obtain ⟨⟨rest, eq⟩, ⟨c, cs, comps, cut⟩, len⟩ := below
  have whole : Tree.components (filepath p n) =
      Tree.components p ++ [n.take (1022 - p.length)] := by
    rw [filepath_short short, components_snoc,
      components_name fun mem => proper.2 (mem_of_mem_take mem)]
  rw [whole] at comps
  obtain ⟨rfl, rfl⟩ := List.cons.inj (append_cancel_left comps)
  obtain ⟨some_byte, resolved⟩ := ite_none_left_eq_some.1 resolved
  obtain ⟨⟨l, d'⟩, ran, rfl⟩ := map_eq_some_iff.1 resolved
  have first : t.start t.cwd (filepath p n) = t.start t.cwd p := by
    unfold Tree.start
    rw [eq, head?_append_of_ne_nil _ some_byte]
  exact ⟨⟨_, l, d', whole, first ▸ ran, within, isDir⟩, fun sp => (cut sp).2, len⟩

/-- A directory that is named by such a path is below. -/
theorem Placed.within {c i} (plain : Plain t links path top) (pl : Placed t links top q c)
    (entry : ¬ Special c) (dir : dirOf t links [] q = some i) : Within t top i := by
  obtain ⟨resolved, isDir⟩ := dirOf_some.1 dir
  obtain ⟨init, l, d, comps, ran, within, -⟩ := pl.place
  obtain ⟨_, resolved⟩ := ite_none_left_eq_some.1 resolved
  rw [comps, walk_append, ran, bind_some, walk_cons] at resolved
  obtain ⟨r, step, rfl⟩ := map_eq_some_iff.1 resolved
  obtain ⟨j, found, step⟩ := bind_eq_some_iff.1 step
  have mem := (child_entry found entry).1
  cases node : t.node j with
  | file =>
    rw [node] at step
    cases walk_nil.symm.trans step
    rw [node] at isDir
    cases isDir
  | dir parent entries =>
    rw [node] at step
    cases walk_nil.symm.trans step
    exact within.child mem isDir
  | link goal =>
    rw [node] at step
    -- the link leads to no directory, with the links that are left or with all
    cases l with
    | zero => cases step
    | succ l =>
      dsimp only at step
      rw [append_nil] at step
      have le := walk_le ran
      obtain ⟨more, eq⟩ : ∃ more, links = l + more := ⟨links - l, by dsimp only at le; omega⟩
      have all := walk_links more step
      rw [← eq] at all
      have := plain.noLink d c j goal within mem node _ all
      rw [isDir] at this
      cases this

theorem built_placed (plain : Plain t links path top) (target : dirOf t links [] path = some top)
    (built : TransGen (Builds t links) path q) : ∃ c, Placed t links top q c := by
  induction built with
  | single b =>
    obtain ⟨n, proper, rfl⟩ := b.proper
    exact ⟨_, placed_child target .self plain.short proper⟩
  | @tail p q _ b ih =>
    obtain ⟨c, pl⟩ := ih
    obtain ⟨n, proper, rfl⟩ := b.proper
    obtain ⟨d, dir, -⟩ := b
    by_cases short : p.length < 1023
    · exact ⟨_, placed_child dir (pl.within plain (fun sp => by have := pl.cut sp; omega) dir)
        short proper⟩
    · rw [filepath_long (Nat.le_of_not_lt short), take_of_length_le pl.len]
      exact ⟨c, pl⟩

theorem Plain.harmless (plain : Plain t links path top)
    (target : dirOf t links [] path = some top) : Harmless t links path top := by
  refine ⟨fun q built e i found file => ?_, fun q built e i found isDir empty => ?_⟩
  · obtain ⟨c, ⟨init, l, d, comps, ran, within, -⟩, -, -⟩ := built_placed plain target built
    obtain ⟨init', l', comps', -, ran', -⟩ := entryOf_some found
    have same := congrArg List.dropLast (comps.symm.trans comps')
    rw [dropLast_concat, dropLast_concat] at same
    rw [← same, ran] at ran'
    cases ran'
    exact .inl within
  · obtain ⟨c, pl⟩ := built_placed plain target built
    have resolved := entryOf_resolve found isDir
    have entry := entryOf_mem found
    refine Within.entry ?_ entry isDir
    by_cases sp : Special c
    · obtain ⟨init, l, d, comps, ran, within, dDir⟩ := pl.place
      obtain rfl | no := entryOf_last found comps
      · obtain ⟨_, resolved⟩ := ite_none_left_eq_some.1 resolved
        rw [comps, walk_append, ran, bind_some, walk_one (child_nil dDir) dDir] at resolved
        cases resolved
        exact within
      · exact absurd sp no
    · exact pl.within plain sp (dirOf_some.2 ⟨resolved, isDir⟩)

/-- Whatever the system decides, `remove_recursive` stays inside its target exactly if it builds
no path to a file, a link or an empty directory outside. -/
theorem remove_recursive_inside_iff {t : Tree} {links top : Nat} {path : PathName}
    (target : dirOf t links [] path = some top) :
    (∀ fds next, ∀ e ∈ (removeRecursive t links fds path ⟨[], next⟩).2.gone, Inside t top e) ↔
      Harmless t links path top := by
  refine ⟨fun inside => ⟨fun q built e i found file => ?_, fun q built e i found dir empty => ?_⟩,
    harmless_inside target⟩
  · obtain ⟨fds, next, removed⟩ := removes_built built (.inl ⟨i, found, file⟩)
    exact inside fds next e removed
  · obtain ⟨fds, next, removed⟩ := removes_built built (.inr ⟨i, found, dir, empty⟩)
    exact inside fds next e removed

/-! ## Two trees -/

/-- A tree with these files, numbered from 0. -/
def nodeAt (nodes : List Node) (i : Nat) : Node := nodes[i]?.getD .file

theorem nodeAt_lt {nodes d e} (mem : e ∈ (nodeAt nodes d).entries) : d < nodes.length := by
  by_contra out
  unfold nodeAt at mem
  rw [getElem?_eq_none (Nat.le_of_not_lt out)] at mem
  cases mem

/-- Two directories name no directory twice. -/
def Once (nodes : List Node) (d d' : Nat) : Prop :=
  ∀ e ∈ (nodeAt nodes d).entries, ∀ e' ∈ (nodeAt nodes d').entries, e.2 = e'.2 →
    (nodeAt nodes e.2).isDir = true → d = d' ∧ e.1 = e'.1
  deriving Decidable

/-- What a list of files needs to be a tree. -/
def IsTree (nodes : List Node) : Prop :=
  (∀ d < nodes.length, ∀ e ∈ (nodeAt nodes d).entries, ¬ Special e.1 ∧ slash ∉ e.1) ∧
  (∀ d < nodes.length, ∀ e ∈ (nodeAt nodes d).entries, ∀ e' ∈ (nodeAt nodes d).entries, e.1 = e'.1 →
    e.2 = e'.2) ∧
  ∀ d < nodes.length, ∀ d' < nodes.length, Once nodes d d'

instance (nodes : List Node) : Decidable (IsTree nodes) := inferInstanceAs (Decidable (_ ∧ _ ∧ _))

/-- The first file is the root and the working directory. -/
def treeOf (nodes : List Node) (is : IsTree nodes) : Tree where
  root := 0
  cwd := 0
  node := nodeAt nodes
  proper := fun d e mem => is.1 d (nodeAt_lt mem) e mem
  distinct := fun d n i i' mem mem' => is.2.1 d (nodeAt_lt mem) (n, i) mem (n, i') mem' rfl
  once := fun d d' n n' i mem mem' =>
    is.2.2 d (nodeAt_lt mem) d' (nodeAt_lt mem') (n, i) mem (n', i) mem' rfl

/-- `/d/l` and `/e/f`, where `l` is a link to `/e`. -/
def linked : List Node :=
  [.dir 0 [([100], 1), ([101], 2)], .dir 0 [([108], 3)], .dir 0 [([102], 4)],
    .link [47, 101], .file]

theorem linked_isTree : IsTree linked := by decide

/-- `custom_rm -r /d` follows the link and removes `/e/f`. -/
theorem remove_recursive_follows_link :
    ∃ t links path top fds next e, dirOf t links [] path = some top ∧
    e ∈ (removeRecursive t links fds path ⟨[], next⟩).2.gone ∧ ¬ Inside t top e := by
  refine ⟨treeOf linked linked_isTree, 40, [47, 100], 1, 10, fun _ => .yes, (2, [102]),
    by decide +kernel, by decide +kernel, ?_⟩
  have only : ∀ d, Within (treeOf linked linked_isTree) 1 d → d = 1 := by
    intro d within
    induction within with
    | self => rfl
    | child _ mem dir ih =>
      subst ih
      obtain ⟨-, rfl⟩ := mem_singleton.1 mem
      cases dir
  rintro (within | own)
  · exact absurd (only 2 within) (by decide)
  · exact absurd own (by decide)

/-- `/d/f` and `/d/s`, a directory. -/
def small : List Node := [.dir 0 [([100], 1)], .dir 0 [([102], 2), ([115], 3)], .file, .dir 1 []]

theorem small_isTree : IsTree small := by decide

theorem remove_recursive_inside_iff_small : ∃ t links path top, dirOf t links [] path = some top ∧
    (removeRecursive t links 10 path ⟨[], fun _ => .yes⟩).2.gone =
    [(0, [100]), (1, [115]), (1, [102])] ∧
    ∀ fds next, ∀ e ∈ (removeRecursive t links fds path ⟨[], next⟩).2.gone, Inside t top e := by
  have target : dirOf (treeOf small small_isTree) 40 [] [47, 100] = some 1 := by decide +kernel
  refine ⟨treeOf small small_isTree, 40, [47, 100], 1, target, by decide +kernel,
    (remove_recursive_inside_iff target).2 ?_⟩
  refine Plain.harmless ⟨by decide, fun d n i goal _ _ node => ?_⟩ target
  have no : ∀ node ∈ small, ∀ goal, node ≠ .link goal := by
    intro node mem goal eq
    subst eq
    simp [small] at mem
  have : nodeAt small i = .link goal := node
  unfold nodeAt at this
  cases at_i : small[i]? with
  | none =>
    rw [at_i] at this
    cases this
  | some node =>
    rw [at_i] at this
    exact absurd this (no node (mem_of_getElem? at_i) goal)

/-! ## Without `-r` -/

/-- Without the flag only files and links go, each named by an argument. -/
theorem main_without_flag {t links fds argv next} (flag : flagR ∉ argv) :
    ∀ e ∈ (main t links fds argv ⟨[], next⟩).2.gone,
      ∃ a ∈ argv, ∃ i, t.entryOf [] links a = some (e, i) ∧ (t.node i).isDir = false := by
  have off : argv.contains flagR = false := by
    rw [contains_eq_mem]
    exact decide_eq_false flag
  unfold main
  split
  · exact fun e no => absurd no not_mem_nil
  rw [off]
  refine List.foldlRecOn argv (motive := fun s : State => ∀ e ∈ s.gone, ∃ a ∈ argv, ∃ i,
    t.entryOf [] links a = some (e, i) ∧ (t.node i).isDir = false) _ (fun e no =>
    absurd no not_mem_nil) ?_
  intro s named a mem
  unfold removeTarget isDirectory
  split
  · exact named
  · split
    · rename_i eq
      obtain ⟨-, rfl⟩ := Prod.mk.inj eq
      exact named
    · rename_i eq
      obtain ⟨-, rfl⟩ := Prod.mk.inj eq
      obtain same | ⟨e, i, found, file, more⟩ := unlink_cases t links a s.skip
      · rw [same]
        exact named
      · rw [more]
        have first := entryOf_mono (nil_subset _) found
        exact forall_mem_cons.2 ⟨⟨a, mem, i, first, file⟩, named⟩

theorem main_without_flag_small :
    ∃ t links argv, (main t links 10 argv ⟨[], fun _ => .yes⟩).2.gone = [(1, [102])] ∧
    ∀ e ∈ (main t links 10 argv ⟨[], fun _ => .yes⟩).2.gone,
      ∃ a ∈ argv, ∃ i, t.entryOf [] links a = some (e, i) ∧ (t.node i).isDir = false :=
  ⟨treeOf small small_isTree, 40, [[47, 100, 47, 102]], by decide +kernel,
    main_without_flag (by decide)⟩

end OsProject.Commands.Remove
