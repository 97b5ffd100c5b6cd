import Mathlib.Algebra.Ring.Nat
import Mathlib.Data.List.DropRight
import Mathlib.Data.List.Perm.Subperm
import Mathlib.Tactic.Common

/-! # Path names

A tree of directories with files and symbolic links, and how a path is resolved in it while
entries are being removed. -/
namespace OsProject.Lib.Paths
open List Option

abbrev Name := List UInt8
abbrev PathName := List UInt8

def slash : UInt8 := 47
def dot : UInt8 := 46

inductive Node where
  | file
  | link (target : PathName)
  | dir (parent : Nat) (entries : List (Name × Nat))

def Node.isDir : Node → Bool
  | .dir _ _ => true
  | _ => false

def Node.entries : Node → List (Name × Nat)
  | .dir _ entries => entries
  | _ => []

/-- A component that is no entry: empty, dot or dot-dot. -/
def Special (c : Name) : Prop := c = [] ∨ c = [dot] ∨ c = [dot, dot]
  deriving Decidable

/-- Files and directories by number. A directory has one entry at most, and its `..` is where the
entry is. -/
structure Tree where
  root : Nat
  cwd : Nat
  node : Nat → Node
  proper : ∀ d, ∀ e ∈ (node d).entries, ¬ Special e.1 ∧ slash ∉ e.1
  distinct : ∀ d n i i', (n, i) ∈ (node d).entries → (n, i') ∈ (node d).entries → i = i'
  once : ∀ d d' n n' i, (n, i) ∈ (node d).entries → (n', i) ∈ (node d').entries →
    (node i).isDir = true → d = d' ∧ n = n'

/-- An entry, by its directory and its name. -/
abbrev Entry := Nat × Name

namespace Tree
variable (t : Tree) (gone : List Entry)

/-- The names in a directory, without the entries that are gone. -/
def names (d : Nat) : List Name := ((t.node d).entries.map (·.1)).filter fun n => (d, n) ∉ gone

/-- One component of a path, looked up in a directory. -/
def child (d : Nat) (c : Name) : Option Nat :=
  match t.node d with
  | .dir parent entries =>
    if c = [] ∨ c = [dot] then some d
    else if c = [dot, dot] then some parent
    else if (d, c) ∈ gone then none
    else (entries.find? fun e => e.1 = c).map (·.2)
  | _ => none

/-- The parts of a path between its slashes. -/
def components (p : PathName) : List Name := p.splitOn slash

/-- Where the resolution of a path starts. -/
def start (cur : Nat) (p : PathName) : Nat := if p.head? = some slash then t.root else cur

/-- The components one after another, where `follow` goes on behind a link. -/
def walkWith (links : Nat) (follow : Nat → List Name → Option (Nat × Nat)) :
    Nat → List Name → Option (Nat × Nat)
  | cur, [] => some (links, cur)
  | cur, c :: cs =>
    match t.child gone cur c with
    | none => none
    | some i =>
      match t.node i with
      | .link target => follow (t.start cur target) (components target ++ cs)
      | _ => walkWith links follow i cs

/-- With at most `links` links on the way. Returns how many are left. -/
def walk : Nat → Nat → List Name → Option (Nat × Nat)
  | 0 => t.walkWith gone 0 fun _ _ => none
  | links + 1 => t.walkWith gone (links + 1) (walk links)

/-- What a path names, links followed. -/
def resolve (links : Nat) (p : PathName) : Option Nat :=
  if p = [] then none else (t.walk gone links (t.start t.cwd p) (components p)).map (·.2)

/-- The entry that a path names, with its file: the last component is not followed. -/
def entryOf (links : Nat) (p : PathName) : Option (Entry × Nat) :=
  let c := (components p).getLast (splitOn_ne_nil _ _)
  if Special c then none
  else (t.walk gone links (t.start t.cwd p) (components p).dropLast).bind fun r =>
    (t.child gone r.2 c).map fun i => ((r.2, c), i)

/-- A path without the slashes at its end. -/
def strip (p : PathName) : PathName := p.rdropWhile (· = slash)

end Tree

section walk
variable {t : Tree} {gone gone' : List Entry} {links d i : Nat} {c : Name}

@[simp]
theorem walk_nil : t.walk gone links d [] = some (links, d) := by
  cases links <;> rfl

theorem walk_cons {cs} : t.walk gone links d (c :: cs) = (t.child gone d c).bind fun i =>
    match t.node i with
    | .link target => match links with
      | 0 => none
      | links + 1 => t.walk gone links (t.start d target) (Tree.components target ++ cs)
    | _ => t.walk gone links i cs := by
  cases links with
  | zero | succ =>
    rw [Tree.walk, Tree.walkWith]
    cases t.child gone d c with
    | none | some => rfl

/-- A walk goes on with fewer components or, behind a link, with fewer links. -/
theorem walk_ind {motive : Nat → List Name → Prop} (nil : ∀ links, motive links [])
    (cons : ∀ links c cs, motive links cs → (∀ fewer cs', links = fewer + 1 → motive fewer cs') →
      motive links (c :: cs)) (links : Nat) (cs : List Name) : motive links cs := by
  induction links generalizing cs with
  | zero =>
    induction cs with
    | nil => exact nil 0
    | cons c cs ih => exact cons 0 c cs ih fun _ _ eq => absurd eq (Nat.succ_ne_zero _).symm
  | succ links shorter =>
    induction cs with
    | nil => exact nil _
    | cons c cs ih => exact cons _ c cs ih fun _ cs' eq => Nat.succ.inj eq ▸ shorter cs'

/-- A path is resolved part by part. -/
theorem walk_append (xs ys : List Name) : t.walk gone links d (xs ++ ys) =
    (t.walk gone links d xs).bind fun r => t.walk gone r.1 r.2 ys := by
  induction links, xs using walk_ind generalizing d with
  | nil links => simp
  | cons links c xs ih behind =>
    rw [cons_append, walk_cons, walk_cons, bind_assoc]
    refine congrArg _ (funext fun i => ?_)
    cases t.node i with
    | link target =>
      cases links with
      | zero => rfl
      | succ links =>
        dsimp only
        rw [← append_assoc]
        exact behind links _ rfl
    | file => exact ih
    | dir parent entries => exact ih

theorem child_mono (sub : gone ⊆ gone') (h : t.child gone' d c = some i) :
    t.child gone d c = some i := by
  unfold Tree.child at *
  split at h
  · by_cases out : (d, c) ∈ gone'
    · split at h
      · rw [if_pos ‹_›]
        exact h
      · rw [if_neg ‹_›]
        split at h
        · rw [if_pos ‹_›]
          exact h
        · cases h
    · rw [if_neg out] at h
      rw [if_neg fun mem => out (sub mem)]
      exact h
  · cases h

/-- Fewer entries: a path is resolved as before or not at all. -/
theorem walk_mono (sub : gone ⊆ gone') {cs r} (h : t.walk gone' links d cs = some r) :
    t.walk gone links d cs = some r := by
  induction links, cs using walk_ind generalizing d with
  | nil links => simpa using h
  | cons links c cs ih behind =>
    rw [walk_cons] at *
    obtain ⟨i, found, h⟩ := bind_eq_some_iff.1 h
    rw [child_mono sub found, bind_some]
    cases node : t.node i with
    | link target =>
      rw [node] at h
      cases links with
      | zero => cases h
      | succ links => exact behind links _ rfl h
    | file | dir => rw [node] at h; exact ih h

theorem resolve_mono (sub : gone ⊆ gone') {p} (h : t.resolve gone' links p = some i) :
    t.resolve gone links p = some i := by
  unfold Tree.resolve at *
  split at h
  · cases h
  · obtain ⟨r, ran, rfl⟩ := map_eq_some_iff.1 h
    rw [if_neg ‹_›, walk_mono sub ran]
    rfl

theorem entryOf_mono (sub : gone ⊆ gone') {p e} (h : t.entryOf gone' links p = some e) :
    t.entryOf gone links p = some e := by
  unfold Tree.entryOf at *
  dsimp only at *
  split at h
  · cases h
  · obtain ⟨r, ran, h⟩ := bind_eq_some_iff.1 h
    obtain ⟨i, found, rfl⟩ := map_eq_some_iff.1 h
    rw [if_neg ‹_›, walk_mono sub ran, bind_some, child_mono sub found]
    rfl

/-- A path whose resolution has more links left resolves all the same. -/
theorem walk_links (more : Nat) {cs r} (h : t.walk gone links d cs = some r) :
    t.walk gone (links + more) d cs = some (r.1 + more, r.2) := by
  induction links, cs using walk_ind generalizing d with
  | nil links =>
    rw [walk_nil] at *
    cases h
    rfl
  | cons links c cs ih behind =>
    rw [walk_cons] at *
    obtain ⟨i, found, h⟩ := bind_eq_some_iff.1 h
    rw [found, bind_some]
    cases node : t.node i with
    | link target =>
      rw [node] at h
      cases links with
      | zero => cases h
      | succ links => rw [Nat.succ_add]; exact behind links _ rfl h
    | file | dir => rw [node] at h; exact ih h

theorem walk_le {cs r} (h : t.walk gone links d cs = some r) : r.1 ≤ links := by
  induction links, cs using walk_ind generalizing d with
  | nil links => exact Option.some.inj (walk_nil.symm.trans h) ▸ le_refl _
  | cons links c cs ih behind =>
    rw [walk_cons] at h
    obtain ⟨i, -, h⟩ := bind_eq_some_iff.1 h
    cases node : t.node i with
    | link target =>
      rw [node] at h
      cases links with
      | zero => cases h
      | succ links => exact Nat.le_succ_of_le (behind links _ rfl h)
    | file | dir => rw [node] at h; exact ih h

end walk

section entries
variable {t : Tree} {gone : List Entry} {links d i : Nat} {c : Name} {p : PathName}

theorem child_entry (h : t.child gone d c = some i) (entry : ¬ Special c) :
    (c, i) ∈ (t.node d).entries ∧ (d, c) ∉ gone := by
  unfold Tree.child at h
  split at h
  · rename_i parent entries node
    rw [if_neg (fun sp => entry (sp.imp_right .inl)), if_neg (fun sp => entry (.inr (.inr sp)))]
      at h
    split at h
    · cases h
    · rename_i out
      obtain ⟨e, found, rfl⟩ := map_eq_some_iff.1 h
      have name := find?_some found
      rw [decide_eq_true_iff] at name
      refine ⟨?_, out⟩
      rw [node, ← name]
      exact mem_of_find?_eq_some found
  · cases h

/-- An empty component stays where it is. -/
theorem child_nil (dir : (t.node d).isDir = true) : t.child gone d [] = some d := by
  unfold Tree.child
  cases node : t.node d with
  | dir parent entries => rfl
  | file | link => rw [node] at dir; cases dir

theorem walk_one (found : t.child gone d c = some i) (dir : (t.node i).isDir = true) :
    t.walk gone links d [c] = some (links, i) := by
  rw [walk_cons, found, bind_some]
  cases node : t.node i with
  | dir parent entries => exact walk_nil
  | file | link => rw [node] at dir; cases dir

theorem walk_nils (dir : (t.node d).isDir = true) (k : Nat) :
    t.walk gone links d (List.replicate k []) = some (links, d) := by
  induction k with
  | zero => exact walk_nil
  | succ k ih =>
    rw [replicate_succ, ← singleton_append, walk_append, walk_one (child_nil dir) dir]; exact ih

theorem entryOf_some (h : t.entryOf gone links p = some ((d, c), i)) : ∃ init l,
    Tree.components p = init ++ [c] ∧ ¬ Special c ∧ t.walk gone links (t.start t.cwd p) init =
      some (l, d) ∧ t.child gone d c = some i := by
  unfold Tree.entryOf at h
  dsimp only at h
  split at h
  · cases h
  · rename_i entry
    obtain ⟨⟨l, e⟩, ran, h⟩ := bind_eq_some_iff.1 h
    obtain ⟨j, found, eq⟩ := map_eq_some_iff.1 h
    obtain ⟨⟨rfl, rfl⟩, rfl⟩ := eq
    exact ⟨_, l, (dropLast_append_getLast _).symm, entry, ran, found⟩

theorem components_snoc (p q : PathName) :
    Tree.components (p ++ slash :: q) = Tree.components p ++ Tree.components q :=
  splitOn_append_cons_self p q

theorem components_name {n : Name} (no : slash ∉ n) : Tree.components n = [n] :=
  splitOn_eq_singleton no

theorem components_slashes (k : Nat) :
    Tree.components (List.replicate k slash) = List.replicate (k + 1) [] := by
  induction k with
  | zero => rfl
  | succ k ih =>
    have := components_snoc [] (List.replicate k slash)
    rw [replicate_succ, ← nil_append (slash :: _), this, ih]
    rfl

theorem strip_append (p : PathName) : ∃ k, p = Tree.strip p ++ List.replicate k slash := by
  refine ⟨(p.rtakeWhile (· = slash)).length, ?_⟩
  have all : p.rtakeWhile (· = slash) = List.replicate (p.rtakeWhile (· = slash)).length slash :=
    eq_replicate_iff.2 ⟨rfl, fun b mem => decide_eq_true_iff.1 (mem_rtakeWhile_imp mem :)⟩
  unfold Tree.strip
  rw [← all, rdropWhile_append_rtakeWhile]

theorem components_strip (p : PathName) : ∃ k, p = Tree.strip p ++ List.replicate k slash ∧
    Tree.components p = Tree.components (Tree.strip p) ++ List.replicate k [] := by
  obtain ⟨k, eq⟩ := strip_append p
  refine ⟨k, eq, ?_⟩
  generalize Tree.strip p = q at *
  cases k with
  | zero => simpa using congrArg Tree.components eq
  | succ k => rw [eq, replicate_succ, components_snoc, components_slashes]

/-- The entry that a path names is what it names, when that is a directory; slashes at the end do
not matter. -/
theorem entryOf_resolve (h : t.entryOf gone links (Tree.strip p) = some ((d, c), i))
    (dir : (t.node i).isDir = true) : t.resolve gone links p = some i := by
  obtain ⟨init, l, comps, entry, ran, found⟩ := entryOf_some h
  obtain ⟨k, eq, whole⟩ := components_strip p
  generalize Tree.strip p = q at *
  have some_byte : q ≠ [] := by
    rintro rfl
    have : [[]] = init ++ [c] := comps
    have last := congrArg List.getLast? this
    rw [getLast?_concat] at last
    exact entry (.inl (Option.some.inj last).symm)
  have first : t.start t.cwd p = t.start t.cwd q := by
    unfold Tree.start
    rw [eq, head?_append_of_ne_nil _ some_byte]
  unfold Tree.resolve
  rw [if_neg, whole, first, comps, walk_append, walk_append, ran, bind_some,
    walk_one found dir, bind_some, walk_nils dir]
  · rfl
  · rw [eq]
    exact fun nil => some_byte (append_eq_nil_iff.1 nil).1

/-- The last component of a path whose entry is looked for, slashes at the end apart. -/
theorem entryOf_last {init e} (h : t.entryOf gone links (Tree.strip p) = some e)
    (comps : Tree.components p = init ++ [c]) : c = [] ∨ ¬ Special c := by
  obtain ⟨⟨d, c'⟩, i⟩ := e
  obtain ⟨init', l, comps', entry, -, -⟩ := entryOf_some h
  obtain ⟨k, -, whole⟩ := components_strip p
  have last := congrArg List.getLast? (whole.symm.trans comps)
  rw [comps', getLast?_concat, getLast?_append, getLast?_concat] at last
  cases k with
  | zero =>
    have : c' = c := Option.some.inj last
    exact .inr (this ▸ entry)
  | succ k =>
    rw [getLast?_replicate] at last
    exact .inl (Option.some.inj last).symm

/-- A path that names an entry without more has no slash at its end. -/
theorem strip_of_entryOf {e} (h : t.entryOf gone links p = some e) : Tree.strip p = p := by
  obtain ⟨init, l, comps, entry, -, -⟩ := entryOf_some h
  obtain ⟨k, eq, whole⟩ := components_strip p
  cases k with
  | zero => exact (eq.trans (append_nil _)).symm
  | succ k =>
    have last := congrArg List.getLast? (whole.symm.trans comps)
    rw [getLast?_concat, getLast?_append, getLast?_replicate] at last
    exact absurd (.inl (Option.some.inj last).symm) entry

theorem names_mono {gone'} (sub : gone ⊆ gone') (h : t.names gone d = []) :
    t.names gone' d = [] := by
  unfold Tree.names at *
  rw [filter_eq_nil_iff] at *
  intro n mem keep
  rw [decide_eq_true_iff] at keep
  exact h n mem (decide_eq_true fun old => keep (sub old))

theorem mem_names {n} : n ∈ t.names gone d ↔ (∃ i, (n, i) ∈ (t.node d).entries) ∧
    (d, n) ∉ gone := by
  unfold Tree.names
  rw [mem_filter, decide_eq_true_iff, List.mem_map]
  refine and_congr_left' ⟨?_, ?_⟩
  · rintro ⟨⟨n, i⟩, mem, rfl⟩
    exact ⟨i, mem⟩
  · rintro ⟨i, mem⟩
    exact ⟨(n, i), mem, rfl⟩

end entries

end OsProject.Lib.Paths
