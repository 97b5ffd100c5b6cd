import OsProject.Xv6.FileTree

/-! # Path resolution

What `namei` and `nameiparent` return, by the components of the path and the
entries of directories alone, and when they return at all: `iget` panics if the
inode table is full, and `ilock` if the `..` of a removed directory leads to an
inode that has been freed. -/
namespace OsProject.Xv6.PathResolution
open Lib.Outcome Lib.Transition Files References FileTree
open List hiding lookup

variable {n : Nat} {s s' : Sys n} {ip cwd i : Fin n} {tmp : List (Fin n)} {used : Finset (Fin n)}

/-! ## Components -/

/-- What is between slashes and not empty, cut to 14 bytes. -/
def components (path : List UInt8) : List (List UInt8) :=
  ((path.splitOn slash).filter (· ≠ [])).map (·.take dirsiz)

theorem components_slash (path : List UInt8) : components (slash :: path) = components path := by
  unfold components
  have split : (slash :: path).splitOn slash = [] :: path.splitOn slash :=
    splitOn_append_cons_self [] path
  rw [split, filter_cons_of_neg (by decide)]

theorem components_dropWhile (path : List UInt8) :
    components (path.dropWhile (· = slash)) = components path := by
  induction path with
  | nil => rfl
  | cons c path ih =>
    by_cases first : c = slash
    · rw [dropWhile_cons_of_pos (by simpa using first), ih, first, components_slash]
    · rw [dropWhile_cons_of_neg (by simpa using first)]

/-- A component ends at the first slash. -/
theorem components_cons {name} (rest : List UInt8) (nonempty : name ≠ []) (no : slash ∉ name) :
    components (name ++ slash :: rest) = name.take dirsiz :: components rest := by
  unfold components
  rw [splitOn_append_cons_self, splitOn_eq_singleton no, singleton_append,
    filter_cons_of_pos (by exact decide_eq_true nonempty), map_cons]

theorem components_last {name} (nonempty : name ≠ []) (no : slash ∉ name) :
    components name = [name.take dirsiz] := by
  unfold components
  rw [splitOn_eq_singleton no, filter_cons_of_pos (by exact decide_eq_true nonempty)]
  rfl

/-- The first component, and what `skipelem` leaves. -/
theorem components_name {c path} (first : c ≠ slash) :
    components (c :: path) = ((c :: path).takeWhile (· ≠ slash)).take dirsiz ::
      components (((c :: path).dropWhile (· ≠ slash)).dropWhile (· = slash)) := by
  rw [components_dropWhile]
  have nonempty : (c :: path).takeWhile (· ≠ slash) ≠ [] := by
    rw [takeWhile_cons_of_pos (by exact decide_eq_true first)]
    exact cons_ne_nil _ _
  have no : slash ∉ (c :: path).takeWhile (· ≠ slash) := fun mem =>
    of_decide_eq_true (all_eq_true.1 all_takeWhile slash mem) rfl
  have whole := takeWhile_append_dropWhile (p := fun b : UInt8 => decide (b ≠ slash))
    (l := c :: path)
  cases rest : (c :: path).dropWhile (· ≠ slash) with
  | nil =>
    rw [rest, append_nil] at whole
    rw [whole] at no ⊢
    exact components_last (cons_ne_nil _ _) no
  | cons b tail =>
    have stop : b = slash := by
      have := head_dropWhile_not (fun b : UInt8 => decide (b ≠ slash)) (l := c :: path)
        (by rw [rest]; exact cons_ne_nil _ _)
      simpa only [rest, head_cons, decide_eq_false_iff_not, not_not] using this
    rw [rest, stop] at whole
    rw [stop, components_slash, ← components_cons tail nonempty no, whole]

/-- The loop of `skipelem` reads the components. -/
theorem elements_eq_components (path : List UInt8) : elements path = components path := by
  induction len : path.length using Nat.strong_induction_on generalizing path with
  | _ k ih =>
    rw [elements_eq]
    cases next : skipelem path with
    | none =>
      unfold skipelem at next
      split at next
      · rename_i none
        rw [← components_dropWhile path, none]
        rfl
      · cases next
    | some r =>
      obtain ⟨name, rest⟩ := r
      have shorter := skipelem_shorter next
      dsimp only
      rw [ih rest.length (by omega) rest rfl]
      unfold skipelem at next
      split at next
      · cases next
      · rename_i c p tail
        cases next
        have first : ¬ c = slash := by
          have := head_dropWhile_not (fun c => decide (c = slash)) (l := path)
            (by rw [tail]; exact cons_ne_nil _ _)
          simpa only [tail, head_cons, decide_eq_false_iff_not] using this
        rw [← components_dropWhile path, tail, components_name first]

/-! ## The inode table -/

/-- The table has the inode, or an entry for it. -/
def Room (used : Finset (Fin n)) (i : Fin n) : Prop := i ∈ used ∨ used.card < ninode
  deriving Decidable

/-- The inodes in the table. -/
def inTable (s : Sys n) : Finset (Fin n) := Finset.univ.filter fun i => 0 < s.ref i

theorem iget_ok_iff : (∃ s', iget s i = .ok s') ↔ Room (inTable s) i := by
  unfold iget Room inTable
  rw [Finset.mem_filter, and_iff_right (Finset.mem_univ i)]
  split
  · rename_i pos
    exact ⟨fun _ => .inl pos, fun _ => ⟨_, rfl⟩⟩
  rename_i zero
  split
  · refine ⟨fun ⟨_, eq⟩ => ?_, fun h => ?_⟩
    · cases eq
    · rcases h with pos | room
      · exact absurd pos zero
      · omega
  · rename_i room
    exact ⟨fun _ => .inr (not_le.1 room), fun _ => ⟨_, rfl⟩⟩

theorem ilock_ok_iff (h : Acc s tmp) (pos : 0 < s.ref i) :
    (∃ s', ilock s i = .ok s') ↔ (s.ino i).type ≠ .free := by
  unfold ilock
  rw [if_neg (not_lt.2 pos)]
  split
  · rename_i valid
    exact ⟨fun _ => h.valid i pos valid, fun _ => ⟨_, rfl⟩⟩
  split
  · rename_i free
    refine ⟨fun ⟨_, eq⟩ => ?_, fun used => absurd free used⟩
    cases eq
  · rename_i live
    exact ⟨fun _ => live, fun _ => ⟨_, rfl⟩⟩

/-- The table while a call has one more reference. -/
theorem inTable_cons (h : Acc s' (ip :: tmp)) (frame : ∀ i, held s' i + tmp.count i = s.ref i) :
    inTable s' = insert ip (inTable s) := by
  ext j
  rw [Finset.mem_insert, inTable, inTable, Finset.mem_filter, Finset.mem_filter, h.refs, ← frame]
  by_cases same : j = ip
  · rw [same, count_cons_self]
    simp
  · simp [same]

/-- Only the reference to what is returned is left. -/
structure Counted (s s' : Sys n) (r : Option (Fin n)) : Prop where
  ref : ∀ i, s'.ref i = s.ref i + if r = some i then 1 else 0
  ino : s'.ino = s.ino
  ftable : s'.ftable = s.ftable
  proc : s'.proc = s.proc

theorem counted {r tmp'} (h : Acc s tmp) (same : Same tmp s s')
    (acc : Acc s' tmp') (more : tmp' = r.toList ++ tmp) : Counted s s' r := by
  refine ⟨fun i => ?_, same.ino, same.ftable, same.proc⟩
  rw [acc.refs, h.refs, same.frame.held, more, count_append, count_toList]
  omega

/-! ## What a path names -/

variable [NeZero n]

/-- One component, looked up in a directory. -/
def next (ino : Fin n → Node n) (ip : Fin n) (name : List UInt8) : Option (Fin n) :=
  if (ino ip).type = .dir then (lookup name (ino ip).slots 0).map (·.1) else none

/-- The root, or the current directory. -/
def start (cwd : Fin n) (path : List UInt8) : Fin n :=
  if path.head? = some slash then rootino else cwd

/-- The components one after the other. -/
def destination (ino : Fin n → Node n) (cwd : Fin n) (path : List UInt8) : Option (Fin n) :=
  (components path).foldlM (next ino) (start cwd path)

theorem resolve_eq (ino : Fin n → Node n) (names : List (List UInt8)) (ip : Fin n) :
    resolve ino false names ip = (names.foldlM (next ino) ip).map fun i => (i, []) := by
  induction names generalizing ip with
  | nil => rfl
  | cons name rest ih =>
    rw [resolve, foldlM_cons, next]
    by_cases dir : (ino ip).type = .dir
    · rw [if_neg (not_not.2 dir), if_neg (by simp), if_pos dir]
      cases lookup name (ino ip).slots 0 with
      | none => rfl
      | some r => exact ih r.1
    · rw [if_pos dir, if_neg dir]
      rfl

/-- The last component is looked up in what `nameiparent` returns. -/
theorem resolve_parent (ino : Fin n → Node n) {names} (some_name : names ≠ []) (ip : Fin n) :
    names.foldlM (next ino) ip = (resolve ino true names ip).bind fun r => next ino r.1 r.2 := by
  induction names generalizing ip with
  | nil => exact absurd rfl some_name
  | cons name rest ih =>
    rw [resolve, foldlM_cons]
    by_cases dir : (ino ip).type = .dir
    · rw [if_neg (not_not.2 dir)]
      by_cases last : rest = []
      · rw [if_pos ⟨rfl, last⟩, last]
        show (next ino ip name).bind some = _
        rw [Option.bind_fun_some]
        rfl
      · rw [if_neg (fun h => last h.2), next, if_pos dir]
        cases lookup name (ino ip).slots 0 with
        | none => rfl
        | some r => exact ih last r.1
    · rw [if_pos dir, next, if_neg dir]
      rfl

/-! ## When the calls return -/

/-- Along the path no directory is free, and there is room for what it leads to. -/
def Clear (ino : Fin n → Node n) (used : Finset (Fin n)) (parent : Bool) :
    List (List UInt8) → Fin n → Prop
  | [], _ => True
  | name :: rest, ip =>
    (ino ip).type ≠ .free ∧ (¬ (parent = true ∧ rest = []) → ∀ j ∈ next ino ip name,
      Room (insert ip used) j ∧ Clear ino used parent rest j)

instance Clear.decidable (ino : Fin n → Node n) (used : Finset (Fin n)) (parent : Bool) :
    ∀ (names : List (List UInt8)) (ip : Fin n), Decidable (Clear ino used parent names ip)
  | [], _ => .isTrue trivial
  | name :: rest, ip =>
    have : DecidablePred fun j => Room (insert ip used) j ∧ Clear ino used parent rest j := fun j =>
      have := Clear.decidable ino used parent rest j
      inferInstanceAs (Decidable (_ ∧ _))
    inferInstanceAs (Decidable (_ ∧ (¬ (parent = true ∧ rest = []) → ∀ j ∈ next ino ip name, _)))

def ClearPath (s : Sys n) (cwd : Fin n) (path : List UInt8) : Prop :=
  (path.head? = some slash → Room (inTable s) rootino) ∧
    Clear s.ino (inTable s) false (components path) (start cwd path)
  deriving Decidable

theorem dirlookup_dir {name} (dir : (s.ino ip).type = .dir) :
    dirlookup s ip name = match lookup name (s.ino ip).slots 0 with
      | some (i, off) => (iget s i).bind fun s => .ok (some (i, off), s)
      | none => .ok (none, s) := if_neg (not_not.2 dir)

/-- What `walk` needs of the state it starts in. -/
structure At (s s' : Sys n) (tmp : List (Fin n)) (ip : Fin n) : Prop where
  acc : Acc s' (ip :: tmp)
  backed : Backed tmp s'
  refs : ∀ i, held s' i + tmp.count i = s.ref i
  ino : s'.ino = s.ino

theorem walk_ok_iff (parent : Bool) (names : List (List UInt8)) :
    ∀ {s' : Sys n} {ip : Fin n}, At s s' tmp ip →
    ((∃ r, walk parent names s' ip = .ok r) ↔ Clear s.ino (inTable s) parent names ip) := by
  induction names with
  | nil =>
    intro s' ip _
    refine ⟨fun _ => trivial, fun _ => ?_⟩
    unfold walk
    split
    · exact ⟨_, rfl⟩
    · exact ⟨_, rfl⟩
  | cons name rest ih =>
    intro s' ip h
    have pos : 0 < s'.ref ip := h.acc.pos (mem_cons_self ..)
    unfold walk Clear
    rw [← h.ino]
    cases lock : ilock s' ip with
    | error e =>
      have free : ¬ (s'.ino ip).type ≠ .free := by
        rw [← ilock_ok_iff h.acc pos, lock]
        rintro ⟨_, eq⟩
        cases eq
      refine ⟨fun ok => ?_, fun clear => absurd clear.1 free⟩
      obtain ⟨_, eq⟩ := ok
      cases eq
    | ok s1 =>
      have used : (s'.ino ip).type ≠ .free := (ilock_ok_iff h.acc pos).1 ⟨s1, lock⟩
      obtain ⟨acc1, same1, -, -⟩ := (ilock_spec h.acc).of_ok lock
      have refs1 : ∀ i, held s1 i + tmp.count i = s.ref i := by
        intro i
        rw [same1.frame.held]
        exact h.refs i
      show (∃ r, (if (s1.ino ip).type ≠ .dir then _ else _) = Except.ok r) ↔ _
      rw [same1.ino, and_iff_right used]
      by_cases dir : (s'.ino ip).type = .dir
      swap
      · rw [if_pos dir]
        refine ⟨fun _ _ j mem => ?_, fun _ => ⟨_, rfl⟩⟩
        rw [next, if_neg dir] at mem
        cases mem
      rw [if_neg (not_not.2 dir)]
      by_cases last : parent = true ∧ rest = []
      · rw [if_pos last]
        exact ⟨fun _ more => absurd last more, fun _ => ⟨_, rfl⟩⟩
      have look : dirlookup s1 ip name = _ := dirlookup_dir (by rw [same1.ino]; exact dir)
      rw [same1.ino] at look
      rw [if_neg last, forall_prop_of_true last, next, if_pos dir, look]
      cases lookup name (s'.ino ip).slots 0 with
      | none =>
        refine ⟨fun _ j mem => ?_, fun _ => ⟨_, rfl⟩⟩
        cases mem
      | some r =>
        obtain ⟨j, off⟩ := r
        rw [← inTable_cons acc1 refs1]
        dsimp only
        cases got : iget s1 j with
        | error e =>
          refine ⟨fun ok => ?_, fun clear => ?_⟩
          · obtain ⟨_, eq⟩ := ok
            cases eq
          · obtain ⟨_, eq⟩ := iget_ok_iff.2 (clear j rfl).1
            rw [got] at eq
            cases eq
        | ok s2 =>
          obtain ⟨acc2, same2⟩ := (iget_spec acc1).of_ok got
          have backed2 := same2.backed (same1.backed h.backed)
          have put := iput_same acc2.swap backed2.cons
          have onward : At s (iput s2 ip) tmp j := by
            refine ⟨iput_acc acc2.swap, put.backed backed2, fun i => ?_, ?_⟩
            · rw [put.frame.held, same2.frame.held]
              exact refs1 i
            · rw [put.ino, same2.ino, same1.ino, h.ino]
          refine .trans (ih onward) (.intro (fun clear j' mem => ?_) fun clear => ?_)
          · obtain rfl : j = j' := Option.some.inj mem
            exact ⟨iget_ok_iff.1 ⟨s2, got⟩, h.ino ▸ clear⟩
          · exact h.ino ▸ (clear j rfl).2

theorem namex_ok_iff (h : Acc s tmp) (backed : Backed tmp s) (pos : 0 < s.ref cwd)
    (path : List UInt8)
    (parent : Bool) : (∃ r, namex s cwd path parent = .ok r) ↔
    (path.head? = some slash → Room (inTable s) rootino) ∧
      Clear s.ino (inTable s) parent (components path) (start cwd path) := by
  unfold namex start
  rw [elements_eq_components]
  split
  · rename_i absolute
    rw [forall_prop_of_true absolute]
    cases got : iget s rootino with
    | error e =>
      refine ⟨fun ok => ?_, fun clear => ?_⟩
      · obtain ⟨_, eq⟩ := ok
        cases eq
      · obtain ⟨_, eq⟩ := iget_ok_iff.2 clear.1
        rw [got] at eq
        cases eq
    | ok s1 =>
      obtain ⟨acc, same⟩ := (iget_spec h).of_ok got
      have begin : At s s1 tmp rootino := by
        refine ⟨acc, same.backed backed, fun i => ?_, same.ino⟩
        rw [same.frame.held]
        exact (h.refs i).symm
      rw [and_iff_right (iget_ok_iff.1 ⟨s1, got⟩)]
      exact walk_ok_iff parent _ begin
  · rename_i relative
    rw [and_iff_right fun absolute => absurd absolute relative]
    have same : Same tmp s (idup s cwd) := ⟨rfl, rfl, rfl, fun _ _ => id⟩
    exact walk_ok_iff parent _ ⟨h.dup pos, same.backed backed, fun i => (h.refs i).symm, rfl⟩

/-- Stopping early needs no more. -/
theorem Clear.parent {ino} : ∀ {names : List (List UInt8)} {ip : Fin n},
    Clear ino used false names ip → Clear ino used true names ip
  | [], _, _ => trivial
  | _ :: _, _, h => ⟨h.1, fun _ j mem =>
      have step := h.2 (fun no => Bool.false_ne_true no.1) j mem
      ⟨step.1, step.2.parent⟩⟩

/-- There is room for the inode of the last component. -/
theorem Clear.last {ino name dp j} (found : j ∈ next ino dp name) :
    ∀ {names : List (List UInt8)} {ip : Fin n}, Clear ino used false names ip →
      resolve ino true names ip = some (dp, name) → Room (insert dp used) j
  | [], ip, _, eq => by cases eq
  | nm :: rest, ip, clear, eq => by
    have step := clear.2 fun no => Bool.false_ne_true no.1
    unfold resolve at eq
    split at eq
    · cases eq
    rename_i dir
    split at eq
    · cases eq
      exact (step j found).1
    · obtain ⟨r, look, eq⟩ := Option.bind_eq_some_iff.1 eq
      refine Clear.last found (step r.1 ?_).2 eq
      rw [next, if_pos (not_not.1 dir), look]
      rfl

/-! ## The two calls -/

/-- Both calls return, with what the path names. -/
structure Resolves (s : Sys n) (cwd : Fin n) (path : List UInt8) : Prop where
  whole : ∃ s', namei s cwd path = .ok ((destination s.ino cwd path).map fun i => (i, []), s') ∧
    Counted s s' (destination s.ino cwd path)
  parent : ∃ r s', nameiparent s cwd path = .ok (r, s') ∧ Counted s s' (r.map (·.1)) ∧
    (components path ≠ [] → destination s.ino cwd path = r.bind fun p => next s.ino p.1 p.2) ∧
    ∀ dp name, r = some (dp, name) → (s.ino dp).type = .dir ∧
      ∃ e s'', dirlookup s' dp name = .ok (e, s'') ∧ e.map (·.1) = destination s.ino cwd path

theorem namex_counted {path parent r} (h : Acc s tmp)
    (backed : Backed tmp s) (pos : 0 < s.ref cwd) (eq : namex s cwd path parent = .ok (r, s')) :
    r = resolvePath s.ino cwd path parent ∧ Counted s s' (r.map (·.1)) ∧
      Acc s' ((r.map (·.1)).toList ++ tmp) ∧ Same tmp s s' := by
  obtain ⟨result, same, acc⟩ := (namex_spec h backed pos path parent).of_ok eq
  cases r with
  | none | some => exact ⟨result, counted h same acc rfl, acc, same⟩

/-- Both calls return what the path names if and only if the way is clear: every
directory on it is allocated, and the inode table has room for every inode on it. -/
theorem paths_resolve_iff (h : Acc s tmp) (backed : Backed tmp s) (pos : 0 < s.ref cwd)
    (path : List UInt8) : Resolves s cwd path ↔ ClearPath s cwd path := by
  constructor
  · rintro ⟨⟨s', eq, -⟩, -⟩
    exact (namex_ok_iff h backed pos path false).1 ⟨_, eq⟩
  · intro clear
    obtain ⟨⟨r, s1⟩, eq⟩ := (namex_ok_iff h backed pos path false).2 clear
    obtain ⟨⟨r', s2⟩, eq'⟩ := (namex_ok_iff h backed pos path true).2 ⟨clear.1, clear.2.parent⟩
    obtain ⟨result, refs, -, -⟩ := namex_counted h backed pos eq
    obtain ⟨result', refs', acc, same⟩ := namex_counted h backed pos eq'
    rw [resolvePath, elements_eq_components] at result result'
    replace result : r = (destination s.ino cwd path).map fun i => (i, []) :=
      result.trans (resolve_eq ..)
    have dest : (r.map (·.1)) = destination s.ino cwd path := by
      rw [result, Option.map_map]
      exact Option.map_id'
    refine ⟨⟨s1, result ▸ eq, dest ▸ refs⟩, r', s2, eq', refs', fun some_name => ?_,
      fun dp name found => ?_⟩
    · rw [result']
      exact resolve_parent s.ino some_name _
    · rw [found] at result' acc
      have dir := resolve_dir result'.symm
      have some_name : components path ≠ [] := by
        intro none
        rw [none] at result'
        cases result'
      have last : destination s.ino cwd path = next s.ino dp name := by
        rw [destination, resolve_parent s.ino some_name, start, ← result']
        rfl
      have look : dirlookup s2 dp name = _ := dirlookup_dir (by rw [same.ino]; exact dir)
      rw [same.ino] at look
      refine ⟨dir, ?_⟩
      rw [last, look]
      have room : ∀ j ∈ next s.ino dp name, Room (insert dp (inTable s)) j :=
        fun j mem => clear.2.last mem result'.symm
      rw [next, if_pos dir] at room ⊢
      cases at_name : lookup name (s.ino dp).slots 0 with
      | none => exact ⟨none, s2, rfl, rfl⟩
      | some e =>
        rw [at_name] at room
        have table : inTable s2 = insert dp (inTable s) := inTable_cons acc fun i => by
          rw [same.frame.held]
          exact (h.refs i).symm
        obtain ⟨s3, got⟩ := iget_ok_iff.2 (table ▸ room e.1 rfl)
        refine ⟨some e, s3, ?_, rfl⟩
        dsimp only
        rw [got]
        rfl

/-- `/.././/` in an empty root directory names it. -/
theorem dots_resolve : Resolves emptyRoot 1 [47, 46, 46, 47, 46, 47, 47] ∧
    destination emptyRoot.ino 1 [47, 46, 46, 47, 46, 47, 47] = some 1 := by
  have acc := emptyRoot_image.inv.good.acc
  exact ⟨(paths_resolve_iff acc acc.anchored.backed (by decide +kernel) _).2 (by decide +kernel),
    by decide +kernel⟩

/-- The panic that a computation ends in. -/
def failure {α : Type} : Except Panic α → Option Panic
  | .ok _ => none
  | .error e => some e

/-- A process makes `a` and `a/b`, changes to `a/b`, and removes both. Its `..` is
now an inode that is free, and `namei` of `../x` panics. -/
theorem removed_parent_panics : Image emptyRoot ∧ ∃ t s, Run (ByStep fileStep) emptyRoot t s ∧
    (∃ pr ∈ s.proc initp, pr.cwd = 3) ∧ destination s.ino 3 [46, 46, 47, 120] = none ∧
    failure (namei s 3 [46, 46, 47, 120]) = some .noType := by
  obtain ⟨s, run, rest⟩ := foldlM_reaches fileStep emptyRoot
    [(initp, .mkdir (some [97]) fun _ => true), (initp, .mkdir (some [97, 47, 98]) fun _ => true),
      (initp, .chdir (some [97, 47, 98])), (initp, .unlink (some [46, 46, 47, 98])),
      (initp, .unlink (some [47, 97]))]
    (P := fun s => (∃ pr ∈ s.proc initp, pr.cwd = 3) ∧
      destination s.ino 3 [46, 46, 47, 120] = none ∧ failure (namei s 3 [46, 46, 47, 120]) =
      some .noType) (by decide +kernel)
  exact ⟨emptyRoot_image, _, s, run, rest⟩

end OsProject.Xv6.PathResolution
