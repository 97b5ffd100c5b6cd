import OsProject.Lib.Count

/-! # A hierarchy with link counts

Nodes are free, directories or leaves. Directories have counted edges to their
children and an edge up; leaves may have several parents, directories have one.
Every node carries a count: of its links for a leaf, of itself and its children
that are directories for a directory, and 0 for a directory that has been taken
out. `Sound` says that the counts are right and that what is counted hangs
together; each operation keeps it. -/
namespace OsProject.Lib.Hierarchy
open Lib.Count (sum_change)
open Function (update update_of_ne update_self)

inductive Kind where
  | free | dir | leaf
  deriving DecidableEq

@[ext]
structure Nodes (κ : Type*) where
  kind : κ → Kind
  count : κ → Int
  edge : κ → κ → Nat
  up : κ → κ

variable {κ : Type*}

/-- What edges lead to from the root. -/
inductive Reach (edge : κ → κ → Nat) (root : κ) : κ → Prop
  | root : Reach edge root root
  | step {d i : κ} : Reach edge root d → edge d i ≠ 0 → Reach edge root i

variable [Fintype κ] [DecidableEq κ] {h : Nodes κ} {root d i p : κ} {edge : κ → κ → Nat}

/-- The links to a node. -/
def links (edge : κ → κ → Nat) (i : κ) : Nat := ∑ d, edge d i

/-- The children of a directory that are directories. -/
def subdirs (h : Nodes κ) (d : κ) : Nat := ∑ i, if h.kind i = .dir then h.edge d i else 0

structure Sound (h : Nodes κ) (root : κ) : Prop where
  base : h.kind root = .dir ∧ h.count root ≠ 0 ∧ h.up root = root
  edge : ∀ d i, h.edge d i ≠ 0 → h.kind d = .dir ∧ h.count d ≠ 0 ∧ h.kind i ≠ .free
  leaf : ∀ i, h.kind i = .leaf → h.count i = links h.edge i
  dir : ∀ d, h.kind d = .dir → h.count d ≠ 0 → h.count d = 1 + subdirs h d
  once : ∀ d, h.kind d = .dir → links h.edge d = if d = root ∨ h.count d = 0 then 0 else 1
  up : ∀ d, h.kind d = .dir → h.count d ≠ 0 →
    h.kind (h.up d) = .dir ∧ h.count (h.up d) ≠ 0 ∧ (d = root ∨ h.edge (h.up d) d ≠ 0)
  lost : ∀ d, h.kind d = .dir → h.count d = 0 → h.kind (h.up d) ≠ .leaf
  reach : ∀ d, h.kind d = .dir → h.count d ≠ 0 → Reach h.edge root d

/-! ## Edges -/

/-- The edges from `p` to `i` become `m`. -/
def setEdge (edge : κ → κ → Nat) (p i : κ) (m : Nat) : κ → κ → Nat :=
  update edge p (update (edge p) i m)

omit [Fintype κ] in
theorem setEdge_self {m} : setEdge edge p i m p i = m := by
  rw [setEdge, update_self, update_self]

omit [Fintype κ] in
theorem setEdge_of_ne {m d j} (ne : d ≠ p ∨ j ≠ i) : setEdge edge p i m d j = edge d j := by
  by_cases hd : d = p
  · subst hd
    have hj : j ≠ i := ne.resolve_left fun ne => ne rfl
    rw [setEdge, update_self, update_of_ne hj]
  · rw [setEdge, update_of_ne hd]

omit [Fintype κ] in
theorem setEdge_inv {m d j} (e : setEdge edge p i m d j ≠ 0) :
    d = p ∧ j = i ∧ m ≠ 0 ∨ edge d j ≠ 0 := by
  by_cases here : d = p ∧ j = i
  · rw [here.1, here.2, setEdge_self] at e
    exact .inl ⟨here.1, here.2, e⟩
  · rw [setEdge_of_ne (by rwa [← not_and_or])] at e
    exact .inr e

theorem links_setEdge (edge : κ → κ → Nat) (p i : κ) (m : Nat) :
    links (setEdge edge p i m) i + edge p i = links edge i + m := by
  have := sum_change (fun d => edge d i) (fun d => setEdge edge p i m d i) p
    fun d hd => setEdge_of_ne (.inl hd)
  rw [setEdge_self] at this
  exact this

omit [DecidableEq κ] in
theorem edge_le_links : edge d i ≤ links edge i :=
  Finset.single_le_sum (f := fun d => edge d i) (fun _ _ => zero_le) (Finset.mem_univ d)

omit [Fintype κ] [DecidableEq κ] in
/-- A node without children is only at the end of a path. -/
theorem Reach.avoid {edge'} (r : Reach edge root i) (ne : i ≠ p) (last : ∀ j, edge p j = 0)
    (same : ∀ d j, j ≠ p → edge' d j = edge d j) : Reach edge' root i := by
  induction r with
  | root => exact .root
  | @step d j _ e ih =>
    have hd : d ≠ p := by
      intro eq
      rw [eq] at e
      exact e (last j)
    exact .step (ih hd) (by rw [same d j ne]; exact e)

/-! ## Operations -/

/-- A node that no count keeps goes back. -/
def Nodes.free (h : Nodes κ) (i : κ) : Nodes κ :=
  { h with kind := update h.kind i .free }

/-- A leaf gets one more link. -/
def Nodes.addLeaf (h : Nodes κ) (p i : κ) : Nodes κ where
  kind := update h.kind i .leaf
  count := update h.count i (links h.edge i + 1)
  edge := setEdge h.edge p i (h.edge p i + 1)
  up := h.up

/-- A new directory. -/
def Nodes.addDir (h : Nodes κ) (p i : κ) (u : κ → κ) : Nodes κ where
  kind := update h.kind i .dir
  count := update (update h.count i 1) p (h.count p + 1)
  edge := setEdge h.edge p i (h.edge p i + 1)
  up := u

/-- A leaf loses a link. -/
def Nodes.dropLeaf (h : Nodes κ) (p i : κ) : Nodes κ :=
  { h with
    count := update h.count i (h.count i - 1)
    edge := setEdge h.edge p i (h.edge p i - 1) }

/-- An empty directory is taken out. -/
def Nodes.dropDir (h : Nodes κ) (p i : κ) : Nodes κ :=
  { h with
    count := update (update h.count p (h.count p - 1)) i 0
    edge := setEdge h.edge p i (h.edge p i - 1) }

namespace Sound

theorem no_edge_to_free (s : Sound h root) (free : h.kind i = .free) (d : κ) : h.edge d i = 0 := by
  by_contra e
  exact (s.edge d i e).2.2 free

theorem no_edge_from (s : Sound h root) (hi : h.kind i ≠ .dir ∨ h.count i = 0) (j : κ) :
    h.edge i j = 0 := by
  by_contra e
  obtain ⟨dir, count, -⟩ := s.edge i j e
  rcases hi with hi | hi
  · exact hi dir
  · exact count hi

/-- Nothing links to a node with count 0. -/
theorem unlinked (s : Sound h root) (used : h.kind i ≠ .free) (zero : h.count i = 0) (d : κ) :
    h.edge d i = 0 := by
  have none : links h.edge i = 0 := by
    cases kind : h.kind i with
    | free => exact absurd kind used
    | leaf =>
      have := s.leaf i kind
      omega
    | dir => rw [s.once i kind, if_pos (.inr zero)]
  have le : h.edge d i ≤ links h.edge i := edge_le_links
  omega

/-- Only directories have a way up, and free nodes have no count. -/
theorem congr {h'} (s : Sound h root) (kind : h'.kind = h.kind) (edge : h'.edge = h.edge)
    (count : ∀ i, h.kind i ≠ .free → h'.count i = h.count i)
    (up : ∀ d, h.kind d = .dir → h'.up d = h.up d) : Sound h' root := by
  have of_dir : ∀ {d}, h.kind d = .dir → h'.count d = h.count d := fun dir =>
    count _ (by rw [dir]; exact nofun)
  have same : ∀ d, subdirs h' d = subdirs h d := fun d => by simp only [subdirs, kind, edge]
  refine ⟨?_, fun d i e => ?_, fun i leaf => ?_, fun d dir linked => ?_, fun d dir => ?_,
    fun d dir linked => ?_, fun d dir zero => ?_, fun d dir linked => ?_⟩
  all_goals simp only [kind, edge] at *
  · rw [of_dir s.base.1, up root s.base.1]
    exact s.base
  · obtain ⟨dir, linked, used⟩ := s.edge d i e
    rw [of_dir dir]
    exact ⟨dir, linked, used⟩
  · rw [count i (by rw [leaf]; exact nofun)]
    exact s.leaf i leaf
  · rw [of_dir dir] at linked ⊢
    rw [same]
    exact s.dir d dir linked
  · rw [of_dir dir]
    exact s.once d dir
  · rw [of_dir dir] at linked
    obtain ⟨dir', linked', e⟩ := s.up d dir linked
    rw [up d dir, of_dir dir']
    exact ⟨dir', linked', e⟩
  · rw [of_dir dir] at zero
    rw [up d dir]
    exact s.lost d dir zero
  · rw [of_dir dir] at linked
    exact s.reach d dir linked

/-- What a child adds to the count of a directory. -/
def part (h : Nodes κ) (d i : κ) : Nat := if h.kind i = .dir then h.edge d i else 0

omit [Fintype κ] [DecidableEq κ] in
theorem part_dir (dir : h.kind i = .dir) : part h d i = h.edge d i := if_pos dir

omit [Fintype κ] [DecidableEq κ] in
theorem part_plain (plain : h.kind i ≠ .dir) : part h d i = 0 := if_neg plain

/-- Only the node `i`, which has no children, the edges to it and the counts of directories over it
are changed. -/
structure Change (h h' : Nodes κ) (root i : κ) : Prop where
  away : root ≠ i
  bare : ∀ j, h.edge i j = 0
  kind : ∀ j, j ≠ i → h'.kind j = h.kind j
  up : ∀ d, d ≠ i → h'.up d = h.up d
  edge : ∀ d j, j ≠ i → h'.edge d j = h.edge d j
  into : ∀ d, h'.edge d i ≠ 0 → d ≠ i ∧ h.kind d = .dir ∧ h.count d ≠ 0 ∧ h'.kind i ≠ .free
  zero : ∀ j, j ≠ i → (h'.count j = 0 ↔ h.count j = 0)
  leaf : ∀ j, j ≠ i → h.kind j = .leaf → h'.count j = h.count j
  dir : ∀ d, d ≠ i → h.kind d = .dir → h'.count d + part h d i = h.count d + part h' d i
  above : ∀ d, h.kind d = .dir → h.count d = 0 → h.up d = i → h'.kind i ≠ .leaf
  isLeaf : h'.kind i = .leaf → h'.count i = links h'.edge i
  isDir : h'.kind i = .dir → h'.count i ≠ 0 →
    h'.count i = 1 ∧ links h'.edge i = 1 ∧ h'.edge (h'.up i) i ≠ 0
  isLost : h'.kind i = .dir → h'.count i = 0 → links h'.edge i = 0 ∧ h'.kind (h'.up i) ≠ .leaf

variable (s : Sound h root)
include s

theorem change {h'} (c : Change h h' root i) : Sound h' root := by
  have links_ne : ∀ {j}, j ≠ i → links h'.edge j = links h.edge j := fun hj =>
    Finset.sum_congr rfl fun d _ => c.edge d _ hj
  have from_ne : ∀ {d j}, h.edge d j ≠ 0 → d ≠ i := by
    rintro d j e rfl
    exact e (c.bare j)
  have reach_ne : ∀ {d}, d ≠ i → h.kind d = .dir → h.count d ≠ 0 → Reach h'.edge root d :=
    fun hd dir count => (s.reach _ dir count).avoid hd c.bare c.edge
  refine ⟨?_, fun d j e => ?_, fun j kind => ?_, fun d kind count => ?_, fun d kind => ?_,
    fun d kind count => ?_, fun d kind count => ?_, fun d kind count => ?_⟩
  · rw [c.kind _ c.away, Ne, c.zero _ c.away, c.up _ c.away]
    exact s.base
  · by_cases hj : j = i
    · subst hj
      obtain ⟨hd, dir, count, used⟩ := c.into d e
      rw [c.kind d hd, Ne, c.zero d hd]
      exact ⟨dir, count, used⟩
    · rw [c.edge d j hj] at e
      rw [c.kind d (from_ne e), Ne, c.zero d (from_ne e), c.kind j hj]
      exact s.edge d j e
  · by_cases hj : j = i
    · subst hj
      exact c.isLeaf kind
    · rw [c.kind j hj] at kind
      rw [c.leaf j hj kind, s.leaf j kind, links_ne hj]
  · by_cases hd : d = i
    · subst hd
      have none : subdirs h' d = 0 := by
        refine Finset.sum_eq_zero fun j _ => ?_
        have no_edge : h'.edge d j = 0 := by
          by_cases hj : j = d
          · subst hj
            exact by_contra fun e => (c.into j e).1 rfl
          · rw [c.edge d j hj, c.bare]
        rw [no_edge, ite_self]
      rw [none, (c.isDir kind count).1]
      rfl
    · rw [c.kind d hd] at kind
      rw [Ne, c.zero d hd] at count
      have more : subdirs h' d + part h d i = subdirs h d + part h' d i :=
        sum_change (part h d) (part h' d) i fun j hj => by
          rw [part, part, c.kind j hj, c.edge d j hj]
      have old := s.dir d kind count
      have new := c.dir d hd kind
      omega
  · by_cases hd : d = i
    · subst hd
      by_cases count : h'.count d = 0
      · rw [if_pos (.inr count), (c.isLost kind count).1]
      · rw [if_neg (not_or.2 ⟨c.away.symm, count⟩), (c.isDir kind count).2.1]
    · rw [c.kind d hd] at kind
      simp only [links_ne hd, c.zero d hd, s.once d kind]
  · by_cases hd : d = i
    · subst hd
      have e := (c.isDir kind count).2.2
      obtain ⟨hu, dir, count', -⟩ := c.into _ e
      rw [c.kind _ hu, Ne, c.zero _ hu]
      exact ⟨dir, count', .inr e⟩
    · rw [c.kind d hd] at kind
      rw [Ne, c.zero d hd] at count
      obtain ⟨dir, count', edge⟩ := s.up d kind count
      -- a node without children is nobody's parent
      have hu : h.up d ≠ i := edge.elim (fun eq => by rw [eq, s.base.2.2]; exact c.away) from_ne
      rw [c.up d hd, c.kind _ hu, Ne, c.zero _ hu, c.edge _ d hd]
      exact ⟨dir, count', edge⟩
  · by_cases hd : d = i
    · subst hd
      exact (c.isLost kind count).2
    · rw [c.kind d hd] at kind
      rw [c.zero d hd] at count
      rw [c.up d hd]
      by_cases eq : h.up d = i
      · rw [eq]
        exact c.above d kind count eq
      · rw [c.kind _ eq]
        exact s.lost d kind count
  · by_cases hd : d = i
    · subst hd
      have e := (c.isDir kind count).2.2
      obtain ⟨hu, dir, count', -⟩ := c.into _ e
      exact .step (reach_ne hu dir count') e
    · rw [c.kind d hd] at kind
      rw [Ne, c.zero d hd] at count
      exact reach_ne hd kind count

theorem root_ne (hi : h.kind i ≠ .dir ∨ h.count i = 0) : root ≠ i := by
  rintro rfl
  exact hi.elim (fun plain => plain s.base.1) s.base.2.1

theorem free (used : h.kind i ≠ .free) (zero : h.count i = 0) : Sound (h.free i) root := by
  have none := s.unlinked used zero
  have kind_i : (h.free i).kind i = .free := update_self ..
  have plain : ∀ {k}, k ≠ .free → (h.free i).kind i ≠ k := fun ne eq => ne (eq.symm.trans kind_i)
  exact s.change (i := i)
    { away := s.root_ne (.inr zero)
      bare := s.no_edge_from (.inr zero)
      kind := fun _ hj => update_of_ne hj ..
      up := fun _ _ => rfl
      edge := fun _ _ _ => rfl
      into := fun d e => absurd (none d) e
      zero := fun _ _ => .rfl
      leaf := fun _ _ _ => rfl
      dir := fun d _ _ => by
        have before : part h d i = 0 := by rw [part, none, ite_self]
        rw [before, part_plain (plain nofun)]
        rfl
      above := fun _ _ _ _ => plain nofun
      isLeaf := fun leaf => absurd leaf (plain nofun)
      isDir := fun dir => absurd dir (plain nofun)
      isLost := fun dir => absurd dir (plain nofun) }

theorem addLeaf (hp : h.kind p = .dir) (cp : h.count p ≠ 0)
    (hi : h.kind i ≠ .dir) (orphan : ∀ d, h.kind d = .dir → h.count d = 0 → h.up d ≠ i) :
    Sound (h.addLeaf p i) root := by
  have kind_i : (h.addLeaf p i).kind i = .leaf := update_self ..
  have plain : (h.addLeaf p i).kind i ≠ .dir := by rw [kind_i]; exact nofun
  have count_ne : ∀ j, j ≠ i → (h.addLeaf p i).count j = h.count j := fun _ hj => update_of_ne hj ..
  have bare := s.no_edge_from (.inl hi)
  exact s.change (i := i)
    { away := s.root_ne (.inl hi)
      bare := bare
      kind := fun _ hj => update_of_ne hj ..
      up := fun _ _ => rfl
      edge := fun _ _ hj => setEdge_of_ne (.inr hj)
      into := fun d e => by
        rw [kind_i]
        rcases setEdge_inv e with ⟨rfl, -, -⟩ | e
        · exact ⟨fun eq => hi (eq ▸ hp), hp, cp, nofun⟩
        · obtain ⟨dir, count, -⟩ := s.edge d i e
          exact ⟨fun eq => hi (eq ▸ dir), dir, count, nofun⟩
      zero := fun j hj => by rw [count_ne j hj]
      leaf := fun j hj _ => count_ne j hj
      dir := fun d hd _ => by rw [part_plain hi, part_plain plain, count_ne d hd]
      above := fun d dir count eq => absurd eq (orphan d dir count)
      isLeaf := fun _ => by
        have sum : links (h.addLeaf p i).edge i + h.edge p i = links h.edge i + (h.edge p i + 1) :=
          links_setEdge ..
        have count : (h.addLeaf p i).count i = links h.edge i + 1 := update_self ..
        omega
      isDir := fun dir => absurd dir plain
      isLost := fun dir => absurd dir plain }

theorem addDir {u} (hp : h.kind p = .dir) (cp : h.count p ≠ 0)
    (hi : h.kind i = .free) (hu : u = update h.up i p) : Sound (h.addDir p i u) root := by
  have plain : h.kind i ≠ .dir := by rw [hi]; exact nofun
  have pi : p ≠ i := fun eq => plain (eq ▸ hp)
  have new : ∀ d, h.edge d i = 0 := s.no_edge_to_free hi
  have kind_i : (h.addDir p i u).kind i = .dir := update_self ..
  have count_i : (h.addDir p i u).count i = 1 := (update_of_ne pi.symm ..).trans (update_self ..)
  have count_p : (h.addDir p i u).count p = h.count p + 1 := update_self ..
  have count_ne : ∀ {j}, j ≠ i → j ≠ p → (h.addDir p i u).count j = h.count j := fun hi hp =>
    (update_of_ne hp ..).trans (update_of_ne hi ..)
  have edge_p : (h.addDir p i u).edge p i = 1 := setEdge_self.trans (by rw [new])
  have edge_ne : ∀ {d}, d ≠ p → (h.addDir p i u).edge d i = 0 := fun hd =>
    (setEdge_of_ne (.inl hd)).trans (new _)
  have sum : links (h.addDir p i u).edge i + h.edge p i = links h.edge i + (h.edge p i + 1) :=
    links_setEdge ..
  have none : links h.edge i = 0 := Finset.sum_eq_zero fun d _ => new d
  have top : (h.addDir p i u).up i = p := by
    show u i = p
    rw [hu, update_self]
  exact s.change (i := i)
    { away := s.root_ne (.inl plain)
      bare := s.no_edge_from (.inl plain)
      kind := fun _ hj => update_of_ne hj ..
      up := fun d hd => by
        show u d = h.up d
        rw [hu, update_of_ne hd]
      edge := fun _ _ hj => setEdge_of_ne (.inr hj)
      into := fun d e => by
        obtain rfl : d = p := by_contra fun hd => e (edge_ne hd)
        exact ⟨pi, hp, cp, by rw [kind_i]; exact nofun⟩
      zero := fun j hj => by
        by_cases eq : j = p
        · have := s.dir p hp cp
          rw [eq, count_p]
          omega
        · rw [count_ne hj eq]
      leaf := fun j hj leaf => count_ne hj fun eq => by
        rw [eq, hp] at leaf
        cases leaf
      dir := fun d hd _ => by
        rw [part_plain plain, part_dir kind_i]
        by_cases eq : d = p
        · rw [eq, count_p, edge_p]
          omega
        · rw [count_ne hd eq, edge_ne eq]
      above := fun _ _ _ _ => by rw [kind_i]; exact nofun
      isLeaf := fun leaf => absurd (kind_i.symm.trans leaf) nofun
      isDir := fun _ _ => ⟨count_i, by omega, by rw [top, edge_p]; exact one_ne_zero⟩
      isLost := fun _ zero => absurd (count_i.symm.trans zero) one_ne_zero }

theorem dropLeaf (hi : h.kind i = .leaf) (e : h.edge p i ≠ 0) : Sound (h.dropLeaf p i) root := by
  have plain : h.kind i ≠ .dir := by rw [hi]; exact nofun
  have count_ne : ∀ j, j ≠ i → (h.dropLeaf p i).count j = h.count j :=
    fun _ hj => update_of_ne hj ..
  exact s.change (i := i)
    { away := s.root_ne (.inl plain)
      bare := s.no_edge_from (.inl plain)
      kind := fun _ _ => rfl
      up := fun _ _ => rfl
      edge := fun _ _ hj => setEdge_of_ne (.inr hj)
      into := fun d e' => by
        have old : h.edge d i ≠ 0 := (setEdge_inv e').elim (fun here => here.1 ▸ e) id
        obtain ⟨dir, count, used⟩ := s.edge d i old
        exact ⟨fun eq => plain (eq ▸ dir), dir, count, used⟩
      zero := fun j hj => by rw [count_ne j hj]
      leaf := fun j hj _ => count_ne j hj
      dir := fun d hd _ => by
        rw [part_plain plain, part_plain (h := h.dropLeaf p i) plain, count_ne d hd]
      above := fun d dir zero eq => absurd hi (eq ▸ s.lost d dir zero)
      isLeaf := fun _ => by
        have old := s.leaf i hi
        have sum : links (h.dropLeaf p i).edge i + h.edge p i = links h.edge i + (h.edge p i - 1) :=
          links_setEdge ..
        have count : (h.dropLeaf p i).count i = h.count i - 1 := update_self ..
        omega
      isDir := fun dir => absurd dir plain
      isLost := fun dir => absurd dir plain }

theorem dropDir (hi : h.kind i = .dir) (e : h.edge p i ≠ 0)
    (empty : ∀ j, h.edge i j = 0) : Sound (h.dropDir p i) root := by
  obtain ⟨hp, cp, -⟩ := s.edge p i e
  have pi : p ≠ i := by
    rintro rfl
    exact e (empty p)
  have le : ∀ d, h.edge d i ≤ links h.edge i := fun d => edge_le_links
  have once := s.once i hi
  have linked_i : ¬ (i = root ∨ h.count i = 0) := by
    intro or
    have := le p
    rw [if_pos or] at once
    omega
  rw [if_neg linked_i] at once
  have one : h.edge p i = 1 := by
    have := le p
    omega
  have count_i : (h.dropDir p i).count i = 0 := update_self ..
  have count_p : (h.dropDir p i).count p = h.count p - 1 :=
    (update_of_ne pi ..).trans (update_self ..)
  have count_ne : ∀ {j}, j ≠ i → j ≠ p → (h.dropDir p i).count j = h.count j := fun hi hp =>
    (update_of_ne hi ..).trans (update_of_ne hp ..)
  have sum : links (h.dropDir p i).edge i + h.edge p i = links h.edge i + (h.edge p i - 1) :=
    links_setEdge ..
  have none : links (h.dropDir p i).edge i = 0 := by omega
  have no_edge : ∀ d, (h.dropDir p i).edge d i = 0 := fun d =>
    Nat.le_zero.1 (none ▸ edge_le_links)
  exact s.change (i := i)
    { away := fun eq => linked_i (.inl eq.symm)
      bare := empty
      kind := fun _ _ => rfl
      up := fun _ _ => rfl
      edge := fun _ _ hj => setEdge_of_ne (.inr hj)
      into := fun d e' => absurd (no_edge d) e'
      zero := fun j hj => by
        by_cases eq : j = p
        · have children := s.dir p hp cp
          have : part h p i ≤ subdirs h p :=
            Finset.single_le_sum (f := part h p) (fun _ _ => zero_le) (Finset.mem_univ i)
          rw [part_dir hi] at this
          rw [eq, count_p]
          omega
        · rw [count_ne hj eq]
      leaf := fun j hj leaf => count_ne hj fun eq => by
        rw [eq, hp] at leaf
        cases leaf
      dir := fun d hd _ => by
        rw [part_dir hi, part_dir (h := h.dropDir p i) hi, no_edge]
        by_cases eq : d = p
        · rw [eq, count_p, one]
          omega
        · have other : (h.dropDir p i).edge d i = h.edge d i := setEdge_of_ne (.inl eq)
          rw [count_ne hd eq, ← other, no_edge]
      above := fun _ _ _ _ => by
        show h.kind i ≠ .leaf
        rw [hi]
        exact nofun
      isLeaf := fun leaf => absurd (hi.symm.trans leaf) nofun
      isDir := fun _ count => absurd count_i count
      isLost := fun _ _ => ⟨none, by
        show h.kind (h.up i) ≠ .leaf
        rw [(s.up i hi fun zero => linked_i (.inr zero)).1]
        exact nofun⟩ }


end Sound

end OsProject.Lib.Hierarchy
