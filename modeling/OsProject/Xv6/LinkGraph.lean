import OsProject.Lib.Hierarchy
import OsProject.Xv6.Files
import Mathlib.Algebra.BigOperators.Group.Finset.Piecewise

/-! # The hierarchy of files and directories

What the inodes on the disk are as a hierarchy: the edges are the entries behind
`.` and `..`, the way up is the entry `..`, and the counts are the fields `nlink`.
The updates that the system calls make are operations on it. -/
namespace OsProject.Xv6.LinkGraph
open Lib.Hierarchy (Nodes Sound setEdge)
open Lib Files
open List hiding lookup
open Function (update update_of_ne update_self update_eq_self)

variable {n : Nat} [NeZero n] {ino : Fin n → Node n} {i j d dp : Fin n} {x : Node n}

def kindOf : Kind → Hierarchy.Kind
  | .free => .free
  | .dir => .dir
  | .file | .device => .leaf

/-- The entries of a directory for `i`, without `.` and `..`. -/
def names (x : Node n) (i : Fin n) : Nat :=
  if i = 0 then 0 else (x.slots.drop 2).countP fun e => e.inum = i

/-- The entry `..`. -/
def up (x : Node n) : Fin n :=
  match x.slots with
  | _ :: e :: _ => e.inum
  | _ => 0

def view (ino : Fin n → Node n) : Nodes (Fin n) where
  kind i := kindOf (ino i).type
  count i := (ino i).nlink.toInt
  edge d i := names (ino d) i
  up d := up (ino d)

/-- Directories start with `.` and `..`, and nothing else has entries. -/
structure Formed (i : Fin n) (x : Node n) : Prop where
  zero : i = 0 → x.type = .free
  plain : x.type ≠ .dir → x.slots = []
  dots : x.type = .dir → ∃ rest, x.slots = ⟨i, [dot]⟩ :: ⟨up x, [dot, dot]⟩ :: rest
  above : x.type = .dir → up x ≠ 0
  size : x.slots.length ≤ maxSlots

structure Graph (ino : Fin n → Node n) : Prop where
  formed : ∀ i, Formed i (ino i)
  sound : Sound (view ino) rootino

variable {k : Kind} {a : Int16} {e : Dirent n} {room : Bool} {l l' : List (Dirent n)}
  {name : List UInt8} {off : Nat}

theorem kindOf_dir : kindOf k = .dir ↔ k = .dir := by
  cases k <;> simp [kindOf]

theorem kindOf_free : kindOf k = .free ↔ k = .free := by
  cases k <;> simp [kindOf]

theorem kindOf_leaf (used : k ≠ .free) (plain : k ≠ .dir) : kindOf k = .leaf := by
  cases k with
  | free => exact absurd rfl used
  | dir => exact absurd rfl plain
  | file => rfl
  | device => rfl

theorem toInt_eq_zero : a.toInt = 0 ↔ a = 0 := by
  rw [← Int16.toInt_inj]
  rfl

theorem names_nil (nil : x.slots = []) : names x i = 0 := by
  unfold names
  rw [nil]
  split <;> rfl

theorem up_nil (nil : x.slots = []) : up x = 0 := by
  unfold up
  rw [nil]

/-! ## Entries -/

/-- A new entry, as a count. -/
theorem fillSlot_count (he : e.inum ≠ 0) (hj : j ≠ 0) :
    ∀ {l l' : List (Dirent n)}, fillSlot e l = some l' →
      l'.countP (fun x => x.inum = j) =
        l.countP (fun x => x.inum = j) + (if e.inum = j then 1 else 0) ∧
      l'.length = l.length
  | [], l', h => by cases h
  | x :: xs, l', h => by
    unfold fillSlot at h
    split at h
    · rename_i free
      cases h
      have nx : ¬ x.inum = j := fun eq => hj (eq.symm.trans free)
      refine ⟨?_, rfl⟩
      rw [countP_cons, countP_cons]
      simp [nx]
    · obtain ⟨l, hl, rfl⟩ := Option.map_eq_some_iff.1 h
      obtain ⟨count, len⟩ := fillSlot_count he hj hl
      rw [countP_cons, countP_cons, count, length_cons, length_cons, len]
      exact ⟨by omega, rfl⟩

theorem addSlot_count (he : e.inum ≠ 0) (hj : j ≠ 0) (h : addSlot room e l = some l') :
    l'.countP (fun x => x.inum = j) = l.countP (fun x => x.inum = j) + if e.inum = j then 1
      else 0 := by
  unfold addSlot at h
  split at h
  · rename_i filled
    cases h
    exact (fillSlot_count he hj filled).1
  · split at h
    · cases h
      simp
    · cases h

theorem addSlot_length (he : e.inum ≠ 0) (fits : l.length ≤ maxSlots)
    (h : addSlot room e l = some l') : l'.length ≤ maxSlots := by
  unfold addSlot at h
  split at h
  · rename_i filled
    cases h
    rw [(fillSlot_count he he filled).2]
    exact fits
  · split at h
    · rename_i go
      cases h
      rw [length_append]
      exact go.2
    · cases h

/-- `.` and `..` are in use, so they stay. -/
theorem addSlot_dots {a b rest} (ha : a.inum ≠ 0) (hb : b.inum ≠ 0)
    (h : addSlot room e (a :: b :: rest) = some l') : ∃ rest', l' = a :: b :: rest' := by
  unfold addSlot at h
  split at h
  · rename_i filled
    cases h
    simp only [fillSlot, if_neg ha, if_neg hb, Option.map_map] at filled
    obtain ⟨rest', -, rfl⟩ := Option.map_eq_some_iff.1 filled
    exact ⟨rest', rfl⟩
  · split at h
    · exact ⟨_, (Option.some.inj h).symm⟩
    · cases h

/-- A cleared entry, as a count. -/
theorem set_count (hj : j ≠ 0) :
    ∀ {l : List (Dirent n)} {off : Nat} {e : Dirent n}, l[off]? = some e →
    (l.set off ⟨0, []⟩).countP (fun x => x.inum = j) + (if e.inum = j then 1 else 0) =
      l.countP fun x => x.inum = j
  | [], _, _, h => by cases h
  | x :: xs, 0, e, h => by
    obtain rfl : x = e := Option.some.inj h
    rw [set_cons_zero, countP_cons, countP_cons]
    simp [hj.symm]
  | x :: xs, off + 1, e, h => by
    rw [getElem?_cons_succ] at h
    have := set_count hj h
    rw [set_cons_succ, countP_cons, countP_cons]
    omega

theorem lookup_some : ∀ {l : List (Dirent n)} {k off : Nat},
    lookup name l k = some (i, off) → i ≠ 0 ∧ k ≤ off ∧ ∃ e, l[off - k]? = some e ∧ e.inum = i
  | [], _, _, h => by cases h
  | e :: es, k, off, h => by
    unfold lookup at h
    split at h
    · rename_i found
      cases h
      exact ⟨found.1, le_refl _, e, by rw [Nat.sub_self]; rfl, rfl⟩
    · obtain ⟨ne, le, e', at_off, inum⟩ := lookup_some h
      refine ⟨ne, by omega, e', ?_, inum⟩
      rw [show off - k = (off - (k + 1)) + 1 by omega, getElem?_cons_succ]
      exact at_off

/-- Other names are found behind `.` and `..`. -/
theorem lookup_dots {a b : Fin n} {rest} (h1 : ¬ namecmp name [dot])
    (h2 : ¬ namecmp name [dot, dot]) :
    lookup name (⟨a, [dot]⟩ :: ⟨b, [dot, dot]⟩ :: rest) 0 = lookup name rest 2 := by
  simp [lookup, h1, h2]

/-! ## Operations -/

theorem view_update : view (update ino i x) =
    { kind := update (view ino).kind i (kindOf x.type)
      count := update (view ino).count i x.nlink.toInt
      edge := update (view ino).edge i (names x)
      up := update (view ino).up i (up x) } := by
  ext j
  all_goals
    by_cases hj : j = i
    · subst hj
      simp only [view, update_self]
    · simp only [view, update_of_ne hj]

omit [NeZero n] in
theorem update_same {α : Type*} {f : Fin n → α} {v} (same : f i = v) : update f i v = f := by
  rw [← same, update_eq_self]

/-- An inode that stays what it is. -/
theorem view_change (kind : x.type = (ino i).type) (top : up x = up (ino i)) :
    view (update ino i x) = { view ino with
      count := update (view ino).count i x.nlink.toInt
      edge := update (view ino).edge i (names x) } := by
  have kind' : (view ino).kind i = kindOf x.type := congrArg kindOf kind.symm
  have top' : (view ino).up i = up x := top.symm
  rw [view_update, update_same kind', update_same top']

theorem formed_update (h : ∀ i, Formed i (ino i)) (hx : Formed i x) (j : Fin n) :
    Formed j (update ino i x j) := by
  by_cases hj : j = i
  · rw [hj, update_self]
    exact hx
  · rw [update_of_ne hj]
    exact h j

/-- `iput` of an inode without links. -/
theorem Graph.free (h : Graph ino) (used : (ino i).type ≠ .free) (zero : (ino i).nlink = 0) :
    Graph (update ino i (ino i).freed) := by
  have zero' : (view ino).count i = 0 := toInt_eq_zero.2 zero
  refine ⟨formed_update h.formed ⟨fun _ => rfl, fun _ => rfl, nofun, nofun, zero_le⟩, ?_⟩
  have bare : (view ino).edge i = names (ino i).freed := by
    funext j
    rw [names_nil rfl]
    exact h.sound.no_edge_from (.inr zero') j
  have count : (view ino).count i = (ino i).freed.nlink.toInt := rfl
  rw [view_update, update_same count, update_same bare]
  refine (h.sound.free (fun free => used (kindOf_free.1 free)) zero').congr rfl rfl (fun _ _ => rfl)
    fun d dir => update_of_ne (fun eq => ?_) ..
  have free : ((view ino).free i).kind i = .free := update_self ..
  rw [eq, free] at dir
  cases dir

/-- The contents of files do not matter. -/
theorem Graph.data {bytes} (h : Graph ino) : Graph (update ino i { ino i with data := bytes }) := by
  have same : view (update ino i { ino i with data := bytes }) = view ino := by
    rw [view_change (i := i) (x := { ino i with data := bytes }) rfl rfl]
    have count : (view ino).count i = (ino i).nlink.toInt := rfl
    have edge : (view ino).edge i = names { ino i with data := bytes } := rfl
    rw [update_same count, update_same edge]
  refine ⟨formed_update h.formed { h.formed i with }, ?_⟩
  rw [same]
  exact h.sound

/-- A free inode may have other fields. -/
theorem Graph.refree (h : Graph ino) (free : (ino i).type = .free) (free_x : x.type = .free)
    (nil : x.slots = []) : Graph (update ino i x) := by
  have plain : (ino i).type ≠ .dir := by
    rw [free]
    exact nofun
  refine ⟨formed_update h.formed ⟨fun _ => free_x, fun _ => nil, fun dir => ?_, fun dir => ?_, ?_⟩,
    ?_⟩
  · rw [free_x] at dir
    cases dir
  · rw [free_x] at dir
    cases dir
  · rw [nil]
    exact zero_le
  have kind : (view ino).kind i = kindOf x.type := by
    rw [free_x]
    exact kindOf_free.2 free
  have edge : (view ino).edge i = names x := funext fun j =>
    (names_nil ((h.formed i).plain plain)).trans (names_nil nil).symm
  rw [view_update, update_same kind, update_same edge]
  refine h.sound.congr rfl rfl (fun j used => update_of_ne (fun eq => ?_) ..)
    fun d dir => update_of_ne (fun eq => ?_) ..
  · exact used (eq ▸ kindOf_free.2 free)
  · exact plain (eq ▸ kindOf_dir.1 dir)

/-- What `dirlink` does to a directory. -/
theorem names_addSlot (hi : i ≠ 0) (hd : d ≠ 0) (hf : Formed d x) (dir : x.type = .dir)
    (h : addSlot room ⟨i, name⟩ x.slots = some l) :
    names { x with slots := l } = update (names x) i (names x i + 1) ∧
      up { x with slots := l } = up x ∧ Formed d { x with slots := l } := by
  obtain ⟨rest, dots⟩ := hf.dots dir
  have h' := h
  rw [dots] at h
  obtain ⟨rest', rfl⟩ := addSlot_dots hd (hf.above dir) h
  refine ⟨?_, rfl, ⟨fun zero => absurd zero hd, fun plain => absurd dir plain,
    fun _ => ⟨rest', rfl⟩, fun _ => hf.above dir, addSlot_length hi hf.size h'⟩⟩
  funext j
  by_cases hj : j = 0
  · rw [hj, update_of_ne hi.symm]
    rfl
  · have count := addSlot_count hi hj h
    simp only [countP_cons] at count
    have here : names { x with slots := ⟨d, [dot]⟩ :: ⟨up x, [dot, dot]⟩ :: rest' } j =
        names x j + if i = j then 1 else 0 := by
      simp only [names, if_neg hj, dots, drop_succ_cons, drop_zero]
      omega
    rw [here]
    by_cases eq : j = i
    · rw [eq, update_self, if_pos rfl]
    · rw [update_of_ne eq, if_neg (Ne.symm eq)]
      rfl

theorem names_plain (hf : Formed i x) (plain : x.type ≠ .dir) : names x = fun _ => 0 :=
  funext fun _ => names_nil (hf.plain plain)

theorem ne_zero_of_used (hf : Formed i x) (used : x.type ≠ .free) : i ≠ 0 :=
  fun zero => used (hf.zero zero)

/-- A new file, or a new link to one. -/
theorem Graph.addLeaf (h : Graph ino) (dir : (ino dp).type = .dir) (linked : (ino dp).nlink ≠ 0)
    (hi : i ≠ 0) (old : (ino i).type ≠ .dir) (used : x.type ≠ .free) (plain : x.type ≠ .dir)
    (nil : x.slots = []) (count : x.nlink.toInt = Hierarchy.links (view ino).edge i + 1)
    (orphan : ∀ d, (ino d).type = .dir → (ino d).nlink = 0 → up (ino d) ≠ i)
    (add : addSlot room ⟨i, name⟩ (ino dp).slots = some l) :
    Graph (update (update ino i x) dp { ino dp with slots := l }) := by
  have hd : dp ≠ i := by
    rintro rfl
    exact old dir
  have used_dp : (ino dp).type ≠ .free := by
    rw [dir]
    exact nofun
  obtain ⟨edges, upd, formed⟩ := names_addSlot hi (ne_zero_of_used (h.formed dp) used_dp)
    (h.formed dp) dir add
  have formed_x : Formed i x :=
    ⟨fun zero => absurd zero hi, fun _ => nil, fun dir => absurd dir plain,
      fun dir => absurd dir plain, by rw [nil]; exact zero_le⟩
  refine ⟨formed_update (formed_update h.formed formed_x) formed, ?_⟩
  have eq : view (update (update ino i x) dp { ino dp with slots := l }) =
      (view ino).addLeaf dp i := by
    rw [view_update, view_update]
    have none : (view ino).edge i = names x := (names_plain (h.formed i) old).trans
      (names_plain formed_x plain).symm
    have bottom : (view ino).up i = up x :=
      (up_nil ((h.formed i).plain old)).trans (up_nil nil).symm
    have top : (view ino).up dp = up { ino dp with slots := l } := upd.symm
    rw [Nodes.addLeaf, update_same none, update_same bottom, update_same top, edges, count,
      kindOf_leaf used plain]
    congr 1
    · exact update_same (update_of_ne hd ..)
    · exact update_same (update_of_ne hd ..)
  rw [eq]
  exact h.sound.addLeaf (kindOf_dir.2 dir) (fun zero => linked (toInt_eq_zero.1 zero))
    (fun dir => old (kindOf_dir.1 dir)) fun d dir zero =>
    orphan d (kindOf_dir.1 dir) (toInt_eq_zero.1 zero)

theorem toInt_succ (lt : a.toInt < 32767) : (a + 1).toInt = a.toInt + 1 := by
  have ge := a.le_toInt
  rw [Int16.toInt_add, show (1 : Int16).toInt = 1 from rfl]
  exact Int.bmod_eq_of_le (by omega) (by omega)

theorem toInt_pred (gt : -32768 < a.toInt) : (a - 1).toInt = a.toInt - 1 := by
  have lt := a.toInt_lt
  rw [Int16.toInt_sub, show (1 : Int16).toInt = 1 from rfl]
  exact Int.bmod_eq_of_le (by omega) (by omega)

omit [NeZero n] in
theorem sum_countP (l : List (Dirent n)) : ∑ i, l.countP (fun e => e.inum = i) = l.length := by
  induction l with
  | nil => simp
  | cons e l ih =>
    simp only [countP_cons, Finset.sum_add_distrib, ih, decide_eq_true_eq, Finset.sum_ite_eq,
      Finset.mem_univ, if_true, length_cons]

theorem subdirs_le : Hierarchy.subdirs (view ino) d ≤ (ino d).slots.length := by
  calc Hierarchy.subdirs (view ino) d
      ≤ ∑ i, ((ino d).slots.drop 2).countP (fun e => e.inum = i) := by
        refine Finset.sum_le_sum fun i _ => ?_
        split
        · show names (ino d) i ≤ _
          unfold names
          split
          · exact zero_le
          · exact Nat.le_refl _
        · exact zero_le
    _ = ((ino d).slots.drop 2).length := sum_countP _
    _ ≤ (ino d).slots.length := by rw [length_drop]; exact Nat.sub_le ..

/-- A linked directory counts itself and its subdirectories, far below 2¹⁵. -/
theorem Graph.nlink_dir (h : Graph ino) (dir : (ino d).type = .dir) (linked : (ino d).nlink ≠ 0) :
    (ino d).nlink.toInt = 1 + Hierarchy.subdirs (view ino) d ∧ (ino d).nlink.toInt < 32767 := by
  have count := h.sound.dir d (kindOf_dir.2 dir) fun zero => linked (toInt_eq_zero.1 zero)
  have le : Hierarchy.subdirs (view ino) d ≤ maxSlots := subdirs_le.trans (h.formed d).size
  have max : maxSlots = 17152 := rfl
  refine ⟨count, ?_⟩
  change (ino d).nlink.toInt = _ at count
  omega

/-- A new directory. -/
theorem Graph.addDir (h : Graph ino) (dir : (ino dp).type = .dir) (linked : (ino dp).nlink ≠ 0)
    (hi : i ≠ 0) (free : (ino i).type = .free) (dir_x : x.type = .dir) (one : x.nlink = 1)
    (dots : x.slots = [⟨i, [dot]⟩, ⟨dp, [dot, dot]⟩])
    (add : addSlot room ⟨i, name⟩ (ino dp).slots = some l) : Graph (update (update ino i x) dp
      { ino dp with slots := l, nlink := (ino dp).nlink + 1 }) := by
  have hd : dp ≠ i := by
    rintro rfl
    rw [dir] at free
    cases free
  have plain : (ino i).type ≠ .dir := by
    rw [free]
    exact nofun
  have used_dp : (ino dp).type ≠ .free := by
    rw [dir]
    exact nofun
  have hdp := ne_zero_of_used (h.formed dp) used_dp
  obtain ⟨edges, upd, formed⟩ := names_addSlot hi hdp (h.formed dp) dir add
  have up_x : up x = dp := by
    unfold up
    rw [dots]
  have formed_x : Formed i x := by
    refine ⟨fun zero => absurd zero hi, fun plain => absurd dir_x plain,
      fun _ => ⟨[], by rw [up_x, dots]⟩, fun _ => by rw [up_x]; exact hdp, ?_⟩
    rw [dots]
    show 2 ≤ maxSlots
    decide
  refine ⟨formed_update (formed_update h.formed formed_x) { formed with }, ?_⟩
  have eq : view (update (update ino i x) dp
      { ino dp with slots := l, nlink := (ino dp).nlink + 1 }) =
      (view ino).addDir dp i (update (view ino).up i dp) := by
    rw [view_update, view_update]
    have none : (view ino).edge i = names x := by
      refine (names_plain (h.formed i) plain).trans (funext fun j => ?_)
      unfold names
      rw [dots]
      split <;> rfl
    have top : update (view ino).up i dp dp =
        up { ino dp with slots := l, nlink := (ino dp).nlink + 1 } :=
      (update_of_ne hd ..).trans upd.symm
    have edges' : names { ino dp with slots := l, nlink := (ino dp).nlink + 1 } =
        update (names (ino dp)) i (names (ino dp) i + 1) := edges
    rw [Nodes.addDir, update_same none, up_x, update_same top, edges', one, kindOf_dir.2 dir_x,
      toInt_succ (h.nlink_dir dir linked).2]
    congr 1
    exact update_same (update_of_ne hd ..)
  rw [eq]
  exact h.sound.addDir (kindOf_dir.2 dir) (fun zero => linked (toInt_eq_zero.1 zero))
    (kindOf_free.2 free) rfl

/-- What `sys_unlink` does to the directory. -/
theorem names_clear (hf : Formed d x) (dir : x.type = .dir) (hi : i ≠ 0) (two : 2 ≤ off)
    (at_off : x.slots[off]? = some e) (inum : e.inum = i) :
    names { x with slots := x.slots.set off ⟨0, []⟩ } = update (names x) i (names x i - 1) ∧
      names x i ≠ 0 ∧ up { x with slots := x.slots.set off ⟨0, []⟩ } = up x ∧
      Formed d { x with slots := x.slots.set off ⟨0, []⟩ } := by
  obtain ⟨rest, dots⟩ := hf.dots dir
  obtain ⟨k, rfl⟩ := Nat.exists_eq_add_of_le' two
  rw [dots, getElem?_cons_succ, getElem?_cons_succ] at at_off
  have set : x.slots.set (k + 2) ⟨0, []⟩ =
      ⟨d, [dot]⟩ :: ⟨up x, [dot, dot]⟩ :: rest.set k ⟨0, []⟩ := by
    rw [dots]
    rfl
  have keep : up { x with slots := x.slots.set (k + 2) ⟨0, []⟩ } = up x := by
    rw [set]
    rfl
  have count : ∀ j, j ≠ 0 → names { x with slots := x.slots.set (k + 2) ⟨0, []⟩ } j +
      (if i = j then 1 else 0) = names x j := by
    intro j hj
    have := set_count hj at_off
    simp only [names, if_neg hj, dots, drop_succ_cons, drop_zero]
    rw [inum] at this
    exact this
  refine ⟨funext fun j => ?_, ?_, keep, ⟨fun zero => hf.zero zero, fun plain => absurd dir plain,
    fun _ => ⟨_, by rw [keep]; exact set⟩, fun _ => by rw [keep]; exact hf.above dir, ?_⟩⟩
  · by_cases hj : j = 0
    · rw [hj, update_of_ne hi.symm]
      rfl
    · have := count j hj
      by_cases eq : j = i
      · subst eq
        rw [if_pos rfl] at this
        rw [update_self]
        omega
      · rw [update_of_ne eq]
        rw [if_neg (Ne.symm eq)] at this
        exact this
  · have := count i hi
    rw [if_pos rfl] at this
    omega
  · rw [length_set]
    exact hf.size

/-- What it does to the hierarchy. -/
theorem view_unlink {m c c'} (hd : i ≠ dp) (top : up { ino dp with slots := l } = up (ino dp))
    (edges : names { ino dp with slots := l } = update (names (ino dp)) i m) :
    view (update (update ino dp { ino dp with slots := l, nlink := c }) i
      { ino i with nlink := c' }) = { view ino with
        count := update (update (view ino).count dp c.toInt) i c'.toInt
        edge := setEdge (view ino).edge dp i m } := by
  have here : update ino dp { ino dp with slots := l, nlink := c } i = ino i := update_of_ne hd ..
  have edges' : names { ino dp with slots := l, nlink := c } = update (names (ino dp)) i m := edges
  rw [view_change (by rw [here]) (by rw [here]; rfl),
    view_change (i := dp) (x := { ino dp with slots := l, nlink := c }) rfl top, edges']
  dsimp only
  congr 1
  exact update_same (update_of_ne hd ..)

/-- A link to a file goes. -/
theorem Graph.dropLeaf (h : Graph ino) (dir : (ino dp).type = .dir) (used : (ino i).type ≠ .free)
    (plain : (ino i).type ≠ .dir) (two : 2 ≤ off) (at_off : (ino dp).slots[off]? = some e)
    (inum : e.inum = i) (pos : 0 < (ino i).nlink.toInt) : Graph (update (update ino dp
      { ino dp with slots := (ino dp).slots.set off ⟨0, []⟩ }) i
      { ino i with nlink := (ino i).nlink - 1 }) := by
  have hd : i ≠ dp := by
    rintro rfl
    exact plain dir
  obtain ⟨edges, some_edge, upd, formed⟩ := names_clear (h.formed dp) dir
    (ne_zero_of_used (h.formed i) used) two at_off inum
  refine ⟨formed_update (formed_update h.formed formed) { h.formed i with }, ?_⟩
  have same : update (view ino).count dp (ino dp).nlink.toInt = (view ino).count :=
    update_eq_self ..
  rw [view_unlink hd upd edges, toInt_pred (by omega), same]
  exact h.sound.dropLeaf (kindOf_leaf used plain) some_edge

/-- An empty directory goes. -/
theorem Graph.dropDir (h : Graph ino) (dir : (ino dp).type = .dir) (dir_i : (ino i).type = .dir)
    (empty : ∀ j, names (ino i) j = 0) (two : 2 ≤ off) (at_off : (ino dp).slots[off]? = some e)
    (inum : e.inum = i) : Graph (update (update ino dp
      { ino dp with slots := (ino dp).slots.set off ⟨0, []⟩, nlink := (ino dp).nlink - 1 }) i
      { ino i with nlink := (ino i).nlink - 1 }) := by
  have used : (ino i).type ≠ .free := by
    rw [dir_i]
    exact nofun
  obtain ⟨edges, some_edge, upd, formed⟩ := names_clear (h.formed dp) dir
    (ne_zero_of_used (h.formed i) used) two at_off inum
  have hd : i ≠ dp := by
    rintro rfl
    exact some_edge (empty i)
  obtain ⟨-, linked_dp, -⟩ := h.sound.edge dp i some_edge
  have count_i : (ino i).nlink ≠ 0 := by
    intro zero
    exact some_edge (h.sound.unlinked (fun free => used (kindOf_free.1 free))
      (toInt_eq_zero.2 zero) dp)
  have one : (ino i).nlink.toInt = 1 := by
    have none : Hierarchy.subdirs (view ino) i = 0 := Finset.sum_eq_zero fun j _ => by
      rw [show (view ino).edge i j = 0 from empty j, ite_self]
    rw [(h.nlink_dir dir_i count_i).1, none]
    rfl
  have nlink_dp := (h.nlink_dir dir fun zero => linked_dp (toInt_eq_zero.2 zero)).1
  refine ⟨formed_update (formed_update h.formed { formed with }) { h.formed i with }, ?_⟩
  rw [view_unlink hd upd edges, toInt_pred (by omega), toInt_pred (by omega), one]
  exact h.sound.dropDir (kindOf_dir.2 dir_i) some_edge empty

end OsProject.Xv6.LinkGraph
