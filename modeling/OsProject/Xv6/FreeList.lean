import Mathlib.Data.List.Pairwise
import OsProject.Xv6.Malloc

/-! # The free list of malloc

What `free` and `carve` do to a free list, read as a circular list of blocks with gaps
between them: one lemma for the block that comes in and one for each way a block goes out. -/
namespace OsProject.Xv6.Malloc
open Lib Lib.Cycle Memory Sbrk List
open Function (update update_of_ne update_self update_idem)

/-- The size of the block at `p`. -/
def sz (h : Nat → Hdr) (p : Nat) : Nat := (h p).size.toNat

/-- The units of the blocks `rest`. -/
def Covers (h : Nat → Hdr) (rest : List Nat) (a : Nat) : Prop := ∃ p ∈ rest, p ≤ a ∧ a < p + sz h p

/-- Two blocks with a gap between them, in this order. -/
def Gap (h : Nat → Hdr) (p q : Nat) : Prop := p + sz h p < q

section gaps
variable {h h' : Nat → Hdr} {base bp p q n : Nat} {rest pre post : List Nat}

theorem Gap.lt (g : Gap h p q) : p < q := lt_of_le_of_lt (Nat.le_add_right ..) g

theorem gaps_sorted {l : List Nat} (g : l.Pairwise (Gap h)) : l.Pairwise (· < ·) := g.imp Gap.lt

theorem gaps_congr {l : List Nat} (g : l.Pairwise (Gap h)) (same : ∀ p ∈ l, sz h' p = sz h p) :
    l.Pairwise (Gap h') := by
  induction l with
  | nil => exact .nil
  | cons p l ih =>
    obtain ⟨first, g⟩ := pairwise_cons.1 g
    refine pairwise_cons.2 ⟨fun q mem => ?_, ih g fun q mem => same q (mem_cons_of_mem p mem)⟩
    unfold Gap
    rw [same p mem_cons_self]
    exact first q mem

theorem sz_congr (same : h' p = h p) : sz h' p = sz h p := congrArg (fun r => r.size.toNat) same

/-- Two blocks of the list have a gap between them, in one order or the other. -/
theorem gaps_apart {l : List Nat} (g : l.Pairwise (Gap h)) (mem : p ∈ l) (mem' : q ∈ l)
    (ne : p ≠ q) : Gap h p q ∨ Gap h q p := by
  have : Std.Symm fun p q => Gap h p q ∨ Gap h q p := ⟨fun _ _ => .symm⟩
  have sym : l.Pairwise fun p q => Gap h p q ∨ Gap h q p := g.imp .inl
  exact sym.forall mem mem' ne

/-- The nodes on the two sides of a place in a sorted list. -/
theorem split_sorted {l : List Nat} (sorted : l.Pairwise (· < ·)) (out : bp ∉ l) :
    ∃ pre post, l = pre ++ post ∧ (∀ p ∈ pre, p < bp) ∧ ∀ q ∈ post, bp < q := by
  induction l with
  | nil => exact ⟨[], [], rfl, fun _ no => absurd no not_mem_nil, fun _ no => absurd no not_mem_nil⟩
  | cons x l ih =>
    obtain ⟨first, sorted⟩ := pairwise_cons.1 sorted
    have ne : bp ≠ x := fun eq => out (eq ▸ mem_cons_self)
    by_cases lt : x < bp
    · obtain ⟨pre, post, rfl, low, high⟩ := ih sorted fun mem => out (mem_cons_of_mem x mem)
      refine ⟨x :: pre, post, rfl, fun p mem => ?_, high⟩
      obtain rfl | mem := mem_cons.1 mem
      · exact lt
      · exact low p mem
    · refine ⟨[], x :: l, rfl, fun _ no => absurd no not_mem_nil, fun q mem => ?_⟩
      obtain rfl | mem := mem_cons.1 mem
      · omega
      · exact lt_trans (by omega) (first q mem)

/-- The same with the node before the place. -/
theorem split_place (sorted : (base :: rest).Pairwise (· < ·)) (low : base < bp) (out : bp ∉ rest) :
    ∃ pre p post, base :: rest = pre ++ p :: post ∧ (∀ x ∈ pre, x < p) ∧ p < bp ∧
      ∀ q ∈ post, bp < q := by
  obtain ⟨front, post, rfl, before, after⟩ := split_sorted (pairwise_cons.1 sorted).2 out
  obtain ⟨pre, p, eq⟩ : ∃ pre p, base :: front = pre ++ [p] :=
    ⟨(base :: front).dropLast, (base :: front).getLast (cons_ne_nil _ _),
      (dropLast_append_getLast (cons_ne_nil _ _)).symm⟩
  have split : base :: (front ++ post) = pre ++ p :: post := by
    rw [← cons_append, eq, append_assoc]
    rfl
  refine ⟨pre, p, post, split, ?_, ?_, after⟩
  · rw [split, pairwise_append] at sorted
    intro x mem
    exact sorted.2.2 x mem p mem_cons_self
  · have mem : p ∈ base :: front := eq ▸ mem_append_right pre mem_cons_self
    obtain rfl | mem := mem_cons.1 mem
    · exact low
    · exact before p mem

/-- The loop of `free` stops at the node before the place. -/
theorem place_iff (listed : Listed h base rest) (split : base :: rest = pre ++ p :: post)
    (lt : p < bp)
    (after : ∀ q ∈ post, bp < q) (low : base < bp) (y : Nat) (mem : y ∈ base :: rest) :
    place h bp y = true ↔ y = p := by
  have sorted := gaps_sorted listed.ordered
  obtain ⟨lead, tail⟩ := (path_split split).1 listed.circular
  have least : ∀ x ∈ base :: rest, base ≤ x := by
    intro x mem
    obtain rfl | mem := mem_cons.1 mem
    · exact le_refl _
    · exact le_of_lt ((pairwise_cons.1 sorted).1 x mem)
  unfold place
  rw [decide_eq_true_iff]
  constructor
  · -- a node before `p` leads to one that is not beyond `bp`, and one behind it is beyond
    intro stop
    by_contra ne
    rw [split, mem_append, mem_cons] at mem
    rw [split, pairwise_append, pairwise_cons] at sorted
    obtain before | rfl | behind := mem
    · obtain ⟨a, b, rfl⟩ := append_of_mem before
      have lead' : (h y).ptr ≤ p ∧ y < (h y).ptr := by
        obtain ⟨nil, -⟩ | ⟨xs, eq, path⟩ := lead
        · exact absurd nil (by simp)
        · have whole := (path_split eq.symm).1 path
          cases b with
          | nil =>
            have next : (h y).ptr = p := whole.2
            rw [next]
            exact ⟨le_refl p, sorted.2.2 y before p mem_cons_self⟩
          | cons z b =>
            have next : (h y).ptr = z := whole.2.1
            rw [next]
            refine ⟨le_of_lt (sorted.2.2 z (by simp) p mem_cons_self), ?_⟩
            have inner := sorted.1
            rw [pairwise_append, pairwise_cons] at inner
            exact inner.2.1.1 z mem_cons_self
      omega
    · exact ne rfl
    · have far := after y behind
      obtain ⟨a, b, rfl⟩ := append_of_mem behind
      obtain ⟨-, path⟩ := path_append.1 tail
      cases b with
      | nil =>
        have next : (h y).ptr = base := path
        omega
      | cons z b =>
        have next : (h y).ptr = z := path.1
        have inner := sorted.2.1.2
        rw [pairwise_append, pairwise_cons] at inner
        have up := inner.2.1.1 z mem_cons_self
        omega
  · rintro rfl
    cases post with
    | nil =>
      have next : (h y).ptr = base := tail
      have le := least y mem
      omega
    | cons q post =>
      have next : (h y).ptr = q := tail.1
      have far := after q mem_cons_self
      omega

end gaps

/-! ## A block comes in -/

section insert
variable {h : Nat → Hdr} {base bp p n : Nat} {pre post : List Nat}

/-- The header of the new block once it is joined to the block behind it, or linked to it. -/
structure JoinedUp (h h1 : Nat → Hdr) (base bp p : Nat) (post post1 : List Nat) : Prop where
  path : Path (fun x => (h1 x).ptr) bp post1 base
  gaps : (bp :: post1).Pairwise (Gap h1)
  sub : post1.Sublist post
  same : ∀ x, x ≠ bp → h1 x = h x
  covers : ∀ a, Covers h1 (bp :: post1) a ↔ (bp ≤ a ∧ a < bp + sz h bp) ∨ Covers h post a
  larger : sz h bp ≤ sz h1 bp

theorem covers_cons {l a} : Covers h (p :: l) a ↔ (p ≤ a ∧ a < p + sz h p) ∨ Covers h l a := by
  unfold Covers
  rw [exists_mem_cons_iff]

theorem covers_congr {h' l} (same : ∀ x ∈ l, sz h' x = sz h x) (a : Nat) :
    Covers h' l a ↔ Covers h l a := by
  refine exists_congr fun x => and_congr_right fun mem => ?_
  rw [same x mem]

theorem joinUp_spec (tail : Path (fun x => (h x).ptr) p post base) (gaps : post.Pairwise (Gap h))
    (after : ∀ q ∈ post, bp + sz h bp ≤ q) (pos : 0 < sz h bp) (pne : p ≠ bp) (low : base < bp)
    (fits : ∀ q ∈ post, sz h bp + sz h q < 4294967296) :
    ∃ post1, JoinedUp h (joinUp h bp p) base bp p post post1 := by
  have apart : ∀ q ∈ post, q ≠ bp := by
    intro q mem eq
    have := after q mem
    omega
  unfold joinUp
  split
  · rename_i up
    cases post with
    | nil =>
      have next : (h p).ptr = base := tail
      omega
    | cons q post =>
      have next : (h p).ptr = q := tail.1
      obtain ⟨first, gaps⟩ := pairwise_cons.1 gaps
      have qne := apart q mem_cons_self
      rw [next] at up ⊢
      -- the new header: the sum of the two sizes, and the pointer of the block behind
      have new : setPtr (setSize h bp ((h bp).size + (h q).size)) bp
          ((setSize h bp ((h bp).size + (h q).size))
          ((setSize h bp ((h bp).size + (h q).size)) p).ptr).ptr =
          update h bp ⟨(h q).ptr, (h bp).size + (h q).size⟩ := by
        unfold setPtr setSize
        rw [update_of_ne pne, next, update_of_ne qne, update_self, update_idem]
      rw [new]
      have same : ∀ x, x ≠ bp → update h bp ⟨(h q).ptr, (h bp).size + (h q).size⟩ x = h x :=
        fun x ne => update_of_ne ne _ _
      have size : sz (update h bp ⟨(h q).ptr, (h bp).size + (h q).size⟩) bp = sz h bp + sz h q := by
        have := fits q mem_cons_self
        unfold sz at *
        rw [update_self, UInt32.toNat_add]
        omega
      refine ⟨post, ?_, ?_, sublist_cons_self q post, same, fun a => ?_, by omega⟩
      · refine tail.2.rehead ?_ fun y mem => ?_
        · rw [update_self]
        · rw [same y (apart y (mem_cons_of_mem q mem))]
      · refine pairwise_cons.2 ⟨fun y mem => ?_, gaps_congr gaps fun y mem => ?_⟩
        · have gap := first y mem
          unfold Gap at gap ⊢
          unfold sz at *
          omega
        · exact sz_congr (same y (apart y (mem_cons_of_mem q mem)))
      · rw [covers_cons, covers_cons, size,
          covers_congr (h := h) (fun x mem => sz_congr (same x (apart x (mem_cons_of_mem q mem)))),
          ← or_assoc]
        refine or_congr_left ?_
        unfold sz at *
        omega
  · have same : ∀ x, x ≠ bp → setPtr h bp (h p).ptr x = h x := fun x ne => update_of_ne ne _ _
    have size : ∀ x, sz (setPtr h bp (h p).ptr) x = sz h x :=
      fun x => congrArg UInt32.toNat (setPtr_size ..)
    refine ⟨post, ?_, ?_, List.Sublist.refl _, same, fun a => ?_, le_of_eq (size bp).symm⟩
    · refine tail.rehead (setPtr_self_ptr ..) fun y mem => ?_
      rw [same y (apart y mem)]
    · refine pairwise_cons.2 ⟨fun y mem => ?_, gaps_congr gaps fun y _ => size y⟩
      unfold Gap
      rw [size]
      -- the first block behind is not adjacent, and the others are beyond it
      cases post with
      | nil => exact absurd mem not_mem_nil
      | cons q post =>
        have next : (h p).ptr = q := tail.1
        have firstFar := after q mem_cons_self
        obtain rfl | mem := mem_cons.1 mem
        · unfold sz at *
          omega
        · have gap := (pairwise_cons.1 gaps).1 y mem
          unfold Gap at gap
          omega
    · rw [covers_cons, size, covers_congr fun x _ => size x]

theorem covers_append {l l' a} : Covers h (l ++ l') a ↔ Covers h l a ∨ Covers h l' a := by
  unfold Covers
  simp only [mem_append, or_and_right, exists_or]

/-- The list once the new block is joined to the block before it, or linked behind it. -/
structure JoinedDown (h h1 h2 : Nat → Hdr) (base bp p : Nat) (pre post1 post2 : List Nat) :
    Prop where
  lead : Lead (fun x => (h2 x).ptr) base pre p
  path : Path (fun x => (h2 x).ptr) p post2 base
  gaps : (pre ++ p :: post2).Pairwise (Gap h2)
  nodes : post2 = post1 ∨ post2 = bp :: post1
  same : ∀ x, x ≠ p → h2 x = h1 x
  covers : ∀ a, Covers h2 (pre ++ p :: post2) a ↔ Covers h pre a ∨ (p ≤ a ∧ a < p + sz h p) ∨
    Covers h1 (bp :: post1) a
  larger : sz h p ≤ sz h2 p
  apart : p + sz h p < bp → sz h2 p = sz h p

section down
variable {h1 : Nat → Hdr} {post1 : List Nat}

theorem pre_apart (gaps : (pre ++ [p]).Pairwise (Gap h)) (lt : p < bp) :
    ∀ x ∈ pre, x ≠ p ∧ x ≠ bp := by
  intro x mem
  have := ((pairwise_append.1 gaps).2.2 x mem p mem_cons_self).lt
  omega

variable (up : JoinedUp h h1 base bp p post post1)
include up

theorem JoinedUp.post_apart (later : ∀ q ∈ post, bp < q) (lt : p < bp) :
    ∀ x ∈ post1, x ≠ p ∧ bp < x := by
  intro x mem
  have := later x (up.sub.subset mem)
  omega

/-- The header of `p` alone changes; what is left is its pointer and its size. -/
theorem JoinedDown.of_header {h2 : Nat → Hdr} {post2}
    (lead : Lead (fun x => (h x).ptr) base pre p) (gaps : (pre ++ [p]).Pairwise (Gap h))
    (later : ∀ q ∈ post, bp < q) (lt : p < bp) (same : ∀ x, x ≠ p → h2 x = h1 x)
    (path : Path (fun x => (h2 x).ptr) p post2 base) (nodes : post2 = post1 ∨ post2 = bp :: post1)
    (far : ∀ y ∈ post2, p + sz h2 p < y) (larger : sz h p ≤ sz h2 p)
    (apart : p + sz h p < bp → sz h2 p = sz h p)
    (covers : ∀ a, Covers h2 (p :: post2) a ↔ (p ≤ a ∧ a < p + sz h p) ∨
      Covers h1 (bp :: post1) a) :
    JoinedDown h h1 h2 base bp p pre post1 post2 := by
  have size : ∀ x, x ≠ p → sz h2 x = sz h1 x := fun x ne => sz_congr (same x ne)
  have pre_size : ∀ x ∈ pre, sz h2 x = sz h x := by
    intro x mem
    obtain ⟨ne, ne'⟩ := pre_apart gaps lt x mem
    exact (size x ne).trans (sz_congr (up.same x ne'))
  refine ⟨?_, path, ?_, nodes, same, ?_, larger, apart⟩
  · refine lead.congr fun x mem => ?_
    obtain ⟨ne, ne'⟩ := pre_apart gaps lt x mem
    rw [same x ne, up.same x ne']
  · refine pairwise_append.2 ⟨gaps_congr (pairwise_append.1 gaps).1 pre_size, ?_, ?_⟩
    · refine pairwise_cons.2 ⟨far, ?_⟩
      obtain rfl | rfl := nodes
      · exact gaps_congr (pairwise_cons.1 up.gaps).2 fun x mem =>
          size x (up.post_apart later lt x mem).1
      · refine gaps_congr up.gaps fun x mem => ?_
        obtain rfl | mem := mem_cons.1 mem
        · exact size x (Nat.ne_of_gt lt)
        · exact size x (up.post_apart later lt x mem).1
    · intro x mem y mem'
      have gap := (pairwise_append.1 gaps).2.2 x mem p mem_cons_self
      unfold Gap at gap ⊢
      rw [pre_size x mem]
      obtain rfl | mem' := mem_cons.1 mem'
      · exact gap
      · have := far y mem'
        omega
  · intro a
    rw [covers_append, covers_congr pre_size, covers]

theorem joinDown_spec (lead : Lead (fun x => (h x).ptr) base pre p)
    (gaps : (pre ++ [p]).Pairwise (Gap h)) (before : p + sz h p ≤ bp) (lt : p < bp)
    (later : ∀ q ∈ post, bp < q) (fits : sz h p + sz h1 bp < 4294967296) :
    ∃ post2, JoinedDown h h1 (joinDown h1 bp p) base bp p pre post1 post2 := by
  have pne : p ≠ bp := ne_of_lt lt
  have post_ne := up.post_apart later lt
  have old : h1 p = h p := up.same p pne
  have first := (pairwise_cons.1 up.gaps).1
  unfold joinDown
  rw [old]
  split
  · rename_i down
    have new : setPtr (setSize h1 p ((h p).size + (h1 bp).size)) p
        (setSize h1 p ((h p).size + (h1 bp).size) bp).ptr =
        update h1 p ⟨(h1 bp).ptr, (h p).size + (h1 bp).size⟩ := by
      unfold setPtr setSize
      rw [update_of_ne pne.symm, update_self, update_idem]
    rw [new]
    have same : ∀ x, x ≠ p → update h1 p ⟨(h1 bp).ptr, (h p).size + (h1 bp).size⟩ x = h1 x :=
      fun x ne => update_of_ne ne _ _
    have size : sz (update h1 p ⟨(h1 bp).ptr, (h p).size + (h1 bp).size⟩) p =
        sz h p + sz h1 bp := by
      unfold sz at *
      rw [update_self, UInt32.toNat_add]
      omega
    have sum : p + sz h p = bp := down
    refine ⟨post1, JoinedDown.of_header up lead gaps later lt same ?_ (.inl rfl) ?_ (by omega)
      (fun _ => by omega) ?_⟩
    · refine up.path.rehead ?_ fun y mem => ?_
      · rw [update_self]
      · rw [same y (post_ne y mem).1]
    · intro y mem
      have gap := first y mem
      unfold Gap at gap
      omega
    · intro a
      rw [covers_cons, covers_cons, size,
        covers_congr (h := h1) (fun x mem => sz_congr (same x (post_ne x mem).1)), ← or_assoc]
      refine or_congr_left ?_
      omega
  · rename_i no
    have same : ∀ x, x ≠ p → setPtr h1 p bp x = h1 x := fun x ne => update_of_ne ne _ _
    have size : sz (setPtr h1 p bp) p = sz h p := by
      unfold sz
      rw [setPtr_size, old]
    have gap : p + sz h p < bp := lt_of_le_of_ne before no
    have node : ∀ y ∈ bp :: post1, setPtr h1 p bp y = h1 y := by
      intro y mem
      obtain rfl | mem := mem_cons.1 mem
      · exact same y pne.symm
      · exact same y (post_ne y mem).1
    refine ⟨bp :: post1,
      JoinedDown.of_header up lead gaps later lt same ?_ (.inr rfl) ?_ (le_of_eq size.symm)
      (fun _ => size) ?_⟩
    · exact ⟨setPtr_self_ptr .., up.path.congr fun y mem => congrArg Hdr.ptr (node y mem)⟩
    · intro y mem
      rw [size]
      obtain rfl | mem := mem_cons.1 mem
      · exact gap
      · have := (post_ne y mem).2
        omega
    · intro a
      rw [covers_cons, size, covers_congr (h := h1) fun x mem => sz_congr (node x mem)]

end down

end insert

end OsProject.Xv6.Malloc
