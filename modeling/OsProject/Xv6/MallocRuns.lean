import Mathlib.Data.List.Perm.Subperm
import OsProject.Xv6.FreeList

/-! # Runs of malloc and free

The invariant of the heap: memory that is mapped up to the break, a free list with gaps, and
blocks in use beside it. Each call keeps it as long as no request is too large for an `int`. -/
namespace OsProject.Xv6.Malloc
open Lib Lib.Transition Lib.Cycle Memory Sbrk List
open Function (update update_of_ne update_self)

/-- The break at the start, in units. -/
def Layout.lo (L : Layout) : Nat := L.mem.sz / unit

/-- The address space: mapped up to the break and not beyond its page. -/
structure Space (L : Layout) (s : Heap) : Prop where
  whole : s.mem.sz % unit = 0
  grown : L.mem.sz ≤ s.mem.sz
  ram : s.mem.sz ≤ physPages * pgSize
  top : ∀ v, pgroundup s.mem.sz / pgSize ≤ v → s.mem.pages v = none
  pages : ∀ a, a < s.brk → L.lo ≤ a ∨ a = L.base → mapped s.mem a = true

/-- The free list. -/
structure Free (L : Layout) (s : Heap) (rest : List Nat) : Prop where
  listed : Listed s.hdr L.base rest
  empty : sz s.hdr L.base = 0
  inside : ∀ p ∈ rest, L.lo ≤ p ∧ 0 < sz s.hdr p ∧ p + sz s.hdr p ≤ s.brk

/-- The blocks in use. -/
structure Used (L : Layout) (s : Heap) (rest : List Nat) : Prop where
  blocks : ∀ b ∈ s.live, 0 < b.units ∧ L.lo ≤ b.addr ∧ b.addr + b.units ≤ s.brk ∧
    sz s.hdr b.addr = b.units
  large : ∀ b ∈ s.live, b.nbytes ≤ (b.units - 1) * unit
  apart : s.live.Pairwise Block.Apart
  clear : ∀ b ∈ s.live, ∀ a, Covers s.hdr rest a → ¬ (b.addr ≤ a ∧ a < b.addr + b.units)

section space
variable {L : Layout} {s : Heap} {rest : List Nat} {f p bp : Nat}

theorem base_lt (L : Layout) : L.base < L.lo := by
  have low := L.low
  unfold Layout.lo unit at *
  omega

theorem Space.lo_le (sp : Space L s) : L.lo ≤ s.brk := Nat.div_le_div_right sp.grown

theorem Space.brk_le (sp : Space L s) : s.brk ≤ 8388608 := by
  have ram := sp.ram
  unfold Heap.brk unit physPages pgSize at *
  omega

theorem Free.ordered (fr : Free L s rest) : (L.base :: rest).Pairwise (Gap s.hdr) :=
  fr.listed.ordered

section free
variable (sp : Space L s) (fr : Free L s rest)

include fr in
/-- A list that holds all nodes is no shorter than the free list. -/
theorem Free.length_le_of_subset {l} (sub : L.base :: rest ⊆ l) :
    (L.base :: rest).length ≤ l.length := by
  have nodup : (L.base :: rest).Nodup := (gaps_sorted fr.ordered).imp ne_of_lt
  exact (subperm_of_subset nodup sub).length_le

include fr in
theorem Free.size_le : ∀ p ∈ L.base :: rest, sz s.hdr p ≤ s.brk := by
  intro p mem
  obtain rfl | mem := mem_cons.1 mem
  · rw [fr.empty]
    exact Nat.zero_le _
  · have := fr.inside p mem
    omega

include sp fr

theorem Free.lt_brk : ∀ p ∈ L.base :: rest, p < s.brk := by
  intro p mem
  obtain rfl | mem := mem_cons.1 mem
  · exact lt_of_lt_of_le (base_lt L) sp.lo_le
  · have := fr.inside p mem
    omega

/-- A free list is no longer than the loops allow for. -/
theorem Free.length_le : (L.base :: rest).length ≤ s.brk := by
  have le := fr.length_le_of_subset fun p mem => mem_range.2 (fr.lt_brk sp p mem)
  rwa [length_range] at le

theorem Free.mapped : ∀ p ∈ L.base :: rest, mapped s.mem p = true := by
  intro p mem
  refine sp.pages p (fr.lt_brk sp p mem) ?_
  obtain rfl | mem := mem_cons.1 mem
  · exact .inr rfl
  · exact .inl (fr.inside p mem).1

end free

theorem covers_self (fr : Free L s rest) (mem : p ∈ rest) : Covers s.hdr rest p :=
  ⟨p, mem, le_refl p, by have := (fr.inside p mem).2.1; omega⟩

/-! ## free -/

variable {m : AddrSpace} {a k : Nat} {s' : Heap} {nu : UInt32} {rest' : List Nat}

/-- The loop of `free` is a search, where all headers can be read. -/
theorem freeScan_eq {h n xs} (path : Path (fun p => (h p).ptr) a xs a)
    (all : ∀ p ∈ a :: xs, Malloc.mapped m p = true) {p} (mem : p ∈ a :: xs) :
    freeScan m h bp n p = seek (fun p => (h p).ptr) (place h bp) n p := by
  induction n generalizing p with
  | zero => rfl
  | succ n ih =>
    rw [freeScan, seek, all p mem, ih (path.next_mem mem)]
    rfl

/-- A block that can come into the free list. -/
structure Loose (L : Layout) (s : Heap) (rest : List Nat) (bp : Nat) : Prop where
  low : L.lo ≤ bp
  pos : 0 < sz s.hdr bp
  high : bp + sz s.hdr bp ≤ s.brk
  clear : ∀ a, Covers s.hdr rest a → ¬ (bp ≤ a ∧ a < bp + sz s.hdr bp)

/-- What `free` leaves: the list with the block, and all other headers as they were. -/
structure Freed (L : Layout) (s s' : Heap) (rest rest' : List Nat) (bp : Nat) : Prop where
  mem : s'.mem = s.mem
  live : s'.live = s.live
  free : Free L s' rest'
  freep : ∃ f, s'.freep = some f ∧ f ∈ L.base :: rest'
  nodes : ∀ x ∈ rest', x ∈ rest ∨ x = bp
  covers : ∀ a, Covers s'.hdr rest' a ↔ Covers s.hdr rest a ∨ (bp ≤ a ∧ a < bp + sz s.hdr bp)
  same : ∀ x, x ∉ L.base :: rest → x ≠ bp → s'.hdr x = s.hdr x

theorem Loose.not_mem (fr : Free L s rest) (lo : Loose L s rest bp) : bp ∉ rest := by
  intro mem
  have pos := lo.pos
  exact lo.clear bp (covers_self fr mem) ⟨le_refl bp, by omega⟩

/-- A free block is before the block or behind it. -/
theorem Loose.apart (fr : Free L s rest) (lo : Loose L s rest bp) (mem : p ∈ rest) :
    p + sz s.hdr p ≤ bp ∨ bp + sz s.hdr bp ≤ p := by
  by_contra both
  have lpos := lo.pos
  by_cases le : p ≤ bp
  · exact lo.clear bp ⟨p, mem, le, by omega⟩ ⟨le_refl bp, by omega⟩
  · exact lo.clear p (covers_self fr mem) ⟨by omega, by omega⟩

/-- The place of the block in the list. -/
structure Placed (L : Layout) (s : Heap) (rest : List Nat) (bp : Nat) (pre : List Nat) (p : Nat)
    (post : List Nat) : Prop where
  split : L.base :: rest = pre ++ p :: post
  lt : p < bp
  before : p + sz s.hdr p ≤ bp
  behind : ∀ q ∈ post, bp < q ∧ bp + sz s.hdr bp ≤ q
  rest : ∀ q ∈ post, q ∈ rest

theorem Loose.placed (fr : Free L s rest) (lo : Loose L s rest bp) :
    ∃ pre p post, Placed L s rest bp pre p post := by
  have low := lt_of_lt_of_le (base_lt L) lo.low
  obtain ⟨pre, p, post, split, -, lt, after⟩ :=
    split_place (gaps_sorted fr.ordered) low (lo.not_mem fr)
  have member : ∀ q ∈ post, q ∈ rest := by
    intro q mem
    have listed : q ∈ L.base :: rest := split ▸ mem_append_right pre (mem_cons_of_mem p mem)
    obtain rfl | mem' := mem_cons.1 listed
    · have := after _ mem
      omega
    · exact mem'
  refine ⟨pre, p, post, split, lt, ?_, fun q mem => ⟨after q mem, ?_⟩, member⟩
  · have listed : p ∈ L.base :: rest := split ▸ mem_append_right pre mem_cons_self
    obtain rfl | mem := mem_cons.1 listed
    · rw [fr.empty]
      exact le_of_lt lt
    · have := lo.apart fr mem
      omega
  · have := lo.apart fr (member q mem)
    have := after q mem
    omega

/-- What is covered is below the break. -/
theorem Free.covers_lt (fr : Free L s rest) (cov : Covers s.hdr rest a) : L.lo ≤ a ∧ a < s.brk := by
  obtain ⟨p, mem, le, lt⟩ := cov
  have := fr.inside p mem
  omega

theorem covers_base {h base} (empty : sz h base = 0) :
    Covers h (base :: rest) a ↔ Covers h rest a := by
  rw [covers_cons, empty]
  constructor
  · rintro (nothing | cov)
    · omega
    · exact cov
  · exact .inr

section placed
variable {pre post : List Nat} (sp : Space L s) (fr : Free L s rest) (lo : Loose L s rest bp)
  (pl : Placed L s rest bp pre p post)

include pl in
theorem Placed.node : p ∈ L.base :: rest := pl.split ▸ mem_append_right pre mem_cons_self

include fr pl in
theorem Placed.next_mem : (s.hdr p).ptr ∈ L.base :: rest :=
  fr.listed.circular.next_mem pl.node

include sp fr lo pl

theorem Placed.scan (mem : f ∈ L.base :: rest) : freeScan s.mem s.hdr bp s.fuel f = some p := by
  obtain ⟨ys, path, perm⟩ := fr.listed.circular.rotate mem
  have only : ∀ y ∈ f :: ys, place s.hdr bp y = true ↔ y = p := fun y mem =>
    place_iff fr.listed pl.split pl.lt (fun q mem => (pl.behind q mem).1)
      (lt_of_lt_of_le (base_lt L) lo.low) y (perm.mem_iff.1 mem)
  have here : p ∈ f :: ys := perm.mem_iff.2 pl.node
  have any : ∃ y ∈ f :: ys, place s.hdr bp y = true := ⟨p, here, (only p here).2 rfl⟩
  have enough : ys.length < s.fuel := by
    have len := perm.length_eq
    have le := fr.length_le sp
    rw [length_cons] at len
    unfold Heap.fuel
    unfold Heap.brk at le
    omega
  rw [freeScan_eq fr.listed.circular (fr.mapped sp) mem, path.seek enough any,
    find?_unique here only]

/-- `free` finds all that it touches. -/
theorem Placed.free_eq (freep : s.freep = some f) (mem : f ∈ L.base :: rest) :
    free s bp = some { s with hdr := joinDown (joinUp s.hdr bp p) bp p, freep := some p } := by
  have pos := lo.pos
  have high := lo.high
  unfold free
  rw [freep]
  dsimp only
  rw [pl.scan sp fr lo mem]
  dsimp only
  rw [sp.pages bp (by omega) (.inl lo.low), fr.mapped sp _ (pl.next_mem fr)]
  rw [if_neg (by decide), if_neg (fun both => absurd both.2 (by decide))]

/-- The two joins give the list with the block in it. -/
theorem Placed.joined : ∃ post1 post2, JoinedUp s.hdr (joinUp s.hdr bp p) L.base bp p post post1 ∧
      JoinedDown s.hdr (joinUp s.hdr bp p) (joinDown (joinUp s.hdr bp p) bp p) L.base bp p pre
        post1 post2 := by
  obtain ⟨lead, tail⟩ := (path_split pl.split).1 fr.listed.circular
  have gaps : (pre ++ p :: post).Pairwise (Gap s.hdr) := pl.split ▸ fr.ordered
  have brk := sp.brk_le
  have high := lo.high
  have fits : ∀ q ∈ post, sz s.hdr bp + sz s.hdr q < 4294967296 := by
    intro q mem
    have := fr.inside q (pl.rest q mem)
    omega
  have low := lt_of_lt_of_le (base_lt L) lo.low
  obtain ⟨post1, up⟩ := joinUp_spec tail (pairwise_cons.1 (pairwise_append.1 gaps).2.1).2
    (fun q mem => (pl.behind q mem).2) lo.pos (ne_of_lt pl.lt) low fits
  have bound : sz (joinUp s.hdr bp p) bp ≤ s.brk := by
    have pos := lo.pos
    have larger := up.larger
    have last := (up.covers (bp + sz (joinUp s.hdr bp p) bp - 1)).1
      (covers_cons.2 (.inl ⟨by omega, by omega⟩))
    obtain own | ⟨q, mem, -, lt⟩ := last
    · omega
    · have := fr.inside q (pl.rest q mem)
      omega
  have small := fr.size_le p pl.node
  have front : (pre ++ [p]).Pairwise (Gap s.hdr) := gaps.sublist
    (List.Sublist.append_left (singleton_sublist.2 mem_cons_self) pre)
  obtain ⟨post2, down⟩ :=
    joinDown_spec up lead front pl.before pl.lt (fun q mem => (pl.behind q mem).1) (by omega)
  exact ⟨post1, post2, up, down⟩

theorem Placed.freed :
    ∃ rest', Freed L s { s with hdr := joinDown (joinUp s.hdr bp p) bp p, freep := some p } rest
      rest' bp := by
  obtain ⟨post1, post2, up, down⟩ := pl.joined sp fr lo
  obtain ⟨rest', split'⟩ := down.lead.follow post2
  have low := lt_of_lt_of_le (base_lt L) lo.low
  generalize joinDown (joinUp s.hdr bp p) bp p = h2 at *
  generalize joinUp s.hdr bp p = h1 at *
  have listed : Listed h2 L.base rest' :=
    ⟨(path_split split').2 ⟨down.lead, down.path⟩, by rw [split']; exact down.gaps⟩
  have keeps : ∀ x, x ≠ p → x ≠ bp → sz h2 x = sz s.hdr x := fun x ne ne' =>
    sz_congr ((down.same x ne).trans (up.same x ne'))
  have empty : sz h2 L.base = 0 := by
    by_cases eq : L.base = p
    · have old := fr.empty
      rw [eq] at old ⊢
      rw [down.apart (by rw [old]; exact pl.lt), old]
    · rw [keeps _ eq (ne_of_lt low), fr.empty]
  have covers : ∀ a, Covers h2 rest' a ↔ Covers s.hdr rest a ∨ (bp ≤ a ∧ a < bp + sz s.hdr bp) := by
    intro a
    have old : Covers s.hdr rest a ↔ Covers s.hdr pre a ∨ (p ≤ a ∧ a < p + sz s.hdr p) ∨
        Covers s.hdr post a := by
      rw [← covers_cons, ← covers_append, ← pl.split, covers_base fr.empty]
    rw [← covers_base empty, split', down.covers, up.covers, old]
    tauto
  have nodes : ∀ x ∈ rest', x ∈ rest ∨ x = bp := by
    intro x mem
    have above := (pairwise_cons.1 listed.ordered).1 x mem
    have node : x ∈ pre ++ p :: post2 := split' ▸ mem_cons_of_mem _ mem
    have sub : x ∈ L.base :: rest ∨ x = bp := by
      rw [pl.split]
      rw [mem_append, mem_cons] at node
      obtain node | rfl | node := node
      · exact .inl (mem_append_left _ node)
      · exact .inl (mem_append_right _ mem_cons_self)
      · obtain rfl | rfl := down.nodes
        · exact .inl (mem_append_right _ (mem_cons_of_mem _ (up.sub.subset node)))
        · obtain rfl | node := mem_cons.1 node
          · exact .inr rfl
          · exact .inl (mem_append_right _ (mem_cons_of_mem _ (up.sub.subset node)))
    refine sub.imp_left fun node => (mem_cons.1 node).resolve_left ?_
    rintro rfl
    omega
  refine ⟨rest', rfl, rfl, ⟨listed, empty, fun x mem => ?_⟩, ⟨p, rfl, ?_⟩, nodes, covers,
    fun x out ne => ?_⟩
  · -- a node is one of the old ones or the block, and no smaller than it was
    have old := nodes x mem
    have pos : 0 < sz h2 x := by
      by_cases eq : x = p
      · have larger := down.larger
        have node : x ∈ rest := old.resolve_right (fun eq' => by have := pl.lt; omega)
        have := (fr.inside x node).2.1
        rw [eq] at this ⊢
        omega
      · by_cases eq' : x = bp
        · have larger := up.larger
          have pos := lo.pos
          unfold sz at *
          rw [down.same x eq, eq']
          omega
        · rw [keeps x eq eq']
          exact (fr.inside x (old.resolve_right eq')).2.1
    have last := (covers (x + sz h2 x - 1)).1 ⟨x, mem, by omega, by omega⟩
    refine ⟨?_, pos, ?_⟩
    · obtain node | rfl := old
      · exact (fr.inside x node).1
      · exact lo.low
    · show x + sz h2 x ≤ s.brk
      obtain cov | own := last
      · have := (fr.covers_lt cov).2
        omega
      · have := lo.high
        omega
  · rw [split']
    exact mem_append_right _ mem_cons_self
  · have ne' : x ≠ p := fun eq => out (eq ▸ pl.node)
    exact (down.same x ne').trans (up.same x ne)

end placed

theorem free_spec (sp : Space L s) (fr : Free L s rest) (lo : Loose L s rest bp)
    (freep : s.freep = some f)
    (mem : f ∈ L.base :: rest) : ∃ s' rest', free s bp = some s' ∧ Freed L s s' rest rest' bp := by
  obtain ⟨pre, p, post, pl⟩ := lo.placed fr
  obtain ⟨rest', freed⟩ := pl.freed sp fr lo
  exact ⟨_, rest', pl.free_eq sp fr lo freep mem, freed⟩

/-! ## carve -/

/-- What `carve` leaves: the list without the block `a` of `n` units, which was free. -/
structure Carved (L : Layout) (s s' : Heap) (rest rest' : List Nat) (a n : Nat) : Prop where
  mem : s'.mem = s.mem
  live : s'.live = s.live
  free : Free L s' rest'
  freep : ∃ f, s'.freep = some f ∧ f ∈ L.base :: rest'
  size : sz s'.hdr a = n
  was : ∀ x, a ≤ x → x < a + n → Covers s.hdr rest x
  covers : ∀ x, Covers s'.hdr rest' x → Covers s.hdr rest x ∧ ¬ (a ≤ x ∧ x < a + n)
  same : ∀ x, ¬ Covers s.hdr rest x → x ≠ L.base → s'.hdr x = s.hdr x

variable {prevp : Nat} {n : UInt32}

theorem Free.split_next (fr : Free L s rest) (mem : prevp ∈ L.base :: rest)
    (next : (s.hdr prevp).ptr = p)
    (ne : p ≠ L.base) : ∃ pre post, L.base :: rest = pre ++ prevp :: p :: post := by
  obtain ⟨pre, post, split⟩ := append_of_mem mem
  have tail := ((path_split split).1 fr.listed.circular).2
  cases post with
  | nil =>
    have home : (s.hdr prevp).ptr = L.base := tail
    exact absurd (next.symm.trans home) ne
  | cons q post =>
    have here : (s.hdr prevp).ptr = q := tail.1
    obtain rfl := next.symm.trans here
    exact ⟨pre, post, split⟩

/-- Two blocks of the list have no unit in common. -/
theorem Free.disjoint (fr : Free L s rest) {q x} (mem : p ∈ rest) (mem' : q ∈ rest) (ne : q ≠ p)
    (inp : p ≤ x ∧ x < p + sz s.hdr p) : ¬ (q ≤ x ∧ x < q + sz s.hdr q) := by
  intro inq
  have gap := gaps_apart (pairwise_cons.1 fr.ordered).2 mem' mem ne
  unfold Gap at gap
  omega

/-- All of a block: it leaves the list. -/
theorem carve_exact (fr : Free L s rest) (mem : prevp ∈ L.base :: rest)
    (next : (s.hdr prevp).ptr = p) (ne : p ≠ L.base) :
    ∃ rest', Carved L s { s with hdr := setPtr s.hdr prevp (s.hdr p).ptr, freep := some prevp }
      rest rest' p (sz s.hdr p) := by
  obtain ⟨pre, post, split⟩ := fr.split_next mem next ne
  have gaps : (pre ++ prevp :: p :: post).Pairwise (Gap s.hdr) := split ▸ fr.ordered
  obtain ⟨lead, tail⟩ := (path_split split).1 fr.listed.circular
  obtain ⟨rest', split'⟩ := lead.follow post
  have inner := (pairwise_append.1 gaps).2.1
  have prev_lt : ∀ x ∈ pre, x < prevp :=
    fun x mem => ((pairwise_append.1 gaps).2.2 x mem prevp mem_cons_self).lt
  have post_lt : ∀ x ∈ post, prevp < x := fun x mem =>
    ((pairwise_cons.1 inner).1 x (mem_cons_of_mem p mem)).lt
  have same : ∀ x, x ≠ prevp → setPtr s.hdr prevp (s.hdr p).ptr x = s.hdr x :=
    fun x ne => update_of_ne ne _ _
  have size : ∀ x, sz (setPtr s.hdr prevp (s.hdr p).ptr) x = sz s.hdr x :=
    fun x => congrArg UInt32.toNat (setPtr_size ..)
  have sub : (L.base :: rest').Sublist (L.base :: rest) := by
    rw [split, split']
    exact List.Sublist.append_left (List.Sublist.cons_cons prevp (sublist_cons_self p post)) pre
  have sub' : ∀ x ∈ rest', x ∈ rest ∧ x ≠ p := by
    intro x mem
    have node : x ∈ pre ++ prevp :: post := split' ▸ mem_cons_of_mem _ mem
    refine ⟨(List.Sublist.of_cons_cons sub).subset mem, ?_⟩
    rintro rfl
    have nodup : (pre ++ prevp :: x :: post).Nodup := (gaps_sorted gaps).imp ne_of_lt
    rw [show pre ++ prevp :: x :: post = (pre ++ [prevp]) ++ x :: post by simp] at nodup
    have out := (nodup_middle.1 nodup)
    rw [nodup_cons] at out
    exact out.1 (by simpa using node)
  have here : p ∈ rest := by
    have node : p ∈ L.base :: rest := split ▸ mem_append_right pre (mem_cons_of_mem _ mem_cons_self)
    exact (mem_cons.1 node).resolve_left ne
  refine ⟨rest', rfl, rfl, ⟨⟨?_, ?_⟩, ?_, fun x mem => ?_⟩, ⟨prevp, rfl, ?_⟩, size p,
    fun x low high => ⟨p, here, low, high⟩, fun x cov => ?_, fun x out ne => ?_⟩
  · refine (path_split split').2 ⟨lead.congr fun x mem => ?_, tail.2.rehead ?_ fun x mem => ?_⟩
    · exact congrArg Hdr.ptr (same x (ne_of_lt (prev_lt x mem)))
    · exact setPtr_self_ptr ..
    · exact congrArg Hdr.ptr (same x (Nat.ne_of_gt (post_lt x mem)))
  · exact gaps_congr (fr.ordered.sublist sub) fun x _ => size x
  · exact (size L.base).trans fr.empty
  · rw [size]
    exact fr.inside x (sub' x mem).1
  · rw [split']
    exact mem_append_right pre mem_cons_self
  · obtain ⟨q, mem, low, high⟩ := cov
    rw [size] at high
    obtain ⟨mem', ne'⟩ := sub' q mem
    exact ⟨⟨q, mem', low, high⟩, fun inp => fr.disjoint here mem' ne' inp ⟨low, high⟩⟩
  · refine same x ?_
    rintro rfl
    exact out (covers_self fr ((mem_cons.1 mem).resolve_left ne))

/-- The tail of a block: the list keeps its nodes, and one of them gets smaller. -/
theorem carve_tail (fr : Free L s rest) (mem : prevp ∈ L.base :: rest) (here : p ∈ rest)
    (pos : 0 < n.toNat)
    (lt : n.toNat < sz s.hdr p) (h : Nat → Hdr) (eq : h = setSize s.hdr p ((s.hdr p).size - n)) :
    p + sz h p + n.toNat = p + sz s.hdr p ∧ Carved L s
      { s with hdr := setSize h (p + (h p).size.toNat) n, freep := some prevp } rest rest
      (p + sz h p) n.toNat := by
  have left : sz h p = sz s.hdr p - n.toNat := by
    rw [eq]
    unfold sz at *
    rw [setSize_self_size]
    exact UInt32.toNat_sub_of_le _ _ (UInt32.le_iff_toNat_le.2 (le_of_lt lt))
  have other : ∀ x, x ≠ p → h x = s.hdr x := fun x ne => by
    rw [eq]
    exact update_of_ne ne _ _
  have ptr : ∀ x, (h x).ptr = (s.hdr x).ptr := fun x => by rw [eq, setSize_ptr]
  -- the header of the tail is inside the block, so it is no node
  have inside : ∀ x ∈ rest, x ≠ p + sz h p := by
    intro x mem same
    by_cases old : x = p
    · omega
    · exact fr.disjoint here mem old (x := x) ⟨by omega, by omega⟩
        ⟨le_refl x, by have := (fr.inside x mem).2.1; omega⟩
  have low := lt_of_lt_of_le (base_lt L) (fr.inside p here).1
  have node : ∀ x ∈ L.base :: rest, x ≠ p + sz h p := by
    intro x mem
    obtain rfl | mem := mem_cons.1 mem
    · omega
    · exact inside x mem
  have hdr : ∀ x, x ≠ p + sz h p → setSize h (p + (h p).size.toNat) n x = h x :=
    fun x ne => update_of_ne ne _ _
  have size : ∀ x ∈ L.base :: rest, x ≠ p →
      sz (setSize h (p + (h p).size.toNat) n) x = sz s.hdr x :=
    fun x mem ne => sz_congr ((hdr x (node x mem)).trans (other x ne))
  have size_p : sz (setSize h (p + (h p).size.toNat) n) p = sz s.hdr p - n.toNat := by
    rw [← left]
    unfold sz at *
    rw [hdr p (inside p here)]
  have smaller : ∀ x ∈ L.base :: rest, sz (setSize h (p + (h p).size.toNat) n) x ≤ sz s.hdr x := by
    intro x mem
    by_cases same : x = p
    · rw [same, size_p]
      exact Nat.sub_le ..
    · exact le_of_eq (size x mem same)
  refine ⟨by omega, rfl, rfl, ⟨⟨?_, ?_⟩, ?_, fun x mem => ?_⟩, ⟨prevp, rfl, mem⟩, ?_,
    fun x low high => ?_, fun x cov => ?_, fun x out ne => ?_⟩
  · refine fr.listed.circular.congr fun x mem => ?_
    exact (congrArg Hdr.ptr (hdr x (node x mem))).trans (ptr x)
  · refine fr.ordered.imp_of_mem fun {x y} mem _ gap => ?_
    have := smaller x mem
    exact lt_of_le_of_lt (Nat.add_le_add_left this x) gap
  · have ne : L.base ≠ p := by omega
    exact (size _ mem_cons_self ne).trans fr.empty
  · have old := fr.inside x mem
    have less := smaller x (mem_cons_of_mem _ mem)
    refine ⟨old.1, ?_, le_trans (Nat.add_le_add_left less x) old.2.2⟩
    by_cases same : x = p
    · rw [same, size_p]
      omega
    · rw [size x (mem_cons_of_mem _ mem) same]
      exact old.2.1
  · exact congrArg UInt32.toNat (setSize_self_size ..)
  · exact ⟨p, here, by omega, by omega⟩
  · obtain ⟨q, mem', low, high⟩ := cov
    have less := smaller q (mem_cons_of_mem _ mem')
    refine ⟨⟨q, mem', low, lt_of_lt_of_le high (Nat.add_le_add_left less q)⟩, fun own => ?_⟩
    by_cases same : q = p
    · rw [same, size_p] at high
      omega
    · exact fr.disjoint here mem' same (x := x) ⟨by omega, by omega⟩
        ⟨low, lt_of_lt_of_le high (Nat.add_le_add_left less q)⟩
  · have ne' : x ≠ p := by
      rintro rfl
      exact out (covers_self fr here)
    have out' : x ≠ p + sz h p := by
      intro same
      exact out ⟨p, here, by omega, by omega⟩
    exact (hdr x out').trans (other x ne')

/-- A block that is large enough, behind `prevp`. -/
theorem carve_spec (sp : Space L s) (fr : Free L s rest) (mem : prevp ∈ L.base :: rest)
    (next : (s.hdr prevp).ptr = p)
    (node : p ∈ L.base :: rest) (pos : 0 < n.toNat) (fits : n.toNat ≤ sz s.hdr p) :
    ∃ s' a rest', carve s n prevp p = some (s', a) ∧ Carved L s s' rest rest' a n.toNat := by
  have ne : p ≠ L.base := by
    rintro rfl
    rw [fr.empty] at fits
    omega
  have here : p ∈ rest := (mem_cons.1 node).resolve_left ne
  unfold carve
  split
  · rename_i exact_
    obtain ⟨rest', carved⟩ := carve_exact fr mem next ne
    refine ⟨_, _, rest', rfl, ?_⟩
    have size : sz s.hdr p = n.toNat := congrArg UInt32.toNat exact_
    rw [size] at carved
    exact carved
  · rename_i more
    have lt : n.toNat < sz s.hdr p :=
      lt_of_le_of_ne fits fun eq => more (UInt32.toNat_inj.1 eq.symm)
    obtain ⟨sum, carved⟩ := carve_tail fr mem here pos lt _ rfl
    have old := fr.inside p here
    rw [if_neg]
    · exact ⟨_, _, rest, rfl, carved⟩
    · have top : p + sz (setSize s.hdr p ((s.hdr p).size - n)) p < s.brk := by omega
      have access := sp.pages _ top (.inl (by omega))
      unfold sz at access
      rw [access]
      decide

/-! ## morecore -/

/-- Headers that are no nodes may change, and the break may go up. -/
theorem Free.congr (fr : Free L s rest) (same : ∀ x ∈ L.base :: rest, s'.hdr x = s.hdr x)
    (brk : s.brk ≤ s'.brk) : Free L s' rest := by
  have size : ∀ x ∈ L.base :: rest, sz s'.hdr x = sz s.hdr x := fun x mem => sz_congr (same x mem)
  refine ⟨⟨fr.listed.circular.congr fun x mem => by rw [same x mem], gaps_congr fr.ordered size⟩,
    (size _ mem_cons_self).trans fr.empty, fun p mem => ?_⟩
  have old := fr.inside p mem
  rw [size p (mem_cons_of_mem _ mem)]
  exact ⟨old.1, old.2.1, le_trans old.2.2 brk⟩

/-- The address space after a growth by `k` bytes. -/
def growBy (m : AddrSpace) (k : Nat) : AddrSpace :=
  { mapZero m (pgroundup m.sz / pgSize) (pgroundup (m.sz + k) / pgSize) with sz := m.sz + k }

theorem mapped_of_page {b} (page : a * unit / pgSize = b * unit / pgSize)
    (h : Malloc.mapped m b = true) : Malloc.mapped m a = true := by
  unfold Malloc.mapped at *
  rw [page]
  exact h

theorem Space.congr (sp : Space L s) (eq : s'.mem = s.mem) : Space L s' := by
  obtain ⟨whole, grown, ram, top, pages⟩ := sp
  unfold Heap.brk at pages
  rw [← eq] at whole grown ram top pages
  exact ⟨whole, grown, ram, top, pages⟩

theorem brk_congr (eq : s'.mem = s.mem) : s'.brk = s.brk := by
  unfold Heap.brk
  rw [eq]

theorem Space.grow (sp : Space L s) (mem : s'.mem = growBy s.mem (k * unit))
    (frames : ∀ u, pgroundup s.mem.sz / pgSize ≤ u → u < pgroundup (s.mem.sz + k * unit) / pgSize →
      u < physPages) :
    Space L s' ∧ s'.brk = s.brk + k := by
  have whole := sp.whole
  have ram := sp.ram
  have size : s'.mem.sz = s.mem.sz + k * unit := by rw [mem]; rfl
  have brk : s'.brk = s.brk + k := by
    unfold Heap.brk
    unfold unit at *
    omega
  have pages : ∀ v, s'.mem.pages v = if pgroundup s.mem.sz / pgSize ≤ v ∧
    v < pgroundup (s.mem.sz + k * unit) / pgSize
      then some zeroPage else s.mem.pages v := fun v => by rw [mem]; rfl
  refine ⟨⟨?_, ?_, ?_, ?_, ?_⟩, brk⟩
  · unfold unit at *
    omega
  · rw [size]
    exact le_trans sp.grown (Nat.le_add_right ..)
  · by_contra big
    have last := frames (pgroundup (s.mem.sz + k * unit) / pgSize - 1)
    unfold pgroundup physPages pgSize at *
    omega
  · intro v high
    rw [size] at high
    rw [pages, if_neg (by omega)]
    refine sp.top v (le_trans (Nat.div_le_div_right ?_) high)
    unfold pgroundup pgSize
    omega
  · intro a lt place
    have page : s'.mem.pages (a * unit / pgSize) = some zeroPage ∨
        s'.mem.pages (a * unit / pgSize) = s.mem.pages (a * unit / pgSize) := by
      rw [pages]
      split
      · exact .inl rfl
      · exact .inr rfl
    have old : s'.mem.pages (a * unit / pgSize) = s.mem.pages (a * unit / pgSize) →
        Malloc.mapped s.mem a = true → Malloc.mapped s'.mem a = true := by
      intro eq h
      unfold Malloc.mapped at *
      rw [eq]
      exact h
    obtain zero | eq := page
    · unfold Malloc.mapped
      rw [zero]
      rfl
    · refine old eq ?_
      by_cases below : a < s.brk
      · exact sp.pages a below place
      · -- the rest of the page of the old break, which the unit before it shows to be mapped
        have same : a * unit / pgSize = (s.brk - 1) * unit / pgSize ∧ L.lo ≤ s.brk - 1 ∧
            0 < s.brk := by
          by_contra apart
          have new : pgroundup s.mem.sz / pgSize ≤ a * unit / pgSize ∧
              a * unit / pgSize < pgroundup (s.mem.sz + k * unit) / pgSize := by
            have aligned := L.aligned
            have grown := sp.grown
            unfold Layout.lo Heap.brk pgroundup unit pgSize at *
            omega
          rw [pages, if_pos new, sp.top _ new.1] at eq
          cases eq
        exact mapped_of_page same.1 (sp.pages (s.brk - 1) (by omega) (.inl same.2.1))

/-- The number of units that `morecore` asks for. -/
def coreUnits (nu : UInt32) : UInt32 := if nu < 4096 then 4096 else nu

/-- What `morecore` leaves when it gets its memory: the list with the new block at the old break. -/
structure Grown (L : Layout) (s s' : Heap) (rest rest' : List Nat) (nu : Nat) : Prop where
  live : s'.live = s.live
  space : Space L s'
  brk : s.brk ≤ s'.brk
  free : Free L s' rest'
  nodes : ∀ x ∈ rest', x ∈ rest ∨ x = s.brk
  covers : ∀ a, Covers s'.hdr rest' a ↔ Covers s.hdr rest a ∨ (s.brk ≤ a ∧ a < s.brk + nu)
  same : ∀ x, x ∉ L.base :: rest → x < s.brk → s'.hdr x = s.hdr x

/-- The heap when `morecore` has its memory and has written the header. -/
def withCore (s : Heap) (nu : UInt32) : Heap :=
  { s with
    mem := growBy s.mem ((coreUnits nu).toNat * unit)
    hdr := setSize s.hdr s.brk (coreUnits nu) }

theorem coreUnits_spec (modest : nu.toNat ≤ 134217727) :
    nu.toNat ≤ (coreUnits nu).toNat ∧ 0 < (coreUnits nu).toNat ∧
      ((coreUnits nu).toUInt64 * 16).toUInt32.toInt32.toInt = (coreUnits nu).toNat * 16 := by
  have bounds : nu.toNat ≤ (coreUnits nu).toNat ∧ 4096 ≤ (coreUnits nu).toNat ∧
      (coreUnits nu).toNat ≤ 134217727 := by
    unfold coreUnits
    split
    · rename_i lt
      have := UInt32.lt_iff_toNat_lt.1 lt
      have lit : (4096 : UInt32).toNat = 4096 := rfl
      omega
    · rename_i ge
      have := mt UInt32.lt_iff_toNat_lt.2 ge
      have lit : (4096 : UInt32).toNat = 4096 := rfl
      omega
  refine ⟨bounds.1, by omega, ?_⟩
  generalize coreUnits nu = k at *
  have bytes : (k.toUInt64 * 16).toUInt32 = UInt32.ofNat (k.toNat * 16) := by
    refine UInt32.toNat_inj.1 ?_
    rw [UInt64.toNat_toUInt32, UInt64.toNat_mul, UInt32.toNat_toUInt64, UInt32.toNat_ofNat']
    rw [show (16 : UInt64).toNat = 16 from rfl]
    omega
  rw [bytes]
  exact Int32.toInt_ofNat_of_lt (by omega)

theorem morecore_fails {ok}
    (sbrk : sysSbrk ok s.mem ((coreUnits nu).toUInt64 * 16).toUInt32.toInt32 sbrkEager =
      some (m, -1)) :
    morecore ok nu s = some ({ s with mem := m }, none) := by
  unfold morecore
  unfold coreUnits at sbrk
  dsimp only
  rw [sbrk]
  rfl

theorem morecore_grows {ok} (small : s.mem.sz ≤ trapframeVa)
    (sbrk : sysSbrk ok s.mem ((coreUnits nu).toUInt64 * 16).toUInt32.toInt32 sbrkEager =
      some (m, UInt64.ofNat s.mem.sz))
    (access : Malloc.mapped m s.brk = true)
    (freed : Malloc.free { s with mem := m, hdr := setSize s.hdr s.brk (coreUnits nu) } s.brk =
      some s') :
    morecore ok nu s = some (s', s'.freep) := by
  have val : (UInt64.ofNat s.mem.sz).toNat = s.mem.sz := by
    rw [UInt64.toNat_ofNat']
    unfold trapframeVa maxVa pgSize at small
    omega
  have good : UInt64.ofNat s.mem.sz ≠ sbrkError := by
    intro eq
    have nat := congrArg UInt64.toNat eq
    have lit : sbrkError.toNat = 18446744073709551615 := by decide
    unfold trapframeVa maxVa pgSize at small
    omega
  unfold Heap.brk at access freed
  unfold morecore
  unfold coreUnits at sbrk freed
  dsimp only
  rw [sbrk]
  dsimp only
  rw [if_neg good, val, access, freed]
  rfl

theorem morecore_spec (frames : Nat) (sp : Space L s) (fr : Free L s rest)
    (freep : s.freep = some f) (mem : f ∈ L.base :: rest) (modest : nu.toNat ≤ 134217727) :
    morecore (fun v => v < min frames physPages) nu s = some (s, none) ∨
      ∃ s' f' rest', morecore (fun v => v < min frames physPages) nu s = some (s', some f') ∧
        s'.freep = some f' ∧ f' ∈ L.base :: rest' ∧
          Grown L s s' rest rest' (coreUnits nu).toNat := by
  obtain ⟨-, pos, int⟩ := coreUnits_spec modest
  have small : s.mem.sz ≤ trapframeVa := le_trans sp.ram (by decide)
  have bytes : ((coreUnits nu).toUInt64 * 16).toUInt32.toInt32.toInt.toNat =
      (coreUnits nu).toNat * unit := by
    unfold unit
    omega
  obtain fails | ⟨grows, frames⟩ := sysSbrk_grow (fun v => v < min frames physPages)
    (k := ((coreUnits nu).toUInt64 * 16).toUInt32.toInt32) (by omega) small sp.top
  · exact .inl (morecore_fails fails)
  · rw [bytes] at grows frames
    have moved : (withCore s nu).mem = growBy s.mem ((coreUnits nu).toNat * unit) := rfl
    obtain ⟨space, brk⟩ := sp.grow moved fun u low high => by
      have := frames u low high
      rw [decide_eq_true_iff] at this
      omega
    have node : ∀ x ∈ L.base :: rest, setSize s.hdr s.brk (coreUnits nu) x = s.hdr x := fun x mem =>
      update_of_ne (ne_of_lt (fr.lt_brk sp x mem)) _ _
    have cover : ∀ a, Covers (setSize s.hdr s.brk (coreUnits nu)) rest a ↔ Covers s.hdr rest a :=
      covers_congr fun x mem => sz_congr (node x (mem_cons_of_mem _ mem))
    have size : sz (setSize s.hdr s.brk (coreUnits nu)) s.brk = (coreUnits nu).toNat :=
      congrArg UInt32.toNat (setSize_self_size ..)
    have free : Free L (withCore s nu) rest := fr.congr node (by omega)
    have own : sz (withCore s nu).hdr s.brk = (coreUnits nu).toNat := size
    have loose : Loose L (withCore s nu) rest s.brk := by
      refine ⟨sp.lo_le, by omega, by omega, fun a cov own => ?_⟩
      have := (fr.covers_lt ((cover a).1 cov)).2
      omega
    obtain ⟨s', rest', ran, freed⟩ := free_spec space free loose freep mem
    obtain ⟨f', freep', mem'⟩ := freed.freep
    have access := space.pages s.brk (by omega) (.inl sp.lo_le)
    refine .inr ⟨s', f', rest', ?_, freep', mem', freed.live, ?_, ?_, freed.free, freed.nodes,
      fun a => ?_, fun x out lt => ?_⟩
    · rw [morecore_grows small grows access ran, freep']
    · exact space.congr freed.mem
    · rw [brk_congr freed.mem]
      omega
    · rw [freed.covers, own]
      exact or_congr_left (cover a)
    · rw [freed.same x out (ne_of_lt lt)]
      exact update_of_ne (ne_of_lt lt) _ _

/-! ## malloc -/

/-- The loop of `malloc` after `morecore`. -/
def afterCore (ok : Nat → Bool) (n : UInt32) (fuel : Nat) :
    Option (Heap × Option Nat) → Option (Heap × Option Nat)
  | none => none
  | some (s, none) => some (s, none)
  | some (s, some p) => mallocLoop ok n fuel s p (s.hdr p).ptr

/-- Once around the free list: a block that is large enough, or `morecore` when there is none. -/
theorem mallocLoop_walk (ok : Nat → Bool) (n : UInt32) {zs} (fuel : Nat) (freep : s.freep = some f)
    (path : Path (fun p => (s.hdr p).ptr) prevp zs f) (out : f ∉ zs) (enough : zs.length < fuel)
    (all : ∀ p ∈ prevp :: zs ++ [f], Malloc.mapped s.mem p = true) :
    (∃ q r, q ∈ prevp :: zs ++ [f] ∧ r ∈ prevp :: zs ++ [f] ∧ (s.hdr q).ptr = r ∧
      n.toNat ≤ sz s.hdr r ∧
      mallocLoop ok n fuel s prevp (s.hdr prevp).ptr = (carve s n q r).map fun x =>
        (x.1, some x.2)) ∨
    ((∀ z ∈ zs ++ [f], sz s.hdr z < n.toNat) ∧
      mallocLoop ok n fuel s prevp (s.hdr prevp).ptr =
        afterCore ok n (fuel - (zs.length + 1)) (morecore ok n s)) := by
  have fits : ∀ z, (s.hdr z).size ≥ n ↔ n.toNat ≤ sz s.hdr z := fun z => UInt32.le_iff_toNat_le
  induction zs generalizing prevp fuel with
  | nil =>
    obtain ⟨fuel, rfl⟩ : ∃ m, fuel = m + 1 := ⟨fuel - 1, by omega⟩
    have next : (s.hdr prevp).ptr = f := path
    have last : f ∈ prevp :: [] ++ [f] := by simp
    rw [next, mallocLoop, all f last, if_neg (by decide)]
    by_cases large : n.toNat ≤ sz s.hdr f
    · rw [if_pos ((fits f).2 large)]
      exact .inl ⟨prevp, f, by simp, last, next, large, rfl⟩
    · rw [if_neg (mt (fits f).1 large), if_pos freep]
      refine .inr ⟨fun z mem => ?_, ?_⟩
      · obtain rfl := mem_singleton.1 mem
        exact Nat.lt_of_not_le large
      · rcases morecore ok n s with _ | ⟨_, _ | _⟩ <;> rfl
  | cons z zs ih =>
    rw [length_cons] at enough
    obtain ⟨fuel, rfl⟩ : ∃ m, fuel = m + 1 := ⟨fuel - 1, by omega⟩
    have next : (s.hdr prevp).ptr = z := path.1
    have here : z ∈ prevp :: z :: zs ++ [f] := by simp
    have other : ¬ s.freep = some z := by
      rw [freep]
      intro eq
      exact out (Option.some.inj eq ▸ mem_cons_self)
    rw [next, mallocLoop, all z here, if_neg (by decide)]
    by_cases large : n.toNat ≤ sz s.hdr z
    · rw [if_pos ((fits z).2 large)]
      exact .inl ⟨prevp, z, by simp, here, next, large, rfl⟩
    · rw [if_neg (mt (fits z).1 large), if_neg other]
      obtain ⟨q, r, mem, mem', rest⟩ | ⟨small, rest⟩ := ih fuel path.2
        (fun mem => out (mem_cons_of_mem z mem)) (by omega)
        (fun p mem => all p (mem_cons_of_mem prevp mem))
      · exact .inl ⟨q, r, mem_cons_of_mem prevp mem, mem_cons_of_mem prevp mem', rest⟩
      · refine .inr ⟨fun y mem => ?_, ?_⟩
        · obtain rfl | mem := mem_cons.1 mem
          · exact Nat.lt_of_not_le large
          · exact small y mem
        · rw [rest, length_cons, Nat.add_sub_add_right]

/-- What `malloc` leaves with a block `a` of `n` units: units that were free, or are new. -/
structure Given (L : Layout) (s s' : Heap) (rest rest' : List Nat) (a n : Nat) : Prop where
  live : s'.live = s.live
  space : Space L s'
  brk : s.brk ≤ s'.brk
  free : Free L s' rest'
  freep : ∃ f, s'.freep = some f ∧ f ∈ L.base :: rest'
  size : sz s'.hdr a = n
  inside : ∀ x, a ≤ x → x < a + n → L.lo ≤ x ∧ x < s'.brk ∧ (Covers s.hdr rest x ∨ s.brk ≤ x)
  covers : ∀ x, Covers s'.hdr rest' x → (Covers s.hdr rest x ∨ s.brk ≤ x) ∧ ¬ (a ≤ x ∧ x < a + n)
  same : ∀ x, L.lo ≤ x → x < s.brk → ¬ Covers s.hdr rest x → s'.hdr x = s.hdr x

theorem Carved.given (sp : Space L s) (fr : Free L s rest) (c : Carved L s s' rest rest' a k) :
    Given L s s' rest rest' a k := by
  have brk := brk_congr c.mem
  refine ⟨c.live, sp.congr c.mem, le_of_eq brk.symm, c.free, c.freep, c.size, fun x low high => ?_,
    fun x cov => ?_, fun x low _ out => c.same x out ?_⟩
  · have cov := c.was x low high
    have := fr.covers_lt cov
    exact ⟨this.1, by omega, .inl cov⟩
  · exact ⟨.inl (c.covers x cov).1, (c.covers x cov).2⟩
  · have := base_lt L
    omega

/-- A block from a list that `morecore` has enlarged. -/
theorem Given.after {s1 rest1 nu} (fr : Free L s rest)
    (g : Grown L s s1 rest rest1 nu) (v : Given L s1 s' rest1 rest' a k) :
    Given L s s' rest rest' a k := by
  have wider : ∀ x, Covers s1.hdr rest1 x ∨ s1.brk ≤ x → Covers s.hdr rest x ∨ s.brk ≤ x := by
    rintro x (cov | high)
    · exact ((g.covers x).1 cov).imp_right And.left
    · exact .inr (le_trans g.brk high)
  refine ⟨v.live.trans g.live, v.space, le_trans g.brk v.brk, v.free, v.freep, v.size,
    fun x low high => ?_, fun x cov => ?_, fun x low lt out => ?_⟩
  · have := v.inside x low high
    exact ⟨this.1, this.2.1, wider x this.2.2⟩
  · have := v.covers x cov
    exact ⟨wider x this.1, this.2⟩
  · have still : ¬ Covers s1.hdr rest1 x := by
      intro cov
      obtain old | new := (g.covers x).1 cov
      · exact out old
      · omega
    have node : x ∉ L.base :: rest := by
      intro mem
      obtain rfl | mem := mem_cons.1 mem
      · have := base_lt L
        omega
      · exact out (covers_self fr mem)
    rw [v.same x low (lt_of_lt_of_le lt g.brk) still, g.same x node lt]

/-- The new memory is in one block of the list. -/
theorem Grown.large {nu} (g : Grown L s s' rest rest' nu) (pos : 0 < nu) :
    ∃ p ∈ rest', nu ≤ sz s'.hdr p := by
  obtain ⟨p, mem, le, lt⟩ := (g.covers s.brk).2 (.inr ⟨le_refl _, by omega⟩)
  refine ⟨p, mem, ?_⟩
  by_contra short
  -- the unit behind the block would belong to another block, without a gap
  obtain ⟨q, mem', le', lt'⟩ := (g.covers (p + sz s'.hdr p)).2 (.inr ⟨by omega, by omega⟩)
  have ne : q ≠ p := by
    rintro rfl
    omega
  have gap := gaps_apart (pairwise_cons.1 g.free.ordered).2 mem' mem ne
  unfold Gap at gap
  omega

/-- Once around the list of a heap that keeps the invariant. -/
theorem Free.walk (ok : Nat → Bool) (fuel : Nat) (sp : Space L s) (fr : Free L s rest)
    (freep : s.freep = some f)
    (mem : f ∈ L.base :: rest) (pos : 0 < n.toNat) (enough : (L.base :: rest).length ≤ fuel) :
    (∃ s' a rest', mallocLoop ok n fuel s f (s.hdr f).ptr = some (s', some a) ∧
      Given L s s' rest rest' a n.toNat) ∨
    ((∀ p ∈ rest, sz s.hdr p < n.toNat) ∧ mallocLoop ok n fuel s f (s.hdr f).ptr =
      afterCore ok n (fuel - (L.base :: rest).length) (morecore ok n s)) := by
  obtain ⟨ys, path, perm⟩ := fr.listed.circular.rotate mem
  have nodup : (f :: ys).Nodup := perm.nodup_iff.2 ((gaps_sorted fr.ordered).imp ne_of_lt)
  have len := perm.length_eq
  rw [length_cons] at len
  have nodes : ∀ p ∈ f :: ys ++ [f], p ∈ L.base :: rest := by
    intro p mem
    rw [mem_append, mem_singleton] at mem
    obtain mem | rfl := mem
    · exact perm.mem_iff.1 mem
    · exact perm.mem_iff.1 mem_cons_self
  obtain ⟨q, r, memq, memr, next, large, ran⟩ | ⟨small, ran⟩ := mallocLoop_walk ok n fuel freep path
    (nodup_cons.1 nodup).1 (by omega) fun p mem => fr.mapped sp p (nodes p mem)
  · obtain ⟨s', a, rest', carved, spec⟩ :=
      carve_spec sp fr (nodes q memq) next (nodes r memr) pos large
    refine .inl ⟨s', a, rest', ?_, spec.given sp fr⟩
    rw [ran, carved]
    rfl
  · refine .inr ⟨fun p mem => small p ?_, ?_⟩
    · have node : p ∈ f :: ys := perm.mem_iff.2 (mem_cons_of_mem _ mem)
      rw [mem_append, mem_singleton]
      exact (mem_cons.1 node).symm
    · rw [ran, ← len]

theorem mallocLoop_spec (frames : Nat) {fuel} (sp : Space L s) (fr : Free L s rest)
    (freep : s.freep = some f)
    (mem : f ∈ L.base :: rest) (pos : 0 < n.toNat) (modest : n.toNat ≤ 134217727)
    (enough : 2 * s.fuel ≤ fuel) :
    mallocLoop (fun v => v < min frames physPages) n fuel s f (s.hdr f).ptr = some (s, none) ∨
      ∃ s' a rest', mallocLoop (fun v => v < min frames physPages) n fuel s f (s.hdr f).ptr =
        some (s', some a) ∧ Given L s s' rest rest' a n.toNat := by
  have len := fr.length_le sp
  have room : s.brk + 2 = s.fuel := rfl
  obtain ⟨s', a, rest', ran, given⟩ | ⟨-, ran⟩ :=
    fr.walk (fun v => v < min frames physPages) fuel sp freep mem pos (by omega)
  · exact .inr ⟨s', a, rest', ran, given⟩
  · obtain fails | ⟨s1, f1, rest1, grows, freep1, mem1, grown⟩ :=
      morecore_spec frames sp fr freep mem modest
    · rw [ran, fails]
      exact .inl rfl
    · obtain ⟨le, npos, -⟩ := coreUnits_spec modest
      have len1 := grown.free.length_le_of_subset (l := s.brk :: L.base :: rest) <| by
        intro x mem
        obtain rfl | mem := mem_cons.1 mem
        · simp
        · obtain old | rfl := grown.nodes x mem
          · simp [old]
          · simp
      rw [length_cons (a := s.brk)] at len1
      obtain ⟨s', a, rest', ran', given⟩ | ⟨small, -⟩ :=
        grown.free.walk (fun v => v < min frames physPages) (fuel - (L.base :: rest).length)
          grown.space freep1 mem1 pos (by omega)
      · refine .inr ⟨s', a, rest', ?_, given.after fr grown⟩
        rw [ran, grows]
        exact ran'
      · obtain ⟨p, mem, large⟩ := grown.large npos
        have := small p mem
        omega

end space

/-! ## Steps -/

/-- The invariant of the heap. -/
structure Inv (L : Layout) (s : Heap) : Prop where
  space : Space L s
  lists : (s.freep = none ∧ s.live = []) ∨
    ∃ f rest, s.freep = some f ∧ f ∈ L.base :: rest ∧ Free L s rest ∧ Used L s rest

theorem nunits_spec {nbytes} (modest : nbytes.toNat ≤ maxRequest) :
    0 < (nunits nbytes).toNat ∧ (nunits nbytes).toNat ≤ 134217727 ∧
      nbytes.toNat ≤ ((nunits nbytes).toNat - 1) * unit := by
  have val : (nunits nbytes).toNat = (nbytes.toNat + 15) / 16 + 1 := by
    have lt := nbytes.toNat_lt
    unfold nunits
    rw [UInt64.toNat_toUInt32, UInt64.toNat_add, UInt64.toNat_div, UInt64.toNat_sub,
      UInt64.toNat_add, UInt32.toNat_toUInt64, show (16 : UInt64).toNat = 16 from rfl,
      show (1 : UInt64).toNat = 1 from rfl]
    omega
  unfold maxRequest at modest
  unfold unit
  omega

section steps
variable {L : Layout} {s s' : Heap} {rest rest' : List Nat}

variable {b : Block}

theorem Block.apart_of {c} (hb : 0 < b.units) (hc : 0 < c.units)
    (no : ∀ x, b.addr ≤ x → x < b.addr + b.units → ¬ (c.addr ≤ x ∧ x < c.addr + c.units)) :
    b.Apart c := by
  unfold Block.Apart
  by_contra both
  exact no (max b.addr c.addr) (by omega) (by omega) ⟨by omega, by omega⟩

instance : Std.Symm Block.Apart := ⟨fun _ _ h => h.symm⟩

theorem Used.header (u : Used L s rest) (mem : b ∈ s.live) : L.lo ≤ b.addr ∧ b.addr < s.brk ∧
    ¬ Covers s.hdr rest b.addr := by
  have block := u.blocks b mem
  exact ⟨block.2.1, by omega, fun cov => u.clear b mem _ cov ⟨le_refl _, by omega⟩⟩

theorem Used.no_node (fr : Free L s rest) (u : Used L s rest) (mem : b ∈ s.live) {p}
    (node : p ∈ L.base :: rest) : ¬ (b.addr ≤ p ∧ p < b.addr + b.units) := by
  obtain rfl | node := mem_cons.1 node
  · have := base_lt L
    have := (u.header mem).1
    omega
  · exact u.clear b mem p (covers_self fr node)

/-- The new block joins the blocks in use. -/
theorem Given.used {a nbytes} (u : Used L s rest)
    (g : Given L s s' rest rest' a (nunits nbytes).toNat) (modest : nbytes.toNat ≤ maxRequest) :
    Used L { s' with live := ⟨a, (nunits nbytes).toNat, nbytes.toNat⟩ :: s'.live } rest' := by
  obtain ⟨pos, -, large⟩ := nunits_spec modest
  have old : ∀ b ∈ s.live, 0 < b.units ∧ b.addr + b.units ≤ s.brk := fun b mem =>
    ⟨(u.blocks b mem).1, (u.blocks b mem).2.2.1⟩
  -- a unit that was free, or is new, is in no block that was in use
  have fresh : ∀ b ∈ s.live, ∀ x, Covers s.hdr rest x ∨ s.brk ≤ x →
      ¬ (b.addr ≤ x ∧ x < b.addr + b.units) := by
    rintro b mem x (cov | high)
    · exact u.clear b mem x cov
    · have := old b mem
      omega
  refine ⟨fun b mem => ?_, fun b mem => ?_, pairwise_cons.2 ⟨fun b mem => ?_, ?_⟩,
    fun b mem x cov => ?_⟩
  · obtain rfl | mem := mem_cons.1 mem
    · have first := g.inside a (le_refl a) (by omega)
      have last := g.inside (a + (nunits nbytes).toNat - 1) (by omega) (by omega)
      refine ⟨pos, first.1, ?_, g.size⟩
      show a + (nunits nbytes).toNat ≤ s'.brk
      omega
    · rw [g.live] at mem
      have block := u.blocks b mem
      obtain ⟨low, high, out⟩ := u.header mem
      refine ⟨block.1, block.2.1, le_trans block.2.2.1 g.brk, ?_⟩
      unfold sz at *
      rw [g.same b.addr low high out]
      exact block.2.2.2
  · obtain rfl | mem := mem_cons.1 mem
    · exact large
    · rw [g.live] at mem
      exact u.large b mem
  · rw [g.live] at mem
    exact Block.apart_of pos (old b mem).1 fun x low high => fresh b mem x (g.inside x low high).2.2
  · rw [g.live]
    exact u.apart
  · obtain rfl | mem := mem_cons.1 mem
    · exact (g.covers x cov).2
    · rw [g.live] at mem
      exact fresh b mem x (g.covers x cov).1

/-- The first call of `malloc` makes a list of `base` alone. -/
theorem init_spec (inv : Inv L s) : ∃ f rest, (init L.base s).freep = some f ∧ f ∈ L.base :: rest ∧
    Space L (init L.base s) ∧ Free L (init L.base s) rest ∧ Used L (init L.base s) rest := by
  unfold init
  obtain ⟨null, none_live⟩ | ⟨f, rest, freep, mem, fr, u⟩ := inv.lists
  · rw [null]
    have own : (update s.hdr L.base ⟨L.base, 0⟩ : Nat → Hdr) L.base = ⟨L.base, 0⟩ := update_self ..
    refine ⟨L.base, [], rfl, mem_cons_self, inv.space.congr rfl,
      ⟨⟨?_, pairwise_singleton ..⟩, ?_, ?_⟩, ?_⟩
    · exact congrArg Hdr.ptr own
    · exact congrArg (fun h => h.size.toNat) own
    · exact fun p no => absurd no not_mem_nil
    · refine ⟨?_, ?_, ?_, ?_⟩
      · rw [none_live]
        exact fun b no => absurd no not_mem_nil
      · rw [none_live]
        exact fun b no => absurd no not_mem_nil
      · rw [none_live]
        exact .nil
      · rw [none_live]
        exact fun b no => absurd no not_mem_nil
  · rw [freep]
    exact ⟨f, rest, freep, mem, inv.space, fr, u⟩

/-- `malloc` returns, with a block or with null. -/
theorem malloc_step (inv : Inv L s) {nbytes} (frames : Nat) (modest : nbytes.toNat ≤ maxRequest) :
    ∃ s', step L.base s (.malloc nbytes frames) = some s' ∧ Inv L s' := by
  obtain ⟨f, rest, freep, mem, sp, fr, u⟩ := init_spec inv
  obtain ⟨pos, small, -⟩ := nunits_spec modest
  unfold step malloc
  dsimp only
  rw [freep]
  dsimp only
  rw [fr.mapped sp f mem, if_neg (by decide)]
  obtain null | ⟨s', a, rest', ran, given⟩ :=
    mallocLoop_spec frames sp fr freep mem pos small (le_refl _)
  · rw [null]
    exact ⟨_, rfl, sp, .inr ⟨f, rest, freep, mem, fr, u⟩⟩
  · rw [ran]
    obtain ⟨f', freep', mem'⟩ := given.freep
    refine ⟨_, rfl, given.space.congr rfl, .inr ⟨f', rest', freep', mem', ?_, given.used u modest⟩⟩
    exact given.free.congr (fun _ _ => rfl) (le_refl _)

/-- The state `free` starts from: the block is in use no more. -/
def Heap.unuse (s : Heap) (addr : Nat) : Heap :=
  { s with live := s.live.filter fun b => b.addr ≠ addr }

theorem Used.loose (u : Used L s rest) (mem : b ∈ s.live) :
    Loose L (s.unuse b.addr) rest b.addr := by
  obtain ⟨pos, low, high, size⟩ := u.blocks b mem
  rw [← size] at pos high
  refine ⟨low, pos, high, fun x cov => ?_⟩
  show ¬ (b.addr ≤ x ∧ x < b.addr + sz s.hdr b.addr)
  rw [size]
  exact u.clear b mem x cov

/-- The other blocks stay as they are. -/
theorem Freed.used (fr : Free L s rest) (u : Used L s rest) (mem : b ∈ s.live)
    (freed : Freed L (s.unuse b.addr) s' rest rest' b.addr) : Used L s' rest' := by
  have size := (u.blocks b mem).2.2.2
  have brk : s'.brk = s.brk := brk_congr freed.mem
  have live : ∀ c ∈ s'.live, c ∈ s.live ∧ c.addr ≠ b.addr := by
    intro c memc
    rw [freed.live, Heap.unuse, mem_filter, decide_eq_true_iff] at memc
    exact memc
  refine ⟨fun c memc => ?_, fun c memc => u.large c (live c memc).1, ?_, fun c memc x cov => ?_⟩
  · obtain ⟨memc, ne⟩ := live c memc
    have old := u.blocks c memc
    refine ⟨old.1, old.2.1, by rw [brk]; exact old.2.2.1, ?_⟩
    have out : c.addr ∉ L.base :: rest := fun node => u.no_node fr memc node ⟨le_refl _, by omega⟩
    unfold sz at *
    rw [freed.same c.addr out ne]
    exact old.2.2.2
  · rw [freed.live]
    exact u.apart.filter _
  · obtain ⟨memc, ne⟩ := live c memc
    obtain old | own := (freed.covers x).1 cov
    · exact u.clear c memc x old
    · have apart : c.Apart b := u.apart.forall memc mem fun eq => ne (congrArg Block.addr eq)
      replace own : b.addr ≤ x ∧ x < b.addr + sz s.hdr b.addr := own
      unfold Block.Apart at apart
      omega

theorem free_step (inv : Inv L s) {addr} (st : step L.base s (.free addr) = some s') :
    Inv L s' := by
  obtain ⟨any, st⟩ := Option.ite_none_right_eq_some.1 st
  obtain ⟨b, mem, eq⟩ := any_eq_true.1 any
  rw [decide_eq_true_iff] at eq
  subst eq
  obtain ⟨-, nil⟩ | ⟨f, rest, freep, memf, fr, u⟩ := inv.lists
  · rw [nil] at mem
    exact absurd mem not_mem_nil
  · have spaces : Space L (s.unuse b.addr) := inv.space.congr rfl
    have frees : Free L (s.unuse b.addr) rest := fr.congr (fun _ _ => rfl) (le_refl _)
    obtain ⟨s1, rest', ran, freed⟩ := free_spec spaces frees (u.loose mem) freep memf
    cases ran.symm.trans st
    obtain ⟨f', freep', mem'⟩ := freed.freep
    exact ⟨spaces.congr freed.mem, .inr ⟨f', rest', freep', mem', freed.free, freed.used fr u mem⟩⟩

theorem store_step (inv : Inv L s) {a h} (st : step L.base s (.store a h) = some s') :
    Inv L s' := by
  obtain ⟨any, st⟩ := Option.ite_none_right_eq_some.1 st
  obtain ⟨b, mem, into⟩ := any_eq_true.1 any
  rw [decide_eq_true_iff] at into
  cases st
  obtain ⟨-, nil⟩ | ⟨f, rest, freep, memf, fr, u⟩ := inv.lists
  · rw [nil] at mem
    exact absurd mem not_mem_nil
  · have other : ∀ x, x ≠ a → update s.hdr a h x = s.hdr x := fun x ne => update_of_ne ne _ _
    have node : ∀ x ∈ L.base :: rest, x ≠ a := by
      rintro x node rfl
      exact u.no_node fr mem node ⟨by omega, by omega⟩
    have cover : ∀ x, Covers (update s.hdr a h) rest x ↔ Covers s.hdr rest x :=
      covers_congr fun x mem =>
      sz_congr (other x (node x (mem_cons_of_mem _ mem)))
    refine ⟨inv.space.congr rfl, .inr ⟨f, rest, freep, memf,
      fr.congr (fun x mem => other x (node x mem)) (le_refl _), fun c memc => ?_, u.large, u.apart,
      fun c memc x cov => ?_⟩⟩
    · have old := u.blocks c memc
      refine ⟨old.1, old.2.1, old.2.2.1, ?_⟩
      have ne : c.addr ≠ a := by
        intro eq
        by_cases same : c = b
        · rw [same] at eq
          omega
        · have apart : c.Apart b := u.apart.forall memc mem same
          unfold Block.Apart at apart
          omega
      unfold sz at *
      dsimp only
      rw [other c.addr ne]
      exact old.2.2.2
    · exact u.clear c memc x ((cover x).1 cov)

theorem Layout.inv (L : Layout) : Inv L L.start := by
  have aligned := L.aligned
  refine ⟨⟨?_, le_refl _, L.small, fun v high => L.free v ?_, fun a lt place => ?_⟩,
    .inl ⟨rfl, rfl⟩⟩
  · show L.mem.sz % unit = 0
    unfold unit
    unfold pgSize at aligned
    omega
  · have same : pgroundup L.start.mem.sz / pgSize = L.mem.sz / pgSize := by
      show pgroundup L.mem.sz / pgSize = _
      unfold pgroundup pgSize at *
      omega
    rwa [same] at high
  · obtain high | rfl := place
    · exact absurd lt (not_lt.2 high)
    · exact L.static

theorem Inv.sound (inv : Inv L s) : Sound L s := by
  have aligned := L.aligned
  obtain ⟨null, nil⟩ | ⟨f, rest, freep, mem, fr, u⟩ := inv.lists
  · refine ⟨?_, ?_, ?_, fun f some_ => ?_⟩
    · rw [nil]
      exact fun b no => absurd no not_mem_nil
    · rw [nil]
      exact fun b no => absurd no not_mem_nil
    · rw [nil]
      exact .nil
    · rw [null] at some_
      cases some_
  · refine ⟨u.large, fun b mem => ?_, u.apart,
      fun f' eq => ⟨rest, ?_, fr.listed, fun p node b mem => u.no_node fr mem node⟩⟩
    · have block := u.blocks b mem
      unfold Layout.lo Heap.brk unit pgSize at *
      omega
    · cases freep.symm.trans eq
      exact mem

end steps

/-! ## Runs -/

/-- In every run in which no call asks for more than `maxRequest` bytes, the blocks in use and the
free list are as they should be. -/
theorem malloc_sound {L : Layout} {t : List Act} {s : Heap}
    (run : Run (When (ByStep (step L.base)) Modest) L.start t s) : Sound L s := by
  have inv : Inv L s := by
    refine run.keeps L.inv fun s a s' inv st => ?_
    obtain ⟨st, modest⟩ := st
    cases a with
    | malloc nbytes frames =>
      obtain ⟨s1, ran, inv1⟩ := malloc_step inv frames modest
      cases ran.symm.trans st
      exact inv1
    | free addr => exact free_step inv st
    | store a h => exact store_step inv st
  exact inv.sound

/-- A program of two pages. -/
def twoPages : Layout where
  base := 1
  mem := ⟨fun v => if v < 2 then some zeroPage else none, 8192⟩
  junk := fun _ => ⟨0, 0⟩
  aligned := by decide
  low := by decide
  static := by decide
  small := by decide
  free := fun v high => if_neg (not_lt.2 high)

instance (s : Heap) : DecidablePred (Modest s) := fun a => match a with
  | .malloc nbytes _ => inferInstanceAs (Decidable (nbytes.toNat ≤ maxRequest))
  | .free _ => .isTrue trivial
  | .store _ _ => .isTrue trivial

theorem malloc_sound_small :
    ∃ t s, Run (When (ByStep (step twoPages.base)) Modest) twoPages.start t s ∧
    s.live.map Block.addr = [4586] ∧ Sound twoPages s := by
  obtain ⟨s, run, live⟩ := foldlM_reaches_when (step twoPages.base) twoPages.start Modest
    [.malloc 100 20, .malloc 200 20, .free 4600] (P := fun s => s.live.map Block.addr = [4586])
    (by decide +kernel)
  exact ⟨_, s, run, live, malloc_sound run⟩

/-- The size of a large request is negative as an `int`: `sbrk` moves no break, and the block lies
beyond it. -/
theorem malloc_beyond_break : ∃ t s, Run (ByStep (step twoPages.base)) twoPages.start t s ∧
    ¬ Sound twoPages s := by
  obtain ⟨s, run, block, size⟩ := foldlM_reaches (step twoPages.base) twoPages.start
    [.malloc 65536 20, .malloc 0x80000000 20]
    (P := fun s => Block.mk 4609 134217729 2147483648 ∈ s.live ∧ s.mem.sz = 73744)
    (by decide +kernel)
  refine ⟨_, s, run, fun sound => ?_⟩
  have below := (sound.below _ block).2
  rw [size] at below
  exact absurd below (by decide)

end OsProject.Xv6.Malloc
