import OsProject.Xv6.Writing

/-! # Files are byte arrays

What a file shows is the list of its bytes. `writei` puts bytes into the list,
at the end or over old ones, and touches no other file; `readi` returns a part
of the list. -/
namespace OsProject.Xv6.FileBytes
open Lib.Transition Inode BlockOwnership Contents List
open Writing
open Function (update update_of_ne update_self)

/-- The bytes of a file. -/
def contents (blk : UInt32 → Block) (ip : Dinode) : List UInt8 :=
  (List.range ip.size.toNat).map (byteAt blk ip)

/-- The first `m` bytes of the source. -/
def sent (src : Source) (m : Nat) : List UInt8 := (List.range m).map src.byte

/-- The list with `p` in it from `off` on. -/
def put (l : List UInt8) (off : Nat) (p : List UInt8) : List UInt8 :=
  l.take off ++ p ++ l.drop (off + p.length)

section lists
variable {blk : UInt32 → Block} {ip : Dinode} {l p : List UInt8} {src : Source} {off k m : Nat}

theorem contents_length : (contents blk ip).length = ip.size.toNat := by
  rw [contents, length_map, length_range]

theorem contents_getD (lt : k < ip.size.toNat) : (contents blk ip).getD k 0 = byteAt blk ip k := by
  rw [getD_eq_getElem _ _ (by rw [contents_length]; exact lt)]
  simp only [contents, getElem_map, getElem_range]

theorem holds_contents (upto : Upto blk ip ip.size.toNat) : Holds blk ip (contents blk ip) := by
  refine ⟨?_, fun k lt => ?_⟩
  · rw [contents_length]
    exact upto
  · rw [contents_length] at lt
    exact (contents_getD lt).symm

theorem contents_eq_iff (size : ip.size.toNat = l.length) :
    contents blk ip = l ↔ ∀ k, k < l.length → byteAt blk ip k = l.getD k 0 := by
  constructor
  · rintro rfl k lt
    exact (contents_getD (by rw [size]; exact lt)).symm
  · intro bytes
    refine ext_getElem (by rw [contents_length, size]) fun k _ lt => ?_
    rw [← getD_eq_getElem _ 0 lt, ← bytes k lt]
    simp only [contents, getElem_map, getElem_range]

/-- A file whose blocks are there is not longer than `MAXFILE` blocks. -/
theorem upto_le {len} (h : Upto blk ip len) : len ≤ maxfile * bsize := by
  by_contra more
  refine h maxfile (by omega) ?_
  rfl

theorem sent_length : (sent src m).length = m := by rw [sent, length_map, length_range]

theorem sent_getD (lt : k < m) : (sent src m).getD k 0 = src.byte k := by
  rw [getD_eq_getElem _ _ (by rw [sent_length]; exact lt)]
  simp only [sent, getElem_map, getElem_range]

theorem put_length (inside : off ≤ l.length) :
    (put l off p).length = max l.length (off + p.length) := by
  simp only [put, length_append, length_take, length_drop]
  omega

theorem put_getD (inside : off ≤ l.length) :
    (put l off p).getD k 0 = if off ≤ k ∧ k < off + p.length then p.getD (k - off) 0
      else l.getD k 0 := by
  have taken : (l.take off).length = off := length_take_of_le inside
  rw [put]
  rcases lt_or_ge k off with before | behind
  · rw [if_neg (by omega), append_assoc, getD_append _ _ _ _ (by omega)]
    simp only [getD_eq_getElem?_getD, getElem?_take_of_lt before]
  · rcases lt_or_ge k (off + p.length) with inner | outer
    · rw [if_pos ⟨behind, inner⟩, append_assoc, getD_append_right _ _ _ _ (by omega), taken,
        getD_append _ _ _ _ (by omega)]
    · rw [if_neg (by omega), getD_append_right _ _ _ _ (by rw [length_append]; omega),
        length_append, taken]
      simp only [getD_eq_getElem?_getD, getElem?_drop]
      rw [show off + p.length + (k - (off + p.length)) = k by omega]

end lists

/-- A file that is not touched shows the same. -/
theorem untouched_contents {blk blk' ip} (h : Untouched blk blk' ip)
    (upto : Upto blk ip ip.size.toNat) :
    contents blk' ip = contents blk ip ∧ Upto blk' ip ip.size.toNat := by
  have holds := h.holds (holds_contents upto)
  have length : (contents blk ip).length = ip.size.toNat := contents_length
  refine ⟨(contents_eq_iff length.symm).2 holds.bytes, ?_⟩
  rw [← length]
  exact holds.upto

section writes
variable {ι : Type} [DecidableEq ι] {g : Super} {d d' : Disk} {ino : ι → Dinode} {i : ι}
    {ip1 : Dinode}
  {src : Source}

/-- A file that has grown has all its blocks. -/
theorem Wrote.upto_max {off t hi} (wrote : Wrote g src off ino i d 0 hi d' ip1)
    (upto : Upto d.block (ino i) (ino i).size.toNat) (inside : off ≤ (ino i).size.toNat)
    (le : t ≤ hi) : Upto d'.block ip1 (max (ino i).size.toNat (off + t)) := by
  intro bn lt
  rcases lt_or_ge (bn * bsize) (ino i).size.toNat with old | new
  · have mapped := upto bn old
    rw [wrote.grows.blockAt bn mapped]
    exact mapped
  · have there := wrote.there (bn * bsize) (by omega) (by omega)
    rw [Nat.mul_div_cancel _ (by decide)] at there
    exact there

/-- The file shows the first `t` bytes of the source at `off` if what else was
moved, up to byte `hi`, is what was there before. -/
theorem contents_wrote {off t hi} (wrote : Wrote g src off ino i d 0 hi d' ip1) (le : t ≤ hi)
    (upto : Upto d.block (ino i) (ino i).size.toNat) (inside : off ≤ (ino i).size.toNat)
    (small : max (ino i).size.toNat (off + t) < 2 ^ 32) :
    contents d'.block { ip1 with size := UInt32.ofNat (max (ino i).size.toNat (off + t)) } =
        put (contents d.block (ino i)) off (sent src t) ↔
      ∀ k, t ≤ k → k < hi → off + k < (ino i).size.toNat →
        src.byte k = byteAt d.block (ino i) (off + k) := by
  have length : (put (contents d.block (ino i)) off (sent src t)).length =
      max (ino i).size.toNat (off + t) := by
    rw [put_length (by rw [contents_length]; exact inside), contents_length, sent_length]
  have after : ∀ k, k < max (ino i).size.toNat (off + t) → byteAt d'.block ip1 k =
      if off ≤ k ∧ k < off + hi then src.byte (k - off) else byteAt d.block (ino i) k := by
    intro k lt
    rcases lt_or_ge k (ino i).size.toNat with old | new
    · have mapped : blockAt d.block (ino i) (k / bsize) ≠ 0 := by
        refine upto _ ?_
        have := Nat.div_mul_le_self k bsize
        omega
      rw [wrote.bytes k (by rw [wrote.grows.blockAt _ mapped]; exact mapped),
        if_neg mapped, add_zero]
    · have there := wrote.there k (by omega) (by omega)
      rw [wrote.bytes k there, if_pos (by omega), if_pos (by omega)]
  have before : ∀ k, k < max (ino i).size.toNat (off + t) →
      (put (contents d.block (ino i)) off (sent src t)).getD k 0 =
        if off ≤ k ∧ k < off + t then src.byte (k - off) else byteAt d.block (ino i) k := by
    intro k lt
    rw [put_getD (by rw [contents_length]; exact inside), sent_length]
    split
    · rw [sent_getD (by omega)]
    · rw [contents_getD (by omega)]
  rw [contents_eq_iff (by rw [length]; exact UInt32.toNat_ofNat_of_lt' small), length]
  have same : ∀ k, byteAt d'.block
    { ip1 with size := UInt32.ofNat (max (ino i).size.toNat (off + t)) } k =
      byteAt d'.block ip1 k := fun _ => rfl
  constructor
  · intro eq k ge lt old
    have at_k := eq (off + k) (by omega)
    rw [same, after _ (by omega), before _ (by omega), if_pos (by omega), if_neg (by omega)] at at_k
    rw [← at_k, Nat.add_sub_cancel_left]
  · intro eq k lt
    rw [same, after k lt, before k lt]
    by_cases early : off ≤ k ∧ k < off + t
    · rw [if_pos (by omega), if_pos early]
    · split
      · have moved := eq (k - off) (by omega) (by omega) (by omega)
        rw [show off + (k - off) = k by omega] at moved
        exact moved
      · rfl

theorem readi_part {ip} (upto : Upto d.block ip ip.size.toNat) {got}
    (enough : ∀ t, bsize ≤ got t) (off n : UInt32) : readi g d ip got off n =
      .ok (some (part (contents d.block ip) off n).length, part (contents d.block ip) off n,
        d, ip) := by
  obtain ⟨k, out, ⟨rfl, rfl⟩, eq⟩ :=
    readTo_done (g := g) (collect_copying enough) (holds_contents upto) contents_length off n []
  rw [readi, eq, if_pos rfl]
  rfl

/-! ## Sequences of writes -/

/-- The blocks of a file system, and its inodes. -/
structure Volume (ι : Type) where
  disk : Disk
  ino : ι → Dinode

def Volume.shows (s : Volume ι) (i : ι) : List UInt8 := contents s.disk.block (s.ino i)

/-- A file in use, all of whose blocks are there. -/
structure Solid (s : Volume ι) (i : ι) : Prop where
  live : (s.ino i).type ≠ 0
  upto : Upto s.disk.block (s.ino i) (s.ino i).size.toNat

structure Write (ι : Type) where
  file : ι
  src : Source
  off : UInt32
  n : UInt32

def write (g : Super) (s : Volume ι) (w : Write ι) : Except Panic (Option Nat × Volume ι) := do
  let (r, d, ip) ← writei g s.disk (s.ino w.file) w.src w.off w.n
  return (r, { disk := d, ino := update s.ino w.file ip })

/-- The write starts within the file and ends below the greatest size, and
blocks and user memory suffice. -/
structure Suits (g : Super) (s : Volume ι) (w : Write ι) : Prop where
  solid : Solid s w.file
  inside : w.off ≤ (s.ino w.file).size
  fits : w.off.toNat + w.n.toNat ≤ maxfile * bsize
  blocks : 0 < w.n.toNat → Room g w.off.toNat s.disk (s.ino w.file) 0 (w.n.toNat - 1)
  memory : ∀ t, t < w.n.toNat → chunk w.n.toNat t (w.off.toNat + t) ≤ w.src.got t

/-- Such a write stops at its end. -/
theorem stops_end {off n t ip} (stops : Stops g src n off d ip 0 t)
    (blocks : 0 < n → Room g off d ip 0 (n - 1))
    (memory : ∀ t, t < n → chunk n t (off + t) ≤ src.got t) : t = n := by
  by_contra short
  have lt : t < n := lt_of_le_of_ne stops.le short
  have := stops.why lt ((blocks (by omega)).mono (by omega))
  have := memory t lt
  omega

/-- What a write that suits does. -/
structure Puts (g : Super) (s : Volume ι) (w : Write ι) (s' : Volume ι) : Prop where
  owns : Owns g s'.disk s'.ino
  solid : Solid s' w.file
  shows : s'.shows w.file = put (s.shows w.file) w.off.toNat (sent w.src w.n.toNat)
  size : (s'.ino w.file).size.toNat = max (s.ino w.file).size.toNat (w.off.toNat + w.n.toNat)
  others : ∀ j, j ≠ w.file → (s.ino j).type ≠ 0 →
    s'.ino j = s.ino j ∧ Untouched s.disk.block s'.disk.block (s.ino j)

theorem write_puts {s} {w : Write ι} (owns : Owns g s.disk s.ino) (suits : Suits g s w) :
    ∃ s', write g s w = .ok (some w.n.toNat, s') ∧ Puts g s w s' := by
  obtain ⟨t, d', ip1, eq, stops, wrote⟩ :=
    writei_stops w.src owns suits.solid.live suits.inside suits.fits
  obtain rfl := stops_end stops suits.blocks suits.memory
  have none : spilt g w.src w.n.toNat w.off.toNat s.disk (s.ino w.file) 0 w.n.toNat = 0 :=
    if_neg fun all => lt_irrefl _ all.2.1
  rw [none, add_zero] at wrote
  have inside : w.off.toNat ≤ (s.ino w.file).size.toNat := UInt32.le_iff_toNat_le.1 suits.inside
  have small : max (s.ino w.file).size.toNat (w.off.toNat + w.n.toNat) < 2 ^ 32 := by
    have := (s.ino w.file).size.toNat_lt
    have : maxfile * bsize < 2 ^ 32 := by decide
    have := suits.fits
    omega
  have size := UInt32.toNat_ofNat_of_lt' small
  have grown := Wrote.upto_max wrote suits.solid.upto inside (le_refl _)
  refine ⟨_, by rw [write, eq]; rfl, ?_, ?_, ?_, ?_,
    fun j hj live => ⟨update_of_ne hj .., wrote.others j hj live⟩⟩
  · exact wrote.grows.owns.replace rfl rfl
  · refine ⟨?_, ?_⟩
    · simp only [update_self]
      rw [wrote.grows.type]
      exact suits.solid.live
    · simp only [update_self]
      rw [size]
      exact grown
  · simp only [Volume.shows, update_self]
    exact (contents_wrote wrote (le_refl _) suits.solid.upto inside small).2 fun k ge lt => by omega
  · simp only [update_self]
    exact size

/-- A write that suits, as a step. -/
def Writes (g : Super) (s : Volume ι) (w : Write ι) (s' : Volume ι) : Prop :=
  Suits g s w ∧ write g s w = .ok (some w.n.toNat, s')

/-- The bytes of file `i` after a history of writes, the newest first. -/
def after (i : ι) (l : List UInt8) : List (Write ι) → List UInt8
  | [] => l
  | w :: ws =>
    if w.file = i then put (after i l ws) w.off.toNat (sent w.src w.n.toNat) else after i l ws

theorem writes_puts {s s'} {w : Write ι} (owns : Owns g s.disk s.ino) (step : Writes g s w s') :
    Puts g s w s' := by
  obtain ⟨s1, eq, puts⟩ := write_puts owns step.1
  rw [step.2] at eq
  obtain rfl := (Prod.mk.inj (Except.ok.inj eq)).2
  exact puts

/-- A file after a history of writes. -/
theorem run_shows {s s'} {ws : List (Write ι)} (owns : Owns g s.disk s.ino) (solid : Solid s i)
    (run : Run (Writes g) s ws s') : Solid s' i ∧ s'.shows i = after i (s.shows i) ws := by
  refine (run.invariant (I := fun ws s' => Owns g s'.disk s'.ino ∧ Solid s' i ∧
    s'.shows i = after i (s.shows i) ws) ⟨owns, solid, rfl⟩ ?_).2
  intro ws s1 w s2 _ ⟨owns1, solid1, shows1⟩ step
  have puts := writes_puts owns1 step
  refine ⟨puts.owns, ?_⟩
  rw [after, ← shows1]
  by_cases same : w.file = i
  · subst same
    rw [if_pos rfl]
    exact ⟨puts.solid, puts.shows⟩
  · obtain ⟨node, untouched⟩ := puts.others i (Ne.symm same) solid1.live
    obtain ⟨shows, upto⟩ := untouched_contents untouched solid1.upto
    rw [if_neg same]
    refine ⟨⟨by rw [node]; exact solid1.live, by rw [node]; exact upto⟩, ?_⟩
    rw [Volume.shows, node]
    exact shows

/-- A write that starts within the file and for which blocks and memory suffice
returns `n`, and puts its bytes into the file. After any such writes, `readi`
returns the bytes from `off` to `off + n` that were written last, as many as
there are; if the sum does not fit in 32 bits, it returns none. -/
theorem files_are_byte_arrays {s : Volume ι} (owns : Owns g s.disk s.ino) :
    (∀ w, Suits g s w → ∃ s', write g s w = .ok (some w.n.toNat, s') ∧ Puts g s w s') ∧
    ∀ ws s', Run (Writes g) s ws s' → ∀ i, Solid s i → ∀ got, (∀ t, bsize ≤ got t) →
      ∀ off n : UInt32, readi g s'.disk (s'.ino i) got off n =
        .ok (some (part (after i (s.shows i) ws) off n).length, part (after i (s.shows i) ws) off n,
          s'.disk, s'.ino i) := by
  refine ⟨fun w suits => write_puts owns suits, fun ws s' run i solid got enough off n => ?_⟩
  obtain ⟨solid', shows'⟩ := run_shows owns solid run
  rw [← shows']
  exact readi_part solid'.upto enough off n

end writes

/-- A file system with one file, which is empty. -/
def oneFile : Volume Unit where
  disk := { bit := fun b => decide (b < 3), block := fun _ _ => 0 }
  ino _ := { Dinode.zero with type := 2 }

/-- An inode without blocks has none, whatever it is. -/
theorem bare_owns (type : Int16) : Owns sampleSuper oneFile.disk fun _ :
    Unit => { Dinode.zero with type := type } := by
  have none : ∀ s, held oneFile.disk.block (fun _ : Unit => { Dinode.zero with type := type }) s =
      none := by
    rintro ⟨i, p⟩
    refine held_eq_none ?_
    cases p <;> rfl
  have unheld : ∀ s b, held oneFile.disk.block (fun _ : Unit => { Dinode.zero with type := type })
      s ≠ some b := by
    intro s b eq
    rw [none] at eq
    cases eq
  refine ⟨⟨fun s _ b eq => absurd eq (unheld s b), fun s b eq => absurd eq (unheld s b),
    fun b hb => ?_⟩, fun b low => decide_eq_true low⟩
  refine ⟨fun used => ?_, fun ⟨s, eq⟩ => absurd eq (unheld s b)⟩
  exact absurd (UInt32.lt_of_lt_of_le (of_decide_eq_true used) hb.1) (UInt32.lt_irrefl b)

theorem oneFile_owns : Owns sampleSuper oneFile.disk oneFile.ino := bare_owns 2

theorem oneFile_solid : Solid oneFile () := ⟨by decide, fun bn lt => absurd lt (Nat.not_lt_zero _)⟩

/-- Two sevens for the file. -/
def twoSevens : Write Unit :=
  { file := (), src := ⟨fun _ => 7, fun _ => bsize, true⟩, off := 0, n := 2 }

theorem twoSevens_suits : Suits sampleSuper oneFile twoSevens :=
  ⟨oneFile_solid, by decide, by decide, fun _ => by decide +kernel,
    fun t _ => le_trans chunk_le (Nat.sub_le ..)⟩

/-- The file system with the two bytes in the file. -/
def sevens : Volume Unit := ((write sampleSuper oneFile twoSevens).toOption.map (·.2)).getD oneFile

theorem sevens_puts : Puts sampleSuper oneFile twoSevens sevens := by
  obtain ⟨s', eq, puts⟩ := write_puts oneFile_owns twoSevens_suits
  have same : sevens = s' := by
    rw [sevens, eq]
    rfl
  rw [same]
  exact puts

theorem sevens_shows : sevens.shows () = [7, 7] := sevens_puts.shows

theorem byte_array_read_back : ∃ s', write sampleSuper oneFile twoSevens = .ok (some 2, s') ∧
    readi sampleSuper s'.disk (s'.ino ()) (fun _ => bsize) 1 5 =
      .ok (some 1, [7], s'.disk, s'.ino ()) := by
  obtain ⟨puts, reads⟩ := files_are_byte_arrays oneFile_owns
  obtain ⟨s', eq, -⟩ := puts twoSevens twoSevens_suits
  refine ⟨s', eq, ?_⟩
  exact reads [twoSevens] s' (.single ⟨twoSevens_suits, eq⟩) () oneFile_solid _
    (fun _ => le_refl _) 1 5

/-- A read from the second byte on that asks for as many bytes as it can gets
none, because the sum wraps to 0. -/
theorem wrapped_read_empty : Owns sampleSuper sevens.disk sevens.ino ∧ Solid sevens () ∧
    readi sampleSuper sevens.disk (sevens.ino ()) (fun _ => bsize) 1 4294967295 =
      .ok (some 0, [], sevens.disk, sevens.ino ()) ∧
        ((sevens.shows ()).drop 1).take 4294967295 = [7] := by
  refine ⟨sevens_puts.owns, sevens_puts.solid, ?_, ?_⟩
  · exact readi_part sevens_puts.solid.upto (fun _ => le_refl _) 1 4294967295
  · rfl

end OsProject.Xv6.FileBytes
