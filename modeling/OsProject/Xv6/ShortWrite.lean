import OsProject.Xv6.FileBytes

/-! # Short writes

`writei` copies from the user straight into the cached block, and logs the block
only when the whole chunk is there. When the user's memory breaks off inside
a chunk, the bytes before the break are in the buffer but not in the count that
`writei` returns; they are seen until the buffer is evicted. -/
namespace OsProject.Xv6.ShortWrite
open Inode BlockOwnership Contents Writing
open FileBytes

/-- Reading the file gives parts of `l`. -/
def Shows (g : Super) (d : Disk) (ip : Dinode) (l : List UInt8) : Prop :=
  ∀ off n : UInt32, readi g d ip (fun _ => bsize) off n =
    .ok (some (part l off n).length, part l off n, d, ip)

/-- The loop reaches the chunk that starts at byte `u` of the source, and the
source breaks off in it. -/
structure Breaks (g : Super) (src : Source) (n off : Nat) (d : Disk) (ip : Dinode) (u : Nat) :
    Prop where
  lt : u < n
  starts : Starts off u
  copied : ∀ v, v < u → Starts off v → chunk n v (off + v) ≤ src.got v
  room : Room g off d ip 0 u
  short : src.got u < chunk n u (off + u)

/-- The bytes before the break that fall on old bytes of the file are the same. -/
def Harmless (g : Super) (src : Source) (n off : Nat) (d : Disk) (ip : Dinode) : Prop :=
  ∀ u, Breaks g src n off d ip u → ∀ k, k < src.got u → off + u + k < ip.size.toNat →
    src.byte (u + k) = byteAt d.block ip (off + u + k)

section short
variable {ι : Type} [DecidableEq ι] {g : Super} {d d1 : Disk} {ino : ι → Dinode} {i : ι}
    {ip ip1 : Dinode}
  {src : Source} {off n : UInt32} {t : Nat} {l : List UInt8}

theorem part_all (small : l.length < 2 ^ 32) : part l 0 (UInt32.ofNat l.length) = l := by
  have length : (UInt32.ofNat l.length).toNat = l.length := UInt32.toNat_ofNat_of_lt' small
  rw [part, length, if_pos (by rw [UInt32.toNat_zero]; omega), UInt32.toNat_zero, List.drop_zero,
    List.take_length]

/-- A file shows its contents and nothing else of that length. -/
theorem shows_iff (upto : Upto d.block ip ip.size.toNat) (size : l.length = ip.size.toNat) :
    Shows g d ip l ↔ contents d.block ip = l := by
  constructor
  · intro reads
    have small : l.length < 2 ^ 32 := by
      rw [size]
      exact ip.size.toNat_lt
    have whole := reads 0 (UInt32.ofNat l.length)
    have length : (contents d.block ip).length = ip.size.toNat := contents_length
    rw [readi_part upto (fun _ => le_refl _), part_all small, size, ← length,
      part_all (by rw [contents_length]; exact ip.size.toNat_lt)] at whole
    exact (Prod.mk.inj (Prod.mk.inj (Except.ok.inj whole)).2).1
  · rintro rfl off n
    exact readi_part upto (fun _ => le_refl _) off n

/-- A call that does not return -1 starts within the file and ends below the greatest size. -/
theorem writei_inside (ret : writei g d ip src off n = .ok (some t, d1, ip1)) :
    off ≤ ip.size ∧ off.toNat + n.toNat ≤ maxfile * bsize := by
  unfold writei at ret
  split at ret
  · cases ret
  rename_i within
  split at ret
  · cases ret
  rw [not_or, UInt32.not_lt, UInt32.not_lt] at within
  refine ⟨within.1, ?_⟩
  have sum : (off + n).toNat = (off.toNat + n.toNat) % 2 ^ 32 := UInt32.toNat_add off n
  have nowrap : off.toNat ≤ (off + n).toNat := UInt32.le_iff_toNat_le.1 within.2
  have := n.toNat_lt
  omega

theorem Breaks.stops {n off u t} (h : Breaks g src n off d ip u)
    (stops : Stops g src n off d ip 0 t) : u = t := by
  have short := h.short
  rcases Nat.lt_trichotomy u t with before | same | behind
  · have all := stops.copied u (Nat.zero_le _) before h.starts
    omega
  · exact same
  · have lt := h.lt
    have broke := stops.why (by omega) (h.room.mono (le_of_lt behind))
    have all := h.copied t behind (stops.starts (by omega))
    omega

/-- The chunk in which the source breaks off is the one at which the loop stops. -/
theorem breaks_iff {n off} (stops : Stops g src n off d ip 0 t) (lt : t < n) {u} :
    Breaks g src n off d ip u ↔ u = t ∧ Room g off d ip 0 t := by
  constructor
  · intro h
    obtain rfl := h.stops stops
    exact ⟨rfl, h.room⟩
  · rintro ⟨rfl, room⟩
    exact ⟨lt, stops.starts lt, fun v before => stops.copied v (Nat.zero_le _) before, room,
      stops.why lt room⟩

/-- Where the loop stops does not depend on what becomes of the buffer. -/
theorem Stops.kept {n off b} (h : Stops g { src with kept := b } n off d ip 0 t) :
    Stops g src n off d ip 0 t := ⟨h.ge, h.le, h.starts, h.copied, h.room, h.why⟩

/-- After a short write the file shows what was counted if the bytes in the
buffer behind the count make no difference. -/
theorem writei_shows_iff (owns : Owns g d ino) (live : (ino i).type ≠ 0)
    (upto : Upto d.block (ino i) (ino i).size.toNat) (inside : off ≤ (ino i).size)
    (fits : off.toNat + n.toNat ≤ maxfile * bsize) (src : Source) :
    ∃ t d' ip', writei g d (ino i) src off n = .ok (some t, d', ip') ∧
      Stops g src n.toNat off.toNat d (ino i) 0 t ∧
      (Shows g d' ip' (put (contents d.block (ino i)) off.toNat (sent src t)) ↔
        ∀ k, t ≤ k → k < t + spilt g src n.toNat off.toNat d (ino i) 0 t →
          off.toNat + k < (ino i).size.toNat →
            src.byte k = byteAt d.block (ino i) (off.toNat + k)) := by
  obtain ⟨t, d', ip1, eq, stops, wrote⟩ := writei_stops src owns live inside fits
  refine ⟨t, d', _, eq, stops, ?_⟩
  have le := stops.le
  have inside' : off.toNat ≤ (ino i).size.toNat := UInt32.le_iff_toNat_le.1 inside
  have small : max (ino i).size.toNat (off.toNat + t) < 2 ^ 32 := by
    have := (ino i).size.toNat_lt
    have : maxfile * bsize < 2 ^ 32 := by decide
    omega
  have size := UInt32.toNat_ofNat_of_lt' small
  have length : (put (contents d.block (ino i)) off.toNat (sent src t)).length =
      max (ino i).size.toNat (off.toNat + t) := by
    rw [put_length (by rw [contents_length]; exact inside'), contents_length, sent_length]
  have upto' : Upto d'.block ip1 (max (ino i).size.toNat (off.toNat + t)) :=
    Wrote.upto_max wrote upto inside' (Nat.le_add_right _ _)
  refine (shows_iff ?_ ?_).trans (contents_wrote wrote (Nat.le_add_right _ _) upto inside' small)
  · rw [size]
    exact upto'
  · rw [length, size]

/-- A short write shows the bytes it has counted and leaves the other bytes of
the file, whether its buffers stay in the cache or not, exactly if the bytes of
the last chunk before the break, which are not counted, are those that the
file had there. -/
theorem short_write_intact_iff (owns : Owns g d ino) (live : (ino i).type ≠ 0)
    (upto : Upto d.block (ino i) (ino i).size.toNat)
    (ret : writei g d (ino i) src off n = .ok (some t, d1, ip1)) (short : t < n.toNat) :
    (∀ b d' ip', writei g d (ino i) { src with kept := b } off n = .ok (some t, d', ip') →
      Shows g d' ip' (put (contents d.block (ino i)) off.toNat (sent src t))) ↔
    Harmless g src n.toNat off.toNat d (ino i) := by
  obtain ⟨inside, fits⟩ := writei_inside ret
  obtain ⟨t', _, _, eq, stops, -⟩ := writei_shows_iff owns live upto inside fits src
  obtain rfl : t' = t := Option.some.inj (Prod.mk.inj (Except.ok.inj (eq.symm.trans ret))).1
  have each : ∀ b d' ip', writei g d (ino i) { src with kept := b } off n = .ok (some t', d', ip') →
      (Shows g d' ip' (put (contents d.block (ino i)) off.toNat (sent src t')) ↔
        ∀ k, t' ≤ k → k < t' + spilt g { src with kept := b } n.toNat off.toNat d (ino i) 0 t' →
          off.toNat + k < (ino i).size.toNat →
          src.byte k = byteAt d.block (ino i) (off.toNat + k)) := by
    intro b d' ip' done
    obtain ⟨t1, _, _, eq, -, iff⟩ :=
      writei_shows_iff owns live upto inside fits { src with kept := b }
    obtain ⟨first, rest⟩ := Prod.mk.inj (Except.ok.inj (eq.symm.trans done))
    cases first
    cases rest
    exact iff
  constructor
  · intro all u breaks k lt old
    obtain ⟨rfl, room⟩ := (breaks_iff stops short).1 breaks
    obtain ⟨t1, d', ip', stays, stops', -⟩ :=
      writei_shows_iff owns live upto inside fits { src with kept := true }
    obtain rfl : t1 = u := (Stops.kept stops').unique stops
    have kept : spilt g { src with kept := true } n.toNat off.toNat d (ino i) 0 t1 = src.got t1 :=
      if_pos ⟨rfl, short, room⟩
    have same := (each true d' ip' stays).1 (all true d' ip' stays) (t1 + k) (Nat.le_add_right _ _)
      (by omega) (by omega)
    rw [← add_assoc] at same
    exact same
  · intro harmless b d' ip' done
    refine (each b d' ip' done).2 fun k ge lt old => ?_
    by_cases kept : b = true ∧ t' < n.toNat ∧ Room g off.toNat d (ino i) 0 t'
    · have spill : spilt g { src with kept := b } n.toNat off.toNat d (ino i) 0 t' = src.got t' :=
        if_pos kept
      have same := harmless t' ((breaks_iff stops short).2 ⟨rfl, kept.2.2⟩) (k - t')
        (by omega) (by omega)
      rw [show t' + (k - t') = k by omega, show off.toNat + t' + (k - t') = off.toNat + k by omega]
        at same
      exact same
    · have none : spilt g { src with kept := b } n.toNat off.toNat d (ino i) 0 t' = 0 := if_neg kept
      omega

end short

/-- A buffer of nines of which `m` bytes can be read. -/
def nines (m : Nat) : Source := ⟨fun _ => 9, fun _ => m, true⟩

theorem nines_returns (m : Nat) (small : m < 2) :
    ∃ d' ip', writei sampleSuper sevens.disk (sevens.ino ()) (nines m) 0 2 =
      .ok (some 0, d', ip') := by
  have start : 0 ≤ (sevens.ino ()).size := by decide +kernel
  obtain ⟨t, d', ip', eq, stops, -⟩ :=
    writei_shows_iff (n := 2) sevens_puts.owns sevens_puts.solid.live sevens_puts.solid.upto start
      (by decide) (nines m)
  obtain rfl : t = 0 := by
    by_contra pos
    have all : chunk 2 0 0 ≤ m := stops.copied 0 (le_refl _) (by omega) (.inl rfl)
    have two : chunk 2 0 0 = 2 := by decide
    omega
  exact ⟨d', ip', eq⟩

/-- A write whose source cannot be read at all leaves the file. -/
theorem unread_write_intact : sevens.shows () = [7, 7] ∧ ∀ b d' ip',
    writei sampleSuper sevens.disk (sevens.ino ()) { nines 0 with kept := b } 0 2 =
      .ok (some 0, d', ip') →
    Shows sampleSuper d' ip' [7, 7] := by
  obtain ⟨d', ip', ret⟩ := nines_returns 0 (by decide)
  have iff := short_write_intact_iff sevens_puts.owns sevens_puts.solid.live sevens_puts.solid.upto
    ret (by decide)
  have same : put (sevens.shows ()) 0 (sent (nines 0) 0) = [7, 7] := by rfl
  refine ⟨sevens_shows, ?_⟩
  exact iff.2 fun u _ k lt => absurd lt (Nat.not_lt_zero _)

/-- The source breaks off after one byte: `writei` returns 0, and reading the file
shows that its first byte has changed. -/
theorem short_write_changes_file : Owns sampleSuper sevens.disk sevens.ino ∧ Solid sevens () ∧
    sevens.shows () = [7, 7] ∧
    (writei sampleSuper sevens.disk (sevens.ino ()) (nines 1) 0 2).toOption.map (·.1) =
      some (some 0) ∧
    ((writei sampleSuper sevens.disk (sevens.ino ()) (nines 1) 0 2).toOption.bind fun r =>
      (readi sampleSuper r.2.1 r.2.2 (fun _ => bsize) 0 2).toOption.map (·.2.1)) = some [9, 7] :=
  ⟨sevens_puts.owns, sevens_puts.solid, sevens_shows, by decide +kernel, by decide +kernel⟩

end OsProject.Xv6.ShortWrite
