import OsProject.Xv6.CopyOut
import OsProject.Xv6.Sbrk
import Mathlib.Data.List.Basic

/-! # The stack of a new image

The part of `kexec` behind the loading of the segments: the user stack is allocated, and the
argument strings and the array of their addresses are pushed onto it. -/
namespace OsProject.Xv6.ExecStack
open Memory CopyOut Sbrk List Option

def userStack : Nat := 1

def maxArg : Nat := 32

/-- What `sys_exec` passes on: fewer than `MAXARG` strings, each of them ended by a NUL inside one
page. -/
structure Argv where
  strings : List (List UInt8)
  few : strings.length < maxArg
  short : ∀ s ∈ strings, s.length < pgSize ∧ 0 ∉ s

/-- The bytes of a `uint64`. -/
def bytes64 (n : Nat) : List UInt8 := (List.range 8).map fun k => UInt8.ofNat (n / 256 ^ k)

/-- `uvmclear`; a page that is not mapped panics. -/
def uvmclear (m : AddrSpace) (v : Nat) : Option AddrSpace :=
  (m.pages v).map fun pg => m.put v { pg with user := false }

/-- Below `sp`, and aligned. No string is longer than `sp`, which stays above one page. -/
def pushed (sp len : Nat) : Nat := (sp - len) - (sp - len) % 16

/-- One `copyout` to the stack. All of its pages are mapped, so that none can be faulted in. -/
def push (stackbase : Nat) (m : AddrSpace) (sp : Nat) (bs : List UInt8) :
    Option (AddrSpace × Nat) :=
  let sp := pushed sp bs.length
  if sp < stackbase then none
  else match copyout (fun _ => false) m sp bs with
    | (m, true) => some (m, sp)
    | (_, false) => none

/-- The loop over the strings: the stack pointer and `ustack`. -/
def pushStrings (stackbase : Nat) : List (List UInt8) → AddrSpace → Nat → List Nat →
    Option (AddrSpace × Nat × List Nat)
  | [], m, sp, ustack => some (m, sp, ustack)
  | s :: argv, m, sp, ustack =>
    if ustack.length ≥ maxArg then none
    else do
      let (m, sp) ← push stackbase m sp (s ++ [0])
      pushStrings stackbase argv m sp (ustack ++ [sp])

/-- The new image, with the registers that the program starts with. -/
structure Image where
  mem : AddrSpace
  a0 : Nat
  a1 : Nat
  sp : Nat

/-- The stack setup, on the segments in `m`: no image for the label `bad`, and no result for a
panic. -/
def stackSetup (ok : Nat → Bool) (m : AddrSpace) (argv : Argv) : Option (Option Image) := do
  let sz := pgroundup m.sz
  let (m, sz1) ← uvmalloc ok m sz (sz + (userStack + 1) * pgSize)
  if sz1 = 0 then return none
  let m ← uvmclear { m with sz := sz1 } (sz1 / pgSize - (userStack + 1))
  let stackbase := sz1 - userStack * pgSize
  return do
    let (m, sp, ustack) ← pushStrings stackbase argv.strings m sz1 []
    let (m, sp) ← push stackbase m sp ((ustack ++ [0]).flatMap bytes64)
    return ⟨m, ustack.length, sp, sp⟩

/-! ## What is on the stack -/

variable {m m' : AddrSpace} {base sp sp' : Nat} {bs : List UInt8}

/-- The bytes from an address on. -/
def Holds (m : AddrSpace) (a : Nat) (bs : List UInt8) : Prop :=
  ∀ i, i < bs.length → m.read (a + i) = some (bs.getD i 0)

theorem Holds.mono (h : Holds m sp bs) (same : ∀ x, sp ≤ x → Extends m m' x) : Holds m' sp bs :=
  fun i lt => (same (sp + i) (Nat.le_add_right ..)).some (h i lt)

theorem pushed_le (sp len : Nat) (fits : len ≤ sp) :
    pushed sp len + len ≤ sp ∧ pushed sp len % 16 = 0 := by
  unfold pushed
  omega

/-- What one push has done. -/
structure Pushed (base : Nat) (m m' : AddrSpace) (sp sp' : Nat) (bs : List UInt8) : Prop where
  below : sp' + bs.length ≤ sp
  inside : base ≤ sp'
  low : bs ≠ [] → sp' < maxVa
  aligned : sp' % 16 = 0
  holds : Holds m' sp' bs
  kept : ∀ x, sp ≤ x → Extends m m' x

theorem push_eq (h : push base m sp bs = some (m', sp')) (fits : bs.length ≤ sp) :
    Pushed base m m' sp sp' bs := by
  obtain ⟨below, aligned⟩ := pushed_le sp bs.length fits
  obtain ⟨inside, h⟩ := ite_none_left_eq_some.1 h
  obtain ⟨k, took, all⟩ := copyout_took (fun _ => false) m (pushed sp bs.length) bs
  split at h
  · rename_i copy
    cases h
    rw [copy] at took all
    obtain rfl := all.1 rfl
    refine ⟨below, not_lt.1 inside, fun ne => ?_, aligned, took.bytes,
      fun x le => took.rest x (.inr (by omega))⟩
    have page := (took.loads (length_pos_iff.2 ne)).1
    unfold pgSize maxVa at *
    omega
  · cases h

/-- The strings lie one below the other, each ended by a NUL. -/
inductive Stacked (m : AddrSpace) (base : Nat) : List (List UInt8) → List Nat → Nat → Nat → Prop
  | nil {sp : Nat} : Stacked m base [] [] sp sp
  | cons {s : List UInt8} {ss : List (List UInt8)} {p : Nat} {ps : List Nat} {sp sp' : Nat} :
      p + (s.length + 1) ≤ sp → base ≤ p → p < maxVa → Holds m p (s ++ [0]) →
        Stacked m base ss ps p sp' →
      Stacked m base (s :: ss) (p :: ps) sp sp'

variable {ss : List (List UInt8)} {ps us us' : List Nat}

theorem Stacked.le (h : Stacked m base ss ps sp sp') : sp' ≤ sp := by
  induction h with
  | nil => exact le_refl _
  | cons => omega

theorem Stacked.mono (h : Stacked m base ss ps sp sp') (same : ∀ x, sp' ≤ x → Extends m m' x) :
    Stacked m' base ss ps sp sp' := by
  induction h with
  | nil => exact .nil
  | cons below inside low holds rest ih =>
    exact .cons below inside low (holds.mono fun x le => same x (le_trans rest.le le)) (ih same)

theorem pushStrings_eq (short : ∀ s ∈ ss, s.length < base) (le : base ≤ sp)
    (h : pushStrings base ss m sp us = some (m', sp', us')) : ∃ ps, us' = us ++ ps ∧ base ≤ sp' ∧
      Stacked m' base ss ps sp sp' ∧ ∀ x, sp ≤ x → Extends m m' x := by
  induction ss generalizing m sp us with
  | nil =>
    cases h
    exact ⟨[], (append_nil _).symm, le, .nil, fun x _ => .refl _ x⟩
  | cons s ss ih =>
    obtain ⟨first, short⟩ := forall_mem_cons.1 short
    obtain ⟨_, h⟩ := ite_none_left_eq_some.1 h
    obtain ⟨⟨m1, p⟩, one, rest⟩ := bind_eq_some_iff.1 h
    have done := push_eq one (by rw [length_append, length_singleton]; omega)
    have below := done.below
    rw [length_append, length_singleton] at below
    obtain ⟨ps, rfl, inside, stacked, kept⟩ := ih short done.inside rest
    refine ⟨p :: ps, by simp, inside,
      .cons below done.inside (done.low (by simp)) (done.holds.mono kept) stacked, ?_⟩
    exact fun x high => (done.kept x high).trans (kept x (by omega))

/-- A string in its place below `top`. -/
def Placed (m : AddrSpace) (base top : Nat) (q : Nat × List UInt8) : Prop :=
  base ≤ q.1 ∧ q.1 + (q.2.length + 1) ≤ top ∧ q.1 < maxVa ∧ Holds m q.1 (q.2 ++ [0])

theorem Stacked.places (h : Stacked m base ss ps sp sp') : ps.length = ss.length ∧
    (∀ q ∈ ps.zip ss, sp' ≤ q.1 ∧ Placed m base sp q) ∧
      (ps.zip ss).Pairwise fun q q' => q'.1 + (q'.2.length + 1) ≤ q.1 := by
  induction h with
  | nil => simp
  | cons below inside low holds rest ih =>
    obtain ⟨length, places, apart⟩ := ih
    refine ⟨by simp [length],
      forall_mem_cons.2 ⟨⟨rest.le, inside, below, low, holds⟩, fun q mem => ?_⟩,
      pairwise_cons.2 ⟨fun q mem => (places q mem).2.2.1, apart⟩⟩
    obtain ⟨above, inside', below', more⟩ := places q mem
    exact ⟨above, inside', by omega, more⟩

theorem length_pointers (ps : List Nat) : (ps.flatMap bytes64).length = 8 * ps.length := by
  simp [length_flatMap, bytes64, map_const', mul_comm]

theorem uvmalloc_size {ok old new sz} (h : uvmalloc ok m old new = some (m', sz))
    (more : old ≤ new) (some : sz ≠ 0) : sz = new := by
  rw [uvmalloc, if_neg (not_lt.2 more)] at h
  obtain ⟨r, -, eq⟩ := map_eq_some_iff.1 h
  cases eq
  cases full : r.2 with
  | true => rfl
  | false =>
    rw [full] at some
    exact absurd rfl some

/-- The new program starts with the number of its arguments in `a0` and the address of the array in
`a1` and `sp`; the array holds the addresses of the strings and 0; and the strings lie apart from
each other and above the array, all in the last page of the image. -/
theorem exec_args_intact {ok : Nat → Bool} {argv : Argv} {im : Image}
    (h : stackSetup ok m argv = some (some im)) :
    ∃ ps, im.mem.sz = pgroundup m.sz + (userStack + 1) * pgSize ∧ pgSize ∣ im.mem.sz ∧
      ps.length = argv.strings.length ∧ im.a0 = argv.strings.length ∧ im.a1 = im.sp ∧
      im.sp % 16 = 0 ∧ im.mem.sz - pgSize ≤ im.sp ∧
      Holds im.mem im.sp ((ps ++ [0]).flatMap bytes64) ∧
      (∀ q ∈ ps.zip argv.strings, im.sp + 8 * (ps.length + 1) ≤ q.1 ∧
        Placed im.mem (im.mem.sz - pgSize) im.mem.sz q) ∧
      im.sp + 8 * (ps.length + 1) ≤ im.mem.sz ∧
      (ps.zip argv.strings).Pairwise fun q q' => q'.1 + (q'.2.length + 1) ≤ q.1 := by
  have page : pgSize = 4096 := rfl
  obtain ⟨⟨m1, top⟩, alloc, h⟩ := bind_eq_some_iff.1 h
  dsimp only at h
  split at h
  · cases h
  rename_i some
  obtain ⟨m2, clear, h⟩ := bind_eq_some_iff.1 h
  obtain ⟨⟨m3, sp, us⟩, strings, h⟩ := bind_eq_some_iff.1 (Option.some.inj h)
  obtain ⟨⟨m4, sp'⟩, array, h⟩ := bind_eq_some_iff.1 h
  cases h
  have size : top = pgroundup m.sz + (userStack + 1) * pgSize :=
    uvmalloc_size alloc (Nat.le_add_right ..) some
  have stack : userStack * pgSize = pgSize := one_mul _
  have aligned : pgSize ∣ top := by
    rw [size, pgroundup]
    exact Nat.dvd_add (Nat.dvd_mul_left ..) (Nat.dvd_mul_left ..)
  have deep : pgSize ≤ top - userStack * pgSize := by
    rw [size, stack, Nat.add_mul, stack]
    omega
  obtain ⟨ps, eq, inside, stacked, kept⟩ := pushStrings_eq
    (fun s mem => lt_of_lt_of_le (argv.short s mem).1 deep) (Nat.sub_le ..) strings
  rw [← show us = ps from eq] at stacked
  have few := argv.few
  obtain ⟨length, -, -⟩ := stacked.places
  have bytes : ((us ++ [0]).flatMap bytes64).length = 8 * (us.length + 1) := by
    rw [length_pointers, length_append, length_singleton]
  have done := push_eq array (by
    unfold maxArg at few
    dsimp only
    omega)
  have below := done.below
  rw [bytes] at below
  obtain ⟨-, places, apart⟩ := (stacked.mono done.kept).places
  -- neither the copies nor `uvmclear` move the size
  obtain ⟨pg, -, rfl⟩ := map_eq_some_iff.1 clear
  obtain rfl : m4.sz = top := (done.kept _ (le_refl _)).size.trans (kept _ (le_refl _)).size
  refine ⟨us, size, aligned, length, length, rfl, done.aligned, stack ▸ done.inside, done.holds,
    fun q mem => ?_, le_trans below stacked.le, apart⟩
  exact ⟨le_trans below (places q mem).1, (places q mem).2⟩

/-- `ls -l`, in a program of one page. -/
def lsArgv : Argv := ⟨[[108, 115], [45, 108]], by decide, by decide⟩

/-- The two strings and the array of three addresses are in the last of its then three pages. -/
theorem exec_args_ls :
    ∃ im p q, stackSetup (fun _ => true) ⟨fun v => if v = 0 then some zeroPage else none, pgSize⟩
      lsArgv = some (some im) ∧ im.mem.sz = 12288 ∧ im.a0 = 2 ∧ im.a1 = 12224 ∧
    Holds im.mem 12224 (bytes64 p ++ bytes64 q ++ bytes64 0) ∧ 12224 + 24 ≤ q ∧ q + 3 ≤ p ∧
      p + 3 ≤ 12288 ∧
    Holds im.mem p [108, 115, 0] ∧ Holds im.mem q [45, 108, 0] := by
  have starts : ((stackSetup (fun _ => true) ⟨fun v => if v = 0 then some zeroPage else none,
    pgSize⟩ lsArgv).bind id).map
      Image.sp = some 12224 := by
    decide +kernel
  obtain ⟨im, eq, sp⟩ := map_eq_some_iff.1 starts
  obtain ⟨_, run, rfl⟩ := bind_eq_some_iff.1 eq
  obtain ⟨ps, size, -, length, a0, a1, -, -, array, places, -, apart⟩ := exec_args_intact run
  obtain ⟨p, q, rfl⟩ := length_eq_two.1 length
  have first := places (p, _) (.head _)
  have second := places (q, _) (.tail _ (.head _))
  have order := (pairwise_cons.1 apart).1 (q, _) (.head _)
  rw [sp] at array second
  rw [size] at first
  refine ⟨im, p, q, run, size, a0, a1.trans sp, by simpa using array, second.1, order, first.2.2.1,
    first.2.2.2.2, second.2.2.2.2⟩

end OsProject.Xv6.ExecStack
