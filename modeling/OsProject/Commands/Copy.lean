import Mathlib.Algebra.Ring.Nat
import Mathlib.Logic.Function.Basic
import Mathlib.Tactic.Common

/-! # custom_cp

The copy loop over a POSIX file system. What the system decides (whether an `open` succeeds,
how much each `read` and `write` does, and which of them fail) is a parameter. -/
namespace OsProject.Commands.Copy
open List Option
open Function (update update_of_ne update_self)

variable {Path File : Type}

/-- Which file a path names, links followed, and what is in the files. -/
structure FileSystem (Path File : Type) where
  lookup : Path → Option File
  content : File → List UInt8

/-- What the system decides. -/
structure System (Path File : Type) where
  /-- whether `open` of an existing source succeeds -/
  opensIn : Bool
  opensOut : Bool
  /-- the file that `O_CREAT` makes, and the other paths that
    then name it (a link without a target) -/
  fresh : File
  also : Path → Bool
  /-- what the `i`-th `read` would return at most, or that it fails -/
  read : Nat → Option Nat
  /-- what the `i`-th `write` writes at most, or that it fails -/
  write : Nat → Option Nat

inductive Exit where
  | success | failure
  deriving DecidableEq

/-- `BUFFER_SIZE`. -/
def bufferSize : Nat := 4096

/-- The length of a `read` that has `left` bytes before it: 0 at the end of the file only. -/
def readLen (k left : Nat) : Nat := min (max 1 (min k bufferSize)) left

section program
variable [DecidableEq Path] [DecidableEq File] (sys : System Path File)

def openIn (fs : FileSystem Path File) (src : Path) : Option File :=
  if sys.opensIn then fs.lookup src else none

/-- `open` with `O_WRONLY | O_CREAT | O_TRUNC`. -/
def openOut (fs : FileSystem Path File) (dst : Path) : Option (File × FileSystem Path File) :=
  if sys.opensOut then
    match fs.lookup dst with
    | some f => some (f, { fs with content := update fs.content f [] })
    | none => some (sys.fresh,
        { lookup := fun p => if fs.lookup p = none ∧ (p = dst ∨ sys.also p = true)
        then some sys.fresh else fs.lookup p
          content := update fs.content sys.fresh [] })
  else none

/-- Bytes written at an offset of a file. -/
def overwrite (old : List UInt8) (off : Nat) (bs : List UInt8) : List UInt8 :=
  old.take off ++ bs ++ old.drop (off + bs.length)

/-- The loop. Both descriptors are at `off`, since it goes on only after a full write. -/
def copyLoop (fdIn fdOut : File) :
    Nat → Nat → Nat → FileSystem Path File → Option (Exit × FileSystem Path File)
  | 0, _, _, _ => none
  | fuel + 1, i, off, fs =>
    match sys.read i with
    -- `bytes_read < 0` prints a message, and the program goes on to `EXIT_SUCCESS`
    | none => some (.success, fs)
    | some k =>
      let chunk := ((fs.content fdIn).drop off).take (readLen k ((fs.content fdIn).length - off))
      if chunk = [] then some (.success, fs)
      else match sys.write i with
        | none => some (.failure, fs)
        | some n =>
          let fs := { fs with
            content := update fs.content fdOut (overwrite (fs.content fdOut) off (chunk.take n)) }
          if (chunk.take n).length ≠ chunk.length then some (.failure, fs)
          else copyLoop fdIn fdOut fuel (i + 1) (off + chunk.length) fs

/-- `main`, without `argv[0]`. The source is not longer than it was when it was opened, so its
length bounds the rounds. -/
def main (argv : List Path) (fs : FileSystem Path File) : Option (Exit × FileSystem Path File) :=
  match argv with
  | [src, dst] =>
    match openIn sys fs src with
    | none => some (.failure, fs)
    | some fdIn =>
      match openOut sys fs dst with
      | none => some (.failure, fs)
      | some (fdOut, fs') => copyLoop sys fdIn fdOut ((fs.content fdIn).length + 1) 0 0 fs'
  | _ => some (.failure, fs)

end program

/-! ## What it is for -/

/-- The destination has what the source had. -/
def Copied (fs fs' : FileSystem Path File) (src dst : Path) : Prop :=
  ∃ f g, fs.lookup src = some f ∧ fs'.lookup dst = some g ∧ fs'.content g = fs.content f

/-- Where the `i`-th `read` of a file of `len` bytes starts, if the ones before it did not fail
and did not come to the end. -/
def readStart (sys : System Path File) (len : Nat) : Nat → Option Nat
  | 0 => some 0
  | i + 1 => (readStart sys len i).bind fun off =>
    if off < len then (sys.read i).map fun k => off + readLen k (len - off) else none

/-- No `read` fails before the end of a file of `len` bytes. -/
def Served (sys : System Path File) (len : Nat) : Prop := ∃ i, readStart sys len i = some len

section served
variable {sys : System Path File} {len i j off : Nat}

theorem readStart_stuck (here : readStart sys len i = some off)
    (stuck : ¬ off < len ∨ sys.read i = none) (lt : i < j) : readStart sys len j = none := by
  obtain ⟨d, rfl⟩ := Nat.exists_eq_add_of_lt lt
  induction d with
  | zero =>
    rw [add_zero, readStart, here, bind_some]
    obtain done | fails := stuck
    · rw [if_neg done]
    · rw [fails, map_none, ite_self]
  | succ d ih =>
    rw [show i + (d + 1) + 1 = i + d + 1 + 1 by omega, readStart, ih (by omega), bind_none]

/-- A `read` that fails before the end is the last. -/
theorem not_served (here : readStart sys len i = some off) (before : off < len)
    (fails : sys.read i = none) : ¬ Served sys len := by
  rintro ⟨j, last⟩
  obtain lt | rfl | gt := lt_trichotomy i j
  · rw [readStart_stuck here (.inr fails) lt] at last
    cases last
  · rw [here] at last
    have := Option.some.inj last
    omega
  · rw [readStart_stuck last (.inl (lt_irrefl len)) gt] at here
    cases here

theorem readLen_le (k left : Nat) : readLen k left ≤ left := min_le_right ..

theorem readLen_pos {k left} (any : 0 < left) : 0 < readLen k left := by
  unfold readLen
  omega

end served

/-! ## The loop -/

section loop
variable [DecidableEq File] {sys : System Path File} {fdIn fdOut : File} {C : List UInt8}

theorem overwrite_append (off k : Nat) (fits : off + k ≤ C.length) :
    overwrite (C.take off) off ((C.drop off).take k) = C.take (off + k) := by
  have len : (C.take off).length = off := by rw [length_take]; omega
  have rest : (C.take off).drop (off + ((C.drop off).take k).length) = [] :=
    drop_eq_nil_of_le (by rw [len]; exact Nat.le_add_right ..)
  rw [overwrite, rest, take_of_length_le (le_of_eq len), append_nil, ← take_add]

/-- The loop between two files: it ends at the end of the source or at a `read` that fails, and
has copied what is before. -/
theorem copyLoop_apart (apart : fdIn ≠ fdOut) :
    ∀ (fuel i off : Nat) (fs : FileSystem Path File), C.length < off + fuel → off ≤ C.length →
      fs.content fdIn = C → fs.content fdOut = C.take off → readStart sys C.length i = some off →
      ∃ e fs', copyLoop sys fdIn fdOut fuel i off fs = some (e, fs') ∧ fs'.lookup = fs.lookup ∧
        (e = .success → ∃ i off, readStart sys C.length i = some off ∧ off ≤ C.length ∧
          fs'.content fdOut = C.take off ∧ (off = C.length ∨ sys.read i = none)) := by
  intro fuel
  induction fuel with
  | zero => intro i off fs short le; omega
  | succ fuel ih =>
    intro i off fs short le source dest start
    unfold copyLoop
    split
    · rename_i fails
      exact ⟨_, _, rfl, rfl, fun _ => ⟨i, off, start, le, dest, .inr fails⟩⟩
    · rename_i k ok
      dsimp only
      rw [source]
      generalize chunked : (C.drop off).take (readLen k (C.length - off)) = chunk
      have small := readLen_le k (C.length - off)
      have len : chunk.length = readLen k (C.length - off) := by
        rw [← chunked, length_take, length_drop]
        omega
      split
      · rename_i nil
        have none_left : off = C.length := by
          by_contra more
          have pos : 0 < readLen k (C.length - off) := readLen_pos (by omega)
          rw [nil] at len
          exact Nat.ne_of_gt pos len.symm
        exact ⟨_, _, rfl, rfl, fun _ => ⟨i, off, start, le, dest, .inl none_left⟩⟩
      · rename_i some_left
        have pos : 0 < chunk.length := length_pos_iff.2 some_left
        split
        · exact ⟨_, _, rfl, rfl, fun no => by cases no⟩
        · rename_i n _
          split
          · exact ⟨_, _, rfl, rfl, fun no => by cases no⟩
          · rename_i whole
            have all : chunk.take n = chunk := by
              have eq := not_not.1 whole
              rw [length_take] at eq
              exact take_of_length_le (by omega)
            rw [all]
            refine ih (i + 1) _ _ (by omega) (by omega) ?_ ?_ ?_
            · dsimp only
              rw [update_of_ne apart]
              exact source
            · dsimp only
              rw [update_self, dest, ← chunked, overwrite_append _ _ (by omega), chunked, len]
            · rw [readStart, start, bind_some, if_pos (by omega), ok, map_some, len]

/-- A source that was truncated is at its end. -/
theorem copyLoop_empty (fuel : Nat) (fs : FileSystem Path File) (empty : fs.content fdIn = []) :
    copyLoop sys fdIn fdOut (fuel + 1) 0 0 fs = some (.success, fs) := by
  unfold copyLoop
  split
  · rfl
  · rw [empty, drop_nil, take_nil, if_pos rfl]

end loop

/-! ## Exit status and content -/

section run
variable [DecidableEq Path] [DecidableEq File] {sys : System Path File}
    {fs fs' : FileSystem Path File} {src dst : Path}

variable (fresh : ∀ p, fs.lookup p ≠ some sys.fresh)
include fresh

/-- What `open` of the destination does to the file system. -/
theorem openOut_spec {g} (opened : openOut sys fs dst = some (g, fs')) :
    fs'.lookup dst = some g ∧ fs'.content = update fs.content g [] ∧
      ∀ f, fs.lookup src = some f → (f = g ↔ fs.lookup dst = some f) := by
  obtain ⟨_, opened⟩ := ite_none_right_eq_some.1 opened
  split at opened
  · rename_i h found
    cases opened
    refine ⟨found, rfl, fun f _ => ?_⟩
    rw [found, Option.some.injEq]
    exact eq_comm
  · rename_i absent
    cases opened
    refine ⟨if_pos ⟨absent, .inl rfl⟩, rfl, fun f named => ?_⟩
    rw [absent]
    constructor
    · rintro rfl
      exact absurd named (fresh src)
    · intro no
      cases no

/-- The program ends; and if it ends well, it has copied a part of the source that is served, or
nothing into the source itself. -/
theorem main_spec (src dst : Path) :
    ∃ e fs', main sys [src, dst] fs = some (e, fs') ∧
      (e = .success → ∃ f g, fs.lookup src = some f ∧
      fs'.lookup dst = some g ∧ ((fs.lookup dst = some f ∧ fs'.content g = []) ∨
        (fs.lookup dst ≠ some f ∧ ∃ i off, readStart sys (fs.content f).length i = some off ∧
          off ≤ (fs.content f).length ∧ fs'.content g = (fs.content f).take off ∧
          (off = (fs.content f).length ∨ sys.read i = none)))) := by
  unfold main
  dsimp only
  split
  · exact ⟨_, _, rfl, fun no => by cases no⟩
  · rename_i f opened
    have named : fs.lookup src = some f := by
      obtain ⟨_, opened⟩ := ite_none_right_eq_some.1 opened
      exact opened
    split
    · exact ⟨_, _, rfl, fun no => by cases no⟩
    · rename_i g fs1 opened1
      obtain ⟨dest, content, same⟩ := openOut_spec fresh opened1
      by_cases eq : f = g
      · have empty : fs1.content f = [] := by rw [content, eq, update_self]
        refine ⟨_, _, copyLoop_empty _ fs1 empty,
          fun _ => ⟨f, g, named, dest, .inl ⟨(same f named).1 eq, ?_⟩⟩⟩
        rw [← eq]
        exact empty
      · have source : fs1.content f = fs.content f := by rw [content, update_of_ne eq]
        have start : fs1.content g = (fs.content f).take 0 :=
          by rw [content, update_self, take_zero]
        obtain ⟨e, fs2, ran, names, good⟩ := copyLoop_apart eq ((fs.content f).length + 1) 0 0 fs1
          (by omega) (Nat.zero_le _) source start rfl
        refine ⟨e, fs2, ran, fun ok => ⟨f, g, named, by rw [names]; exact dest, .inr ⟨?_, good ok⟩⟩⟩
        exact fun one => eq ((same f named).2 one)

/-- When `custom_cp` exits with success, the destination has what the source had if and only if
the source was empty, or the two paths named different files and no `read` failed before the
end of the source. -/
theorem custom_cp_copies_iff
    (ran : main sys [src, dst] fs = some (.success, fs')) :
    ∃ f, fs.lookup src = some f ∧ (Copied fs fs' src dst ↔
      fs.content f = [] ∨ (fs.lookup dst ≠ some f ∧ Served sys (fs.content f).length)) := by
  obtain ⟨e, fs1, ran1, good⟩ := main_spec fresh src dst
  obtain ⟨rfl, rfl⟩ := Prod.mk.inj (Option.some.inj (ran1.symm.trans ran))
  obtain ⟨f, g, named, dest, ends⟩ := good rfl
  have copied : Copied fs fs1 src dst ↔ fs1.content g = fs.content f := by
    constructor
    · rintro ⟨f', g', named', dest', eq⟩
      cases named.symm.trans named'
      obtain rfl := Option.some.inj (dest.symm.trans dest')
      exact eq
    · intro eq
      exact ⟨f, g, named, dest, eq⟩
  refine ⟨f, named, copied.trans ?_⟩
  obtain ⟨one, empty⟩ | ⟨apart, i, off, start, le, part, last⟩ := ends
  · rw [empty]
    constructor
    · intro eq
      exact .inl eq.symm
    · rintro (nil | ⟨no, -⟩)
      · exact nil.symm
      · exact absurd one no
  · rw [part]
    constructor
    · intro eq
      have len := congrArg List.length eq
      rw [length_take] at len
      refine .inr ⟨apart, i, ?_⟩
      rw [start]
      congr 1
      omega
    · rintro (nil | ⟨-, served⟩)
      · rw [nil, take_nil]
      · refine take_of_length_le (Nat.le_of_not_lt fun lt => ?_)
        obtain all | fails := last
        · omega
        · exact not_served start lt fails served

end run

/-- A system that serves all reads and writes at once but the reads from number `n` on. -/
def readsFail (n : Nat) : System Nat Nat where
  opensIn := true
  opensOut := true
  fresh := 9
  also := fun _ => false
  read i := if i < n then some 4096 else none
  write _ := some 4096

/-- Path 0 names a file with two bytes, path 1 an empty file. -/
def twoFiles : FileSystem Nat Nat where
  lookup p := if p < 2 then some p else none
  content f := if f = 0 then [7, 8] else []

theorem twoFiles_fresh (p : Nat) (n : Nat) : twoFiles.lookup p ≠ some (readsFail n).fresh := by
  unfold twoFiles readsFail
  dsimp only
  split
  · rw [ne_eq, Option.some.injEq]
    omega
  · exact some_ne_none _ ∘ Eq.symm

theorem custom_cp_copies_iff_served : ∃ f, twoFiles.lookup 0 = some f ∧
    (Copied twoFiles { twoFiles with content := update (update twoFiles.content 1 []) 1 [7, 8] } 0
      1 ↔
      twoFiles.content f = [] ∨
        (twoFiles.lookup 1 ≠ some f ∧ Served (readsFail 3) (twoFiles.content f).length)) :=
  custom_cp_copies_iff (fun p => twoFiles_fresh p 3) rfl

/-- A file copied to itself is lost, and so is what follows a `read` that fails; both times the
exit status is success. -/
theorem custom_cp_loses :
    (∃ fs', main (readsFail 3) [0, 0] twoFiles = some (.success, fs') ∧ ¬ Copied twoFiles fs' 0 0) ∧
    ∃ fs', main (readsFail 0) [0, 1] twoFiles = some (.success, fs') ∧
      ¬ Copied twoFiles fs' 0 1 := by
  refine ⟨⟨_, rfl, ?_⟩, _, rfl, ?_⟩
  · rintro ⟨f, g, source, dest, eq⟩
    obtain rfl : 0 = f := Option.some.inj source
    obtain rfl : 0 = g := Option.some.inj dest
    exact absurd eq (by decide)
  · rintro ⟨f, g, source, dest, eq⟩
    obtain rfl : 0 = f := Option.some.inj source
    obtain rfl : 1 = g := Option.some.inj dest
    exact absurd eq (by decide)

end OsProject.Commands.Copy
