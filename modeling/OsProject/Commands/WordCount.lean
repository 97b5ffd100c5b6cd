import OsProject.Lib.Fields

/-! # custom_wc

A stream is its bytes. The counters of type `long` do not overflow on streams and
file lists of a size that exists, so they are natural numbers. -/
namespace OsProject.Commands.WordCount
open Lib.Fields List

structure Counts where
  lines : Nat
  words : Nat
  chars : Nat
  deriving DecidableEq

/-- `total->lines += c.lines` and so on. -/
def Counts.add (a b : Counts) : Counts := ⟨a.lines + b.lines, a.words + b.words, a.chars + b.chars⟩

/-- `isspace` of the C locale. -/
def isSpace (ch : UInt8) : Bool := ch == 32 || (9 ≤ ch && ch ≤ 13)

/-- One round of the loop of `count_stream`, on the counts and `in_word`. -/
def countByte (s : Counts × Bool) (ch : UInt8) : Counts × Bool :=
  let out := { s.1 with
    chars := s.1.chars + 1
    lines := if ch = 10 then s.1.lines + 1 else s.1.lines }
  if isSpace ch then (out, false)
  else if s.2 then (out, true)
  else ({ out with words := out.words + 1 }, true)

def countStream (stream : List UInt8) : Counts := (stream.foldl countByte (⟨0, 0, 0⟩, false)).1

structure Flags where
  lines : Bool
  words : Bool
  chars : Bool
  deriving DecidableEq

/-- `%8ld`. -/
def column (n : Nat) : List UInt8 :=
  let ds := (Nat.toDigits 10 n).map fun d => UInt8.ofNat d.toNat
  List.replicate (8 - ds.length) 32 ++ ds

def printCounts (f : Flags) (c : Counts) (label : Option (List UInt8)) : List UInt8 :=
  let all := !f.lines && !f.words && !f.chars
  (if all || f.lines then column c.lines else []) ++
    (if all || f.words then column c.words else []) ++
    (if all || f.chars then column c.chars else []) ++ label.elim [] ([32, 32] ++ ·) ++ [10]

/-- What the loop over the files keeps: the standard output so far, the files that the messages
on standard error name, and the totals. -/
structure Tally where
  out : List UInt8
  failed : List (List UInt8)
  total : Counts

/-- `process_file`, on what `fopen` finds. -/
def processFile (open? : List UInt8 → Option (List UInt8)) (f : Flags) (t : Tally)
    (name : List UInt8) : Tally :=
  match open? name with
  | none => { t with failed := t.failed ++ [name] }
  | some stream =>
    let c := countStream stream
    { t with out := t.out ++ printCounts f c (some name), total := t.total.add c }

/-- The letters of an option. -/
def letters (f : Flags) : List UInt8 → Option Flags
  | [] => some f
  | 108 :: s => letters { f with lines := true } s
  | 119 :: s => letters { f with words := true } s
  | 99 :: s => letters { f with chars := true } s
  | _ => none

/-- The options, and the arguments behind them; nothing for an invalid option. -/
def parse (f : Flags) : List (List UInt8) → Option (Flags × List (List UInt8))
  | [] => some (f, [])
  | a :: rest =>
    if a.head? = some 45 ∧ a.tail ≠ [] then (letters f a.tail).bind (parse · rest)
    else some (f, a :: rest)

/-- `"total"`. -/
def totalLabel : List UInt8 := [116, 111, 116, 97, 108]

/-- The standard output and the exit status. -/
def main (open? : List UInt8 → Option (List UInt8)) (stdin : List UInt8)
    (args : List (List UInt8)) : List UInt8 × Nat :=
  match parse ⟨false, false, false⟩ args with
  | none => ([], 1)
  | some (f, []) => (printCounts f (countStream stdin) none, 0)
  | some (f, files) =>
    let t := files.foldl (processFile open? f) ⟨[], [], ⟨0, 0, 0⟩⟩
    (t.out ++ (if 1 < files.length then printCounts f t.total (some totalLabel) else []),
      if 0 < t.failed.length then 1 else 0)

/-! ## Counting -/

/-- A stream ends inside a word. -/
def ends (s : List UInt8) : Bool := s.getLast?.any fun ch => !isSpace ch

theorem countByte_eq (c : Counts) (inWord : Bool) (ch : UInt8) : countByte (c, inWord) ch =
    (⟨c.lines + (ch == 10).toNat, c.words + (!isSpace ch && !inWord).toNat, c.chars + 1⟩,
      !isSpace ch) := by
  have line : (if ch = 10 then c.lines + 1 else c.lines) = c.lines + (ch == 10).toNat := by
    by_cases eq : ch = 10 <;> simp [eq]
  simp only [countByte, line]
  cases isSpace ch <;> cases inWord <;> rfl

/-- The carried `in_word` says that the word which the rest begins with has been counted. -/
theorem foldl_countByte (s : List UInt8) (c : Counts) (inWord : Bool) :
    ∃ words, s.foldl countByte (c, inWord) =
        (⟨c.lines + s.count 10, words, c.chars + s.length⟩,
          s.getLast?.elim inWord fun ch => !isSpace ch) ∧
      words + (inWord && begins isSpace s).toNat = c.words + (fields isSpace s).length := by
  induction s generalizing c inWord with
  | nil => exact ⟨c.words, rfl, by simp [begins]⟩
  | cons ch s ih =>
    rw [foldl_cons, countByte_eq]
    obtain ⟨words, run, count⟩ := ih
      ⟨c.lines + (ch == 10).toNat, c.words + (!isSpace ch && !inWord).toNat, c.chars + 1⟩
      (!isSpace ch)
    refine ⟨words, ?_, ?_⟩
    · rw [run, getLast?_cons, count_cons]
      cases s.getLast? <;> cases ch == 10 <;> simp <;> omega
    · have starts : begins isSpace (ch :: s) = !isSpace ch := rfl
      rw [starts]
      cases space : isSpace ch with
      | true => simpa [space] using count
      | false =>
        have one := length_fields_cons (t := s) space
        simp only [space, Bool.not_false, Bool.true_and, Bool.and_true] at count ⊢
        cases inWord with
        | true => simp at count ⊢; omega
        | false => simp at count ⊢; omega

theorem countStream_eq (s : List UInt8) :
    countStream s = ⟨s.count 10, (fields isSpace s).length, s.length⟩ := by
  obtain ⟨words, run, count⟩ := foldl_countByte s ⟨0, 0, 0⟩ false
  rw [countStream, run]
  simpa using count

theorem countStream_append (s t : List UInt8) : (countStream s).add (countStream t) =
    (countStream (s ++ t)).add ⟨0, (ends s && begins isSpace t).toNat, 0⟩ := by
  obtain ⟨words, run, count⟩ := foldl_countByte s ⟨0, 0, 0⟩ false
  obtain ⟨words', run', count'⟩ := foldl_countByte t ⟨0 + s.count 10, words, 0 + s.length⟩ (ends s)
  have after : (s.getLast?.elim false fun ch => !isSpace ch) = ends s := by
    rw [ends]
    cases s.getLast? <;> rfl
  rw [after] at run
  have first : (countStream s).words = words := by rw [countStream, run]
  have whole : (countStream (s ++ t)).words = words' := by rw [countStream, foldl_append, run, run']
  simp only [Counts.add, Counts.mk.injEq]
  refine ⟨by simp [countStream_eq], ?_, by simp [countStream_eq]⟩
  rw [first, whole, count', countStream_eq t]

/-! ## The files -/

/-- The files that can be opened, with their counts. -/
def rows (open? : List UInt8 → Option (List UInt8)) (files : List (List UInt8)) :
    List (List UInt8 × Counts) :=
  files.filterMap fun a => (open? a).map fun stream => (a, countStream stream)

def sumOf (cs : List Counts) : Counts :=
  ⟨(cs.map (·.lines)).sum, (cs.map (·.words)).sum, (cs.map (·.chars)).sum⟩

theorem foldl_processFile (open? : List UInt8 → Option (List UInt8)) (f : Flags)
    (files : List (List UInt8)) (t : Tally) : files.foldl (processFile open? f) t =
      ⟨t.out ++ (rows open? files).flatMap fun r => printCounts f r.2 (some r.1),
        t.failed ++ files.filter fun a => (open? a).isNone,
        t.total.add (sumOf ((rows open? files).map Prod.snd))⟩ := by
  induction files generalizing t with
  | nil => simp [rows, sumOf, Counts.add]
  | cons a files ih =>
    rw [foldl_cons, ih, processFile]
    cases found : open? a with
    | none => simp [rows, found]
    | some stream => simp [rows, found, sumOf, Counts.add, add_assoc]

end OsProject.Commands.WordCount
