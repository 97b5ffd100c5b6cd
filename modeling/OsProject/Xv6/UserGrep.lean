import OsProject.Lib.Fields

/-! # grep of xv6

`grep` reads into a buffer of 1024 bytes, of which the `m` bytes from `buf` on are kept as a
list, and looks for lines in what it holds. -/
namespace OsProject.Xv6.UserGrep
open Lib.Fields List

/-! ## The program -/

/-- `matchstar`, with `matchhere` for the rest of the pattern. -/
def matchstar (c : UInt8) (here : List UInt8 → Bool) : List UInt8 → Bool
  | [] => here []
  | t :: text => here (t :: text) || (t = c || c = 46) && matchstar c here text

def matchhere : List UInt8 → List UInt8 → Bool
  | [], _ => true
  | [r], text =>
    if r = 36 then text.isEmpty
    else match text with
      | [] => false
      | t :: _ => r = 46 || r = t
  | r :: s :: re, text =>
    if s = 42 then matchstar r (matchhere re) text
    else match text with
      | [] => false
      | t :: text => (r = 46 || r = t) && matchhere (s :: re) text

/-- `match`. -/
def matchLine (re text : List UInt8) : Bool :=
  if re.head? = some 94 then matchhere re.tail text else text.tails.any (matchhere re)

/-- `strchr`: what is before the character and what is behind it. -/
def strchr (c : UInt8) : List UInt8 → Option (List UInt8 × List UInt8)
  | [] => none
  | b :: s =>
    if b = 0 then none else if b = c then some ([], s) else (strchr c s).map fun p =>
      (b :: p.1, p.2)

/-- The inner loop: what it writes and what is left from `p` on. Each round passes a newline, so
as many rounds as there are bytes are enough. -/
def lineLoop (pattern : List UInt8) : Nat → List UInt8 → List UInt8 × List UInt8
  | 0, held => ([], held)
  | n + 1, held =>
    match strchr 10 held with
    | none => ([], held)
    | some (p, rest) =>
      let (written, left) := lineLoop pattern n rest
      (if matchLine pattern p then p ++ [10] ++ written else written, left)

/-- `read`: no more than was asked for, and else at least a byte of what is left. How many is
given by `chunk`, from the number of bytes that are left. -/
def read (chunk : Nat → Nat) (n : Nat) (input : List UInt8) : List UInt8 × List UInt8 :=
  input.splitAt (min (chunk input.length + 1) n)

/-- The loop of `grep`, as what it writes. Each round but the last takes a byte of the input. -/
def grepLoop (pattern : List UInt8) (chunk : Nat → Nat) :
    Nat → List UInt8 → List UInt8 → Option (List UInt8)
  | 0, _, _ => none
  | n + 1, held, input =>
    let (got, rest) := read chunk (1024 - held.length - 1) input
    if got = [] then some []
    else
      let held := held ++ got
      let (written, left) := lineLoop pattern held.length held
      (grepLoop pattern chunk n left rest).map (written ++ ·)

def grep (pattern : List UInt8) (chunk : Nat → Nat) (input : List UInt8) : Option (List UInt8) :=
  grepLoop pattern chunk (input.length + 1) [] input

/-! ## Lines -/

variable {s l t pattern : List UInt8} {n : Nat}

/-- The lines that a newline ends. -/
def lines (s : List UInt8) : List (List UInt8) := (s.splitOn 10).dropLast

theorem lines_cons (free : 10 ∉ l) (t : List UInt8) : lines (l ++ 10 :: t) = l :: lines t := by
  rw [lines, splitOn_append_cons_self_of_not_mem free]
  exact dropLast_cons_of_ne_nil (splitOn_ne_nil 10 t)

theorem lines_free (free : 10 ∉ l) : lines l = [] := by
  rw [lines, splitOn_eq_singleton free]
  rfl

/-- The lines for which `match` holds, with their newlines. -/
def output (pattern : List UInt8) (ls : List (List UInt8)) : List UInt8 :=
  (ls.filter (matchLine pattern)).flatMap (· ++ [10])

/-- A line has a place in the buffer. -/
def short (l : List UInt8) : Bool := l.length ≤ 1022

/-- What is written: the lines before the first that has no place in the buffer. -/
def written (pattern s : List UInt8) : List UInt8 := output pattern ((lines s).takeWhile short)

theorem written_cons (free : 10 ∉ l) (fits : short l = true) : written pattern (l ++ 10 :: t) =
    (if matchLine pattern l then l ++ [10] else []) ++ written pattern t := by
  rw [written, lines_cons free, takeWhile_cons_of_pos fits, output, filter_cons]
  split
  · rw [flatMap_cons]
    rfl
  · rfl

/-! ## The loops -/

theorem strchr_of_mem (free : 10 ∉ l) (text : 0 ∉ l) (t : List UInt8) :
    strchr 10 (l ++ 10 :: t) = some (l, t) := by
  induction l with
  | nil => rfl
  | cons b l ih =>
    rw [mem_cons, not_or] at free text
    rw [cons_append, strchr, if_neg (Ne.symm text.1), if_neg (Ne.symm free.1), ih free.2 text.2]
    rfl

theorem strchr_of_not_mem (free : 10 ∉ l) : strchr 10 l = none := by
  induction l with
  | nil => rfl
  | cons b l ih =>
    rw [mem_cons, not_or] at free
    rw [strchr, if_neg (Ne.symm free.1), ih free.2]
    exact ite_self _

variable (pattern) in
/-- The inner loop writes the lines that the buffer holds and leaves what is behind them. -/
theorem lineLoop_eq (enough : s.length ≤ n) (small : s.length ≤ 1023) (text : 0 ∉ s) :
    ∃ w left, lineLoop pattern n s = (w, left) ∧ 10 ∉ left ∧ 0 ∉ left ∧ left.length ≤ 1023 ∧
      ∀ rest, written pattern (s ++ rest) = w ++ written pattern (left ++ rest) := by
  induction s using induction_lines (a := (10 : UInt8)) generalizing n with
  | last l free =>
    refine ⟨[], l, ?_, free, text, small, fun rest => rfl⟩
    cases n with
    | zero => rfl
    | succ n => rw [lineLoop, strchr_of_not_mem free]
  | line l t free ih =>
    rw [length_append, length_cons] at enough small
    rw [mem_append, mem_cons, not_or, not_or] at text
    obtain ⟨n, rfl⟩ : ∃ m, n = m + 1 := ⟨n - 1, by omega⟩
    obtain ⟨w, left, eq, rest⟩ := ih (n := n) (by omega) (by omega) text.2.2
    refine ⟨if matchLine pattern l then l ++ [10] ++ w else w, left, ?_, rest.1, rest.2.1,
      rest.2.2.1, fun r => ?_⟩
    · rw [lineLoop, strchr_of_mem free text.1]
      dsimp only
      rw [eq]
    · have fits : short l = true := decide_eq_true (by omega)
      rw [append_assoc, cons_append, written_cons free fits, rest.2.2.2]
      split
      · rw [append_assoc, append_assoc, append_assoc]
      · rfl

/-- A part of a line fills the buffer, or there is no more input: nothing more is written. -/
theorem written_stuck (free : 10 ∉ l) (stuck : t = [] ∨ 1023 ≤ l.length) :
    written pattern (l ++ t) = [] := by
  by_cases more : 10 ∈ t
  · obtain ⟨a, b, rfl, free'⟩ := eq_append_cons_of_mem more
    have long : short (l ++ a) = false := by
      refine decide_eq_false ?_
      rw [length_append]
      have := stuck.resolve_left (by simp)
      omega
    have both : 10 ∉ l ++ a := by simp [free, free']
    rw [written, ← append_assoc, lines_cons both, takeWhile_cons_of_neg (by rw [long]; decide)]
    rfl
  · have both : 10 ∉ l ++ t := by simp [free, more]
    rw [written, lines_free both]
    rfl

theorem grepLoop_eq (chunk : Nat → Nat) {held input} (enough : input.length < n) (free : 10 ∉ held)
    (small : held.length ≤ 1023) (text : 0 ∉ held) (text' : 0 ∉ input) :
    grepLoop pattern chunk n held input = some (written pattern (held ++ input)) := by
  induction n generalizing held input with
  | zero => omega
  | succ n ih =>
    obtain ⟨got, rest, eq, split⟩ : ∃ got rest, read chunk (1024 - held.length - 1) input =
      (got, rest) ∧
        input = got ++ rest := ⟨_, _, splitAt_eq .., (take_append_drop ..).symm⟩
    have size := congrArg (fun p => p.1.length) eq
    simp only [read, splitAt_eq, length_take] at size
    rw [grepLoop, eq]
    dsimp only
    split
    · rename_i nil
      have stuck : input = [] ∨ 1023 ≤ held.length := by
        rw [nil, length_nil] at size
        rw [← length_eq_zero_iff]
        omega
      rw [written_stuck free stuck]
    · rename_i some
      subst split
      have pos := length_pos_iff.2 some
      rw [length_append] at enough
      rw [mem_append, not_or] at text'
      obtain ⟨w, left, loop, free', text'', small', all⟩ :=
        lineLoop_eq pattern (s := held ++ got) (le_refl _) (by rw [length_append]; omega)
          (by simp [text, text'.1])
      rw [loop]
      dsimp only
      rw [ih (by omega) free' small' text'' text'.2, Option.map_some, ← all, append_assoc]

theorem grep_eq (chunk : Nat → Nat) (text : 0 ∉ s) :
    grep pattern chunk s = some (written pattern s) :=
  grepLoop_eq chunk (Nat.lt_succ_self _) not_mem_nil (Nat.zero_le _) not_mem_nil text

/-- However `read` splits an input without NUL, `grep` writes the lines that match, if and only if
none does from the first line on that is longer than 1022 bytes. -/
theorem grep_writes_matches_iff (pattern : List UInt8) (chunk : Nat → Nat)
    (s : { s : List UInt8 // 0 ∉ s }) :
    grep pattern chunk s.val = some (output pattern (lines s.val)) ↔
      ∀ l ∈ (lines s.val).dropWhile fun l => l.length ≤ 1022, matchLine pattern l = false := by
  have split : output pattern (lines s.val) =
      written pattern s.val ++ output pattern ((lines s.val).dropWhile short) := by
    rw [written, output, output, output, ← flatMap_append, ← filter_append,
      takeWhile_append_dropWhile]
  rw [grep_eq chunk s.2, Option.some_inj, split, self_eq_append_right, output, flatMap_eq_nil_iff]
  simp only [mem_filter, append_eq_nil_iff, cons_ne_nil, and_false, imp_false, not_and,
    Bool.not_eq_true]
  rfl

/-- A line of 1023 bytes is lost. -/
theorem grep_loses_long_line : let line : List UInt8 := List.replicate 1023 97
    grep [97] (fun _ => 0) (line ++ [10]) = some [] ∧ output [97] (lines (line ++ [10])) =
      line ++ [10] := by
  intro line
  have only : ∀ b ∈ line, b = 97 := fun b => eq_of_mem_replicate
  have free : 10 ∉ line := fun mem => absurd (only _ mem) (by decide)
  have text : 0 ∉ line ++ [10] := by
    rw [mem_append, not_or]
    exact ⟨fun mem => absurd (only _ mem) (by decide), by decide⟩
  have long : ¬ short line = true := by
    rw [short, length_replicate]
    decide
  have first (t) : matchLine [97] (97 :: t) = true := by simp [matchLine, matchhere]
  have hit : matchLine [97] line = true := first (List.replicate 1022 97)
  have one : lines (line ++ [10]) = [line] := lines_cons free []
  rw [grep_eq _ text, written, one, takeWhile_cons_of_neg long, output, output,
    filter_cons_of_pos hit]
  exact ⟨rfl, by simp⟩

end OsProject.Xv6.UserGrep
