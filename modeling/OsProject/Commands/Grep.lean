import OsProject.Lib.CString
import OsProject.Lib.Fields

/-! # custom_grep

`read_line` with its growing buffer, whose writes are checked against the allocation
(`realloc` succeeds, so that sizes stay below `2^63`), and `process_stream` over it. What
`regexec` decides is a field of `Regex`, tied to a semantics of POSIX extended regular
expressions. -/
namespace OsProject.Commands.Grep
open Lib.CString Lib.Fields List Option

/-! ## The program -/

/-- `LineBuffer`, with the whole of its allocation. -/
structure LineBuffer where
  data : List UInt8
  length : Nat
  deriving DecidableEq

/-- The bytes of the line. -/
def LineBuffer.stored (b : LineBuffer) : List UInt8 := b.data.take b.length

/-- `data[i] = ch`, inside the allocation. -/
def store (data : List UInt8) (i : Nat) (ch : UInt8) : Option (List UInt8) :=
  if i < data.length then some (data.set i ch) else none

section reading
variable (fresh : Nat → UInt8)

/-- `realloc`, which succeeds; `fresh` is what the new part holds. -/
def realloc (data : List UInt8) (n : Nat) : List UInt8 :=
  data.take n ++ (List.range (n - data.length)).map fresh

/-- The loop of `read_line`: the capacity, the buffer and the rest of the stream. -/
def readLoop : List UInt8 → Nat → LineBuffer → Option (Nat × LineBuffer × List UInt8)
  | [], capacity, buffer => some (capacity, buffer, [])
  | ch :: stream, capacity, buffer => do
    let grow := capacity ≤ buffer.length + 1
    let newCapacity := if capacity = 0 then 128 else capacity * 2
    let data ← store (if grow then realloc fresh buffer.data newCapacity else buffer.data)
      buffer.length ch
    let capacity := if grow then newCapacity else capacity
    let buffer := ⟨data, buffer.length + 1⟩
    if ch = 10 then some (capacity, buffer, stream) else readLoop stream capacity buffer

/-- `read_line`: the buffer, or nothing for `-1`, and the rest of the stream. -/
def readLine (stream : List UInt8) : Option (Option LineBuffer × List UInt8) := do
  let (capacity, buffer, rest) ← readLoop fresh stream 0 ⟨[], 0⟩
  -- only at the end of the stream
  if buffer.length = 0 then some (none, rest)
  else
    let data := if capacity ≤ buffer.length + 1 then realloc fresh buffer.data (buffer.length + 1)
      else buffer.data
    let data ← store data buffer.length 0
    some (some ⟨data, buffer.length⟩, rest)

/-- Calls of `read_line` up to the one that returns `-1`. -/
def readLines : Nat → List UInt8 → Option (List LineBuffer)
  | 0, _ => none
  | n + 1, stream => do
    match ← readLine fresh stream with
    | (none, _) => some []
    | (some buffer, rest) => some (buffer :: (← readLines n rest))

end reading

structure Options where
  lineNumber : Bool
  invertMatch : Bool
  countOnly : Bool
  listFiles : Bool

/-- `%ld`. -/
def decimal (n : Nat) : List UInt8 := (Nat.toDigits 10 n).map fun d => UInt8.ofNat d.toNat

/-- `printf("%s:", filename)`, for several files. -/
def namePrefix (multiple : Bool) (filename : Option (List UInt8)) : List UInt8 :=
  if multiple then filename.elim [] (· ++ [58]) else []

/-- The value of `matched`. -/
def selects (regexec : List UInt8 → Bool) (o : Options) (data : List UInt8) : Bool :=
  if o.invertMatch then !regexec (cString data) else regexec (cString data)

section program
variable (fresh : Nat → UInt8) (regexec : List UInt8 → Bool) (o : Options)
    (filename : Option (List UInt8))
  (multiple : Bool)

/-- What is printed for a selected line. -/
def printLine (number : Nat) (buffer : LineBuffer) : List UInt8 :=
  namePrefix multiple filename ++ (if o.lineNumber then decimal number ++ [58] else []) ++
    cString buffer.data ++
    if buffer.length = 0 ∨ buffer.data[buffer.length - 1]? ≠ some 10 then [10] else []

/-- The loop of `process_stream` and what follows it, as what is printed. Each round takes a byte
of the stream, so as many rounds as it has bytes and one more are enough. -/
def processLoop : Nat → List UInt8 → Nat → Nat → Option (List UInt8)
  | 0, _, _, _ => none
  | n + 1, stream, lineNumber, matchCount => do
    match ← readLine fresh stream with
    | (none, _) =>
      some (if o.countOnly then namePrefix multiple filename ++ decimal matchCount ++ [10] else [])
    | (some buffer, rest) =>
      let lineNumber := lineNumber + 1
      if selects regexec o buffer.data then
        -- without a file name `printf` is given a null pointer, which is undefined
        if o.listFiles then filename.map (· ++ [10])
        else
          let printed := if o.countOnly then [] else printLine o filename multiple lineNumber buffer
          some (printed ++ (← processLoop n rest lineNumber (matchCount + 1)))
      else processLoop n rest lineNumber matchCount

def processStream (stream : List UInt8) : Option (List UInt8) :=
  processLoop fresh regexec o filename multiple (stream.length + 1) stream 0 0

end program

/-! ## Lines -/

variable {s l t data : List UInt8} {capacity n : Nat}

/-- The lines of a stream, with their newlines. -/
def buffers (s : List UInt8) : List (List UInt8) :=
  ((s.splitOn 10).dropLast.map (· ++ [10])) ++ ((s.splitOn 10).getLast?.filter (· ≠ [])).toList

theorem buffers_line (free : 10 ∉ l) (t : List UInt8) :
    buffers (l ++ 10 :: t) = (l ++ [10]) :: buffers t := by
  rw [buffers, splitOn_append_cons_self_of_not_mem free]
  obtain ⟨a, as, eq⟩ := exists_cons_of_ne_nil (splitOn_ne_nil 10 t)
  rw [buffers, eq]
  rfl

theorem buffers_last (free : 10 ∉ l) : buffers l = if l = [] then [] else [l] := by
  rw [buffers, splitOn_eq_singleton free]
  cases l <;> rfl

/-- Without its newline. -/
def chomp (data : List UInt8) : List UInt8 :=
  if data.getLast? = some 10 then data.dropLast else data

section reading
variable (fresh : Nat → UInt8)

theorem realloc_append (t0) (le : l.length ≤ n) :
    ∃ t, realloc fresh (l ++ t0) n = l ++ t ∧ l.length + t.length = n := by
  refine ⟨t0.take (n - l.length) ++ (List.range (n - (l ++ t0).length)).map fresh, ?_, ?_⟩
  · rw [realloc, take_append, take_of_length_le le, append_assoc]
  · simp only [length_append, length_take, length_map, length_range]
    omega

theorem store_append {c t} (ch) : store (l ++ c :: t) l.length ch = some (l ++ ch :: t) := by
  rw [store, if_pos (by simp), set_append_right _ _ (le_refl _), Nat.sub_self]
  rfl

/-- What is allocated is more than what is stored, from the first byte on. -/
def Room (capacity : Nat) (l t : List UInt8) : Prop :=
  capacity = l.length + t.length ∧ (l.length < capacity ∨ l = [] ∧ capacity = 0)

theorem readLoop_cons (room : Room capacity l t) (ch : UInt8) (s : List UInt8) :
    ∃ c' t', Room c' (l ++ [ch]) t' ∧ readLoop fresh (ch :: s) capacity ⟨l ++ t, l.length⟩ =
      if ch = 10 then some (c', ⟨l ++ [ch] ++ t', (l ++ [ch]).length⟩, s)
      else readLoop fresh s c' ⟨l ++ [ch] ++ t', (l ++ [ch]).length⟩ := by
  obtain ⟨size, some⟩ := room
  have grown : ∃ c' t', l.length + 1 < c' ∧ l.length + List.length t' = c' ∧
      (if capacity ≤ l.length + 1 then (if capacity = 0 then 128 else capacity * 2) else capacity) =
      c' ∧ (if capacity ≤ l.length + 1
      then realloc fresh (l ++ t) (if capacity = 0 then 128 else capacity * 2)
        else l ++ t) = l ++ t' := by
    split
    · have more : l.length + 1 < if capacity = 0 then 128 else capacity * 2 := by
        obtain lt | ⟨rfl, rfl⟩ := some
        · rw [if_neg (by omega : capacity ≠ 0)]
          omega
        · decide
      obtain ⟨t', eq, len⟩ := realloc_append fresh t (le_of_lt (Nat.lt_of_succ_lt more))
      exact ⟨_, t', more, len, rfl, eq⟩
    · exact ⟨capacity, t, by omega, size.symm, rfl, rfl⟩
  obtain ⟨c', t', more, len, cap, data⟩ := grown
  cases t' with
  | nil =>
    rw [length_nil] at len
    omega
  | cons c t' =>
    rw [length_cons] at len
    refine ⟨c', t', ⟨?_, .inl ?_⟩, ?_⟩
    · rw [length_append, length_singleton]
      omega
    · rw [length_append]
      exact more
    · simp only [readLoop, data, cap, store_append, bind_eq_bind, bind_some, append_assoc,
        length_append, length_singleton, singleton_append]

theorem readLoop_eq (room : Room capacity l t) {w} (free : 10 ∉ w) (rest : List UInt8) :
    (∃ c t', readLoop fresh (w ++ 10 :: rest) capacity ⟨l ++ t, l.length⟩ =
      some (c, ⟨l ++ w ++ [10] ++ t', (l ++ w ++ [10]).length⟩, rest) ∧
        Room c (l ++ w ++ [10]) t') ∧
    ∃ c t', readLoop fresh w capacity ⟨l ++ t, l.length⟩ =
      some (c, ⟨l ++ w ++ t', (l ++ w).length⟩, []) ∧ Room c (l ++ w) t' := by
  induction w generalizing capacity l t with
  | nil =>
    rw [append_nil]
    obtain ⟨c, t', room', eq⟩ := readLoop_cons fresh room 10 rest
    exact ⟨⟨c, t', eq.trans (if_pos rfl), room'⟩, capacity, t, rfl, room⟩
  | cons ch w ih =>
    rw [mem_cons, not_or] at free
    have step (s) := readLoop_cons fresh room ch s
    simp only [if_neg (Ne.symm free.1)] at step
    rw [append_cons l ch w]
    obtain ⟨c, t', room', eq⟩ := step (w ++ 10 :: rest)
    obtain ⟨c2, t2, room2, eq2⟩ := step w
    rw [cons_append, eq, eq2]
    exact ⟨(ih room' free.2).1, (ih room2 free.2).2⟩

/-- The buffer of a line: the bytes, a NUL, and what else was allocated. -/
theorem readLine_of {c} (room : Room c l t)
    (loop : readLoop fresh s 0 ⟨[], 0⟩ = some (c, ⟨l ++ t, l.length⟩, data)) :
    ∃ t', readLine fresh s =
      some (if l = [] then none else some ⟨l ++ 0 :: t', l.length⟩, data) := by
  simp only [readLine, loop, bind_eq_bind, bind_some, length_eq_zero_iff]
  split
  · exact ⟨[], rfl⟩
  · rename_i ne
    obtain ⟨size, lt⟩ := room
    have roomy : ∃ x t', (if c ≤ l.length + 1 then realloc fresh (l ++ t) (l.length + 1)
        else l ++ t) = l ++ x :: t' := by
      have lt : l.length < c := lt.resolve_right fun no => ne no.1
      split
      · obtain ⟨t', eq, len⟩ := realloc_append fresh t (Nat.le_succ l.length)
        cases t' with
        | nil => simp at len
        | cons x t' => exact ⟨x, t', eq⟩
      · cases t with
        | nil => simp at size; omega
        | cons x t => exact ⟨x, t, rfl⟩
    obtain ⟨x, t', eq⟩ := roomy
    rw [eq, store_append]
    exact ⟨t', rfl⟩

theorem readLine_eq (free : 10 ∉ l) (rest : List UInt8) :
    (∃ t, readLine fresh (l ++ 10 :: rest) =
      some (some ⟨l ++ [10] ++ 0 :: t, (l ++ [10]).length⟩, rest)) ∧
      ∃ t, readLine fresh l = some (if l = [] then none else some ⟨l ++ 0 :: t, l.length⟩, []) := by
  obtain ⟨⟨c, t, line, room⟩, c', t', last, room'⟩ :=
    readLoop_eq fresh (l := []) (t := []) ⟨rfl, .inr ⟨rfl, rfl⟩⟩ free rest
  obtain ⟨u, eq⟩ := readLine_of fresh room line
  rw [if_neg (by simp)] at eq
  exact ⟨⟨u, eq⟩, readLine_of fresh room' last⟩

end reading

/-! ## Reading all lines -/

/-- The buffer holds a line and behind it a NUL. -/
def Terminated (b : LineBuffer) : Prop := ∃ l t, b = ⟨l ++ 0 :: t, l.length⟩

theorem stored_line {t} : (⟨l ++ 0 :: t, l.length⟩ : LineBuffer).stored = l := by
  simp [LineBuffer.stored]

theorem readLines_eq (fresh : Nat → UInt8) (s : List UInt8) {n} (enough : s.length < n) :
    ∃ bs, readLines fresh n s = some bs ∧ bs.map LineBuffer.stored = buffers s ∧
      ∀ b ∈ bs, Terminated b := by
  obtain ⟨n, rfl⟩ : ∃ m, n = m + 1 := ⟨n - 1, by omega⟩
  have stop {n} : readLines fresh (n + 1) [] = some [] := rfl
  have one {n s l t rest bs} (read : readLine fresh s = some (some ⟨l ++ 0 :: t, l.length⟩, rest))
      (eq : readLines fresh n rest = some bs) :
      readLines fresh (n + 1) s = some (⟨l ++ 0 :: t, l.length⟩ :: bs) := by
    simp only [readLines, read, bind_eq_bind, bind_some, eq]
  induction s using induction_lines (a := (10 : UInt8)) generalizing n with
  | last l free =>
    obtain ⟨t, read⟩ := (readLine_eq fresh free []).2
    rw [buffers_last free]
    cases l with
    | nil => exact ⟨[], stop, rfl, by simp⟩
    | cons ch l =>
      obtain ⟨n, rfl⟩ : ∃ m, n = m + 1 := ⟨n - 1, by rw [length_cons] at enough; omega⟩
      refine ⟨_, one read stop, ?_, forall_mem_singleton.2 ⟨_, t, rfl⟩⟩
      rw [map_singleton, stored_line]
      rfl
  | line l rest free ih =>
    rw [length_append, length_cons] at enough
    obtain ⟨n, rfl⟩ : ∃ m, n = m + 1 := ⟨n - 1, by omega⟩
    obtain ⟨t, read⟩ := (readLine_eq fresh free rest).1
    obtain ⟨bs, eq, lines, all⟩ := ih n (by omega)
    refine ⟨_, one read eq, ?_, forall_mem_cons.2 ⟨⟨_, t, rfl⟩, all⟩⟩
    rw [map_cons, stored_line, lines, buffers_line free]

theorem buffers_split (s : List UInt8) :
    (buffers s).flatten = s ∧ (∀ l ∈ buffers s, l ≠ [] ∧ 10 ∉ l.dropLast) ∧
      ∀ l ∈ (buffers s).dropLast, l.getLast? = some 10 := by
  induction s using induction_lines (a := (10 : UInt8)) with
  | last l free =>
    rw [buffers_last free]
    split
    · simp_all
    · rename_i ne
      refine ⟨by simp, ?_, by simp⟩
      rw [forall_mem_singleton]
      exact ⟨ne, fun mem => free (dropLast_subset l mem)⟩
  | line l t free ih =>
    obtain ⟨whole, each, ends⟩ := ih
    rw [buffers_line free, flatten_cons, whole, forall_mem_cons, dropLast_concat]
    refine ⟨by simp, ⟨⟨by simp, free⟩, each⟩, ?_⟩
    cases eq : buffers t with
    | nil => simp
    | cons a as =>
      rw [eq] at ends
      rw [dropLast_cons_cons, forall_mem_cons]
      exact ⟨by simp, ends⟩

/-- For every stream `read_line` gives its lines in turn, with every write inside the allocation. -/
theorem read_line_loses_nothing (fresh : Nat → UInt8) (s : List UInt8) :
    ∃ bs, readLines fresh (s.length + 1) s = some bs ∧ (bs.map LineBuffer.stored).flatten = s ∧
      (∀ b ∈ bs, b.stored ≠ [] ∧ 10 ∉ b.stored.dropLast ∧ b.stored.length = b.length ∧
        b.data[b.length]? = some 0) ∧
      ∀ b ∈ bs.dropLast, b.stored.getLast? = some 10 := by
  obtain ⟨bs, eq, lines, all⟩ := readLines_eq fresh s (Nat.lt_succ_self _)
  obtain ⟨whole, each, ends⟩ := buffers_split s
  rw [← lines] at whole each ends
  rw [← map_dropLast, List.forall_mem_map] at ends
  rw [List.forall_mem_map] at each
  refine ⟨bs, eq, whole, fun b mem => ⟨(each b mem).1, (each b mem).2, ?_⟩, ends⟩
  obtain ⟨l, t, rfl⟩ := all b mem
  simp [stored_line]

/-! ## The loop over the lines -/

section process
variable {fresh : Nat → UInt8} {regexec : List UInt8 → Bool} {o : Options}
    {filename : Option (List UInt8)}
  {multiple : Bool}

def LineBuffer.of (l : List UInt8) : LineBuffer := ⟨l, l.length⟩

theorem selects_terminated : selects regexec o (l ++ 0 :: t) = selects regexec o l := by
  rw [selects, selects, cString_append_nul]

theorem printLine_terminated {k} :
    printLine o filename multiple k ⟨l ++ 0 :: t, l.length⟩ =
      printLine o filename multiple k (.of l) := by
  unfold printLine LineBuffer.of
  rw [cString_append_nul]
  cases l with
  | nil => rfl
  | cons => rw [getElem?_append_left (by simp)]

variable (regexec o) in
/-- The selected lines with their numbers, which begin at `k`. -/
def picked (k : Nat) (s : List UInt8) : List (List UInt8 × Nat) :=
  ((buffers s).zipIdx k).filter fun p => selects regexec o p.1

variable (o filename multiple) in
/-- What is printed when these lines have been selected and `c` before them. -/
def report (c : Nat) (ps : List (List UInt8 × Nat)) : List UInt8 :=
  if o.countOnly then namePrefix multiple filename ++ decimal (c + ps.length) ++ [10]
  else ps.flatMap fun p => printLine o filename multiple p.2 (.of p.1)

theorem report_cons {c p ps} : report o filename multiple c (p :: ps) =
      (if o.countOnly then [] else printLine o filename multiple p.2 (.of p.1)) ++
        report o filename multiple (c + 1) ps := by
  unfold report
  cases o.countOnly with
  | true => simp [Nat.add_comm, Nat.add_left_comm]
  | false => simp

variable (o filename multiple) in
/-- With `-l`, the file name instead as soon as a line is selected. -/
def output (c : Nat) (ps : List (List UInt8 × Nat)) : Option (List UInt8) :=
  if o.listFiles ∧ ps ≠ [] then filename.map (· ++ [10]) else some (report o filename multiple c ps)

/-- The loop goes over the buffers that `read_line` gives. -/
theorem processLoop_eq {bs s} (k c : Nat) (eq : readLines fresh n s = some bs)
    (all : ∀ b ∈ bs, Terminated b) :
    processLoop fresh regexec o filename multiple n s k c = output o filename multiple c
      (((bs.map LineBuffer.stored).zipIdx (k + 1)).filter fun p => selects regexec o p.1) := by
  induction n generalizing s bs k c with
  | zero => cases eq
  | succ n ih =>
    obtain ⟨⟨_ | b, rest⟩, read, more⟩ := bind_eq_some_iff.1 eq
    · cases more
      simp only [processLoop, read, bind_eq_bind, bind_some]
      exact (if_neg fun both => both.2 rfl).symm
    · obtain ⟨bs, later, ⟨⟩⟩ := bind_eq_some_iff.1 more
      obtain ⟨⟨l, t, rfl⟩, others⟩ := forall_mem_cons.1 all
      simp only [processLoop, read, bind_eq_bind, bind_some, selects_terminated,
        printLine_terminated, map_cons, stored_line, zipIdx_cons, filter_cons]
      split
      · rw [ih _ _ later others]
        cases names : o.listFiles <;> simp [output, names, report_cons]
      · rw [ih _ _ later others]

theorem processStream_eq (s : List UInt8) : processStream fresh regexec o filename multiple s =
    output o filename multiple 0 (picked regexec o 1 s) := by
  obtain ⟨bs, eq, lines, all⟩ := readLines_eq fresh s (Nat.lt_succ_self _)
  rw [processStream, processLoop_eq 0 0 eq all, lines]
  rfl

end process

/-! ## Patterns -/

/-- Extended regular expressions: a literal, `.` or a bracket expression as the set of its
characters, the anchors, and the operators. -/
inductive Ere where
  | empty
  | chars (p : UInt8 → Bool)
  | caret
  | dollar
  | seq (a b : Ere)
  | alt (a b : Ere)
  | star (a : Ere)

/-- An expression matches a string from one place to another. -/
inductive Spans (s : List UInt8) : Ere → Nat → Nat → Prop
  | empty {i : Nat} : Spans s .empty i i
  | chars {p : UInt8 → Bool} {i : Nat} {c : UInt8} :
    s[i]? = some c → p c = true → Spans s (.chars p) i (i + 1)
  | caret : Spans s .caret 0 0
  | dollar : Spans s .dollar s.length s.length
  | seq {a b : Ere} {i j k : Nat} : Spans s a i j → Spans s b j k → Spans s (.seq a b) i k
  | altLeft {a b : Ere} {i j : Nat} : Spans s a i j → Spans s (.alt a b) i j
  | altRight {a b : Ere} {i j : Nat} : Spans s b i j → Spans s (.alt a b) i j
  | starNil {a : Ere} {i : Nat} : Spans s (.star a) i i
  | starCons {a : Ere} {i j k : Nat} : Spans s a i j → Spans s (.star a) j k → Spans s (.star a) i k

/-- The pattern matches somewhere in the string. -/
def Matches (e : Ere) (s : List UInt8) : Prop := ∃ i j, i ≤ s.length ∧ Spans s e i j

/-- A compiled pattern: `regexec` finds the matches of the expression in a string. -/
structure Regex where
  ere : Ere
  regexec : List UInt8 → Bool
  posix : ∀ s, 0 ∉ s → (regexec s = true ↔ Matches ere s)

theorem selects_iff (re : Regex) (o : Options) (free : 0 ∉ data) :
    selects re.regexec o data = true ↔ (Matches re.ere data ↔ o.invertMatch = false) := by
  have posix := re.posix data free
  rw [selects, cString_whole free, ← posix]
  cases o.invertMatch <;> simp

/-- A stream without NUL is read as its lines, and the output is that of the selected ones. They are
those whose text the pattern matches (or does not, with `-v`), if and only if no terminated line
matches because of its newline or fails to. -/
theorem grep_selects_text_iff (fresh : Nat → UInt8) (re : Regex) (o : Options)
    (filename : Option (List UInt8)) (multiple : Bool) (s : { s : List UInt8 // 0 ∉ s }) :
    (∃ bs, readLines fresh (s.val.length + 1) s.val = some bs ∧ bs.map LineBuffer.stored =
      buffers s.val) ∧
    processStream fresh re.regexec o filename multiple s.val =
      output o filename multiple 0 (picked re.regexec o 1 s.val) ∧
    ((∀ p ∈ (buffers s.val).zipIdx 1,
        (p ∈ picked re.regexec o 1 s.val ↔ (Matches re.ere (chomp p.1) ↔ o.invertMatch = false))) ↔
      ∀ l, l ++ [10] ∈ buffers s.val → (Matches re.ere (l ++ [10]) ↔ Matches re.ere l)) := by
  obtain ⟨bs, read, lines, -⟩ := readLines_eq fresh s.val (Nat.lt_succ_self _)
  refine ⟨⟨bs, read, lines⟩, processStream_eq s.val, ?_⟩
  have chosen : ∀ p ∈ (buffers s.val).zipIdx 1, _ := fun p mem =>
    selects_iff re o (show 0 ∉ p.1 from fun zero =>
      s.2 ((buffers_split s.val).1 ▸ mem_flatten_of_mem (fst_mem_of_mem_zipIdx mem) zero))
  simp only [picked, mem_filter]
  constructor
  · intro h l mem
    have text : chomp (l ++ [10]) = l := by simp [chomp]
    rw [← zipIdx_map_fst 1 (buffers s.val)] at mem
    obtain ⟨⟨_, k⟩, mem, rfl⟩ := mem_map.1 mem
    have line := h _ mem
    rw [and_iff_right mem, chosen _ mem, text] at line
    by_cases plain : o.invertMatch = false <;> simpa [plain, not_iff_not] using line
  · intro h p mem
    rw [and_iff_right mem, chosen p mem]
    by_cases last : p.1.getLast? = some 10
    · obtain ⟨l, eq⟩ := getLast?_eq_some_iff.1 last
      rw [eq, h l (eq ▸ fst_mem_of_mem_zipIdx mem), chomp, if_pos (eq ▸ last), dropLast_concat]
    · rw [chomp, if_neg last]

theorem spans_dollar {i j : Nat} (h : Spans s .dollar i j) : i = s.length := by
  generalize eq : Ere.dollar = e at h
  cases h <;> cases eq
  rfl

theorem endsInA_posix (s : List UInt8) :
    (s.getLast? == some 97) = true ↔ Matches (.seq (.chars (· == 97)) .dollar) s := by
  rw [beq_iff_eq]
  constructor
  · intro last
    obtain ⟨l, rfl⟩ := getLast?_eq_some_iff.1 last
    refine ⟨l.length, l.length + 1, by simp, .seq (.chars (c := 97) (by simp) rfl) ?_⟩
    have stop := Spans.dollar (s := l ++ [97])
    rwa [length_append, length_singleton] at stop
  · rintro ⟨i, j, -, both⟩
    cases both with
    | seq first stop =>
      cases first with
      | @chars _ i c here p =>
        have last : i + 1 = s.length := spans_dollar stop
        rw [getLast?_eq_getElem?, ← last, Nat.add_sub_cancel, here, beq_iff_eq.1 p]

/-- The pattern `a$`. -/
def endsInA : Regex :=
  ⟨.seq (.chars (· == 97)) .dollar, fun s => s.getLast? == some 97, fun s _ => endsInA_posix s⟩

/-- It selects `a` at the end of a stream and not before a newline. -/
theorem grep_dollar_misses_newline : Matches endsInA.ere (chomp [97, 10]) ∧
    processStream (fun _ => 0) endsInA.regexec ⟨false, false, false, false⟩ none false [97, 10] =
      some [] ∧
    processStream (fun _ => 0) endsInA.regexec ⟨false, false, false, false⟩ none false [97] =
      some [97, 10] := by
  rw [processStream_eq, processStream_eq]
  exact ⟨(endsInA.posix [97] (by decide)).1 rfl, by decide, by decide⟩

/-! ## Output -/

theorem chomp_append (data : List UInt8) :
    chomp data ++ [10] = data ++ if data.getLast? = some 10 then [] else [10] := by
  unfold chomp
  split
  · rename_i last
    obtain ⟨l, rfl⟩ := getLast?_eq_some_iff.1 last
    rw [dropLast_concat, append_nil]
  · rfl

section output
variable (o : Options) (filename : Option (List UInt8)) (multiple : Bool)

/-- A line as it should be printed. -/
def exactLine (p : List UInt8 × Nat) : List UInt8 :=
  namePrefix multiple filename ++ (if o.lineNumber then decimal p.2 ++ [58] else []) ++
    chomp p.1 ++ [10]

theorem printLine_of {k} : printLine o filename multiple k (.of l) =
    namePrefix multiple filename ++ (if o.lineNumber then decimal k ++ [58] else []) ++ cString l ++
      if l.getLast? = some 10 then [] else [10] := by
  rw [printLine, getLast?_eq_getElem?]
  cases l with
  | nil => rfl
  | cons => simp [LineBuffer.of]

theorem printLine_exact (p : List UInt8 × Nat) :
    (printLine o filename multiple p.2 (.of p.1)).length ≤
    (exactLine o filename multiple p).length ∧
      (printLine o filename multiple p.2 (.of p.1) = exactLine o filename multiple p ↔
        0 ∉ p.1) := by
  obtain ⟨le, whole⟩ := cString_length p.1
  rw [printLine_of]
  simp only [exactLine, append_assoc, chomp_append, length_append]
  refine ⟨by omega, ?_⟩
  rw [append_cancel_left_eq, append_cancel_left_eq, append_cancel_right_eq, ← whole]
  exact ⟨fun eq => (congrArg List.length eq).ge, fun le => cString_whole (whole.1 le)⟩

end output

/-- The output is exact, counted by `-c` and split by `-v`, if and only if no selected line holds
a NUL. -/
theorem grep_output_exact_iff (fresh : Nat → UInt8) (regexec : List UInt8 → Bool)
    (number invert multiple : Bool) (filename : Option (List UInt8)) (s : List UInt8) :
    let o : Options := ⟨number, invert, false, false⟩
    let lines := picked regexec o 1 s
    (processStream fresh regexec o filename multiple s =
      some (lines.flatMap (exactLine o filename multiple)) ∧
      processStream fresh regexec { o with countOnly := true } filename multiple s =
        some (namePrefix multiple filename ++ decimal lines.length ++ [10]) ∧
      ∀ data, selects regexec { o with invertMatch := !invert } data = !selects regexec o data) ↔
    ∀ p ∈ lines, 0 ∉ p.1 := by
  intro o lines
  have exact := (flatMap_parts (l := lines)
    (f := fun p => printLine o filename multiple p.2 (.of p.1)) (g := exactLine o filename multiple)
    fun p _ => (printLine_exact o filename multiple p).1).2
  simp only [(printLine_exact o filename multiple _).2] at exact
  have plain : processStream fresh regexec o filename multiple s =
    some (report o filename multiple 0 lines) :=
    processStream_eq s
  have count : processStream fresh regexec { o with countOnly := true } filename multiple s =
      some (report { o with countOnly := true } filename multiple 0 lines) := processStream_eq s
  rw [plain, count, ← exact]
  refine ⟨fun h => Option.some.inj h.1, fun h => ⟨congrArg some h, ?_, fun data => ?_⟩⟩
  · simp only [report, if_true, zero_add]
  · cases invert <;> simp [selects, o]

/-- Of the line `a`, NUL, `b` only `a` is printed, and no newline. -/
theorem grep_cuts_at_nul :
    processStream (fun _ => 0) (fun _ => true) ⟨false, false, false, false⟩ none false
    [97, 0, 98, 10, 99] = some [97, 99, 10] := by
  rw [processStream_eq]
  decide

end OsProject.Commands.Grep
