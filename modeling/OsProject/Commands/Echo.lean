import OsProject.Lib.CString

/-! # custom_echo

Strings are their bytes without the terminating NUL. Accesses to the input and to the buffer of
`process_escapes` are checked: one that is outside has no result. -/
namespace OsProject.Commands.Echo
open Lib.CString List

/-- An argument of a program: it holds no NUL. -/
abbrev Arg := { s : List UInt8 // 0 ∉ s }

/-! ## process_escapes -/

/-- The indices `i` and `j` of the loop; `buf` is the buffer below `j`. -/
structure Scan where
  i : Nat
  buf : List UInt8
  deriving DecidableEq

/-- `buf[j++] = b` in the buffer of `strlen(src) + 1` bytes. -/
def put (src buf : List UInt8) (b : UInt8) : Option (List UInt8) :=
  if buf.length < src.length + 1 then some (buf ++ [b]) else none

def isOctal (d : UInt8) : Bool := 48 ≤ d && d ≤ 55

/-- The loop over the digits of an octal escape, with `k` digits to go. -/
def octalLoop (src : List UInt8) : Nat → Nat → Nat → Option (Nat × Nat)
  | 0, i, octal => some (i, octal)
  | k + 1, i, octal =>
    if i + 1 < src.length then do
      let d ← src[i + 1]?
      if isOctal d then octalLoop src k (i + 1) (octal * 8 + (d.toNat - 48)) else some (i, octal)
    else some (i, octal)

/-- The escapes of one letter: `\\`, `\n`, `\t`, `\r`, `\a` and `\b`. -/
def simple : UInt8 → Option UInt8
  | 92 => some 92
  | 110 => some 10
  | 116 => some 9
  | 114 => some 13
  | 97 => some 7
  | 98 => some 8
  | _ => none

/-- One round of the loop. -/
def step (src : List UInt8) (s : Scan) : Option Scan := do
  let c ← src[s.i]?
  if c = 92 ∧ s.i + 1 < src.length then
    let i := s.i + 1
    let d ← src[i]?
    if d = 48 then
      let (i, octal) ← octalLoop src 3 i 0
      some ⟨i + 1, ← put src s.buf (UInt8.ofNat octal)⟩
    else match simple d with
      | some b => some ⟨i + 1, ← put src s.buf b⟩
      | none => some ⟨i + 1, ← put src (← put src s.buf 92) d⟩
  else some ⟨s.i + 1, ← put src s.buf c⟩

/-- The state before round `n`, or at the end of the loop. -/
def loop (src : List UInt8) : Nat → Scan → Option Scan
  | 0, s => some s
  | n + 1, s => if s.i < src.length then (step src s).bind (loop src n) else some s

/-- The buffer that is returned. Each round moves `i`, so there are at most `strlen(src)`. -/
def processEscapes (src : List UInt8) : Option (List UInt8) := do
  let s ← loop src src.length ⟨0, []⟩
  put src s.buf 0

/-! ## main -/

structure Options where
  noNewline : Bool
  escapeEnabled : Bool
  deriving DecidableEq

/-- One letter of a flag. -/
def letter (o : Options) : UInt8 → Option Options
  | 110 => some { o with noNewline := true }
  | 101 => some { o with escapeEnabled := true }
  | 69 => some { o with escapeEnabled := false }
  | _ => none

/-- The letters of a flag, up to the first that is not one, and whether all of them are. -/
def cluster (o : Options) : List UInt8 → Options × Bool
  | [] => (o, true)
  | c :: s => match letter o c with
    | some o => cluster o s
    | none => (o, false)

inductive Parsed where
  | usage
  | version
  /-- print these arguments -/
  | print (o : Options) (args : List Arg)
  deriving DecidableEq

def help : List UInt8 := [45, 45, 104, 101, 108, 112]

def version : List UInt8 := [45, 45, 118, 101, 114, 115, 105, 111, 110]

def parse (o : Options) : List Arg → Parsed
  | [] => .print o []
  | a :: rest =>
    if a.val = help then .usage
    else if a.val = version then .version
    else if a.val.head? = some 45 ∧ a.val.tail ≠ [] then
      match cluster o a.val.tail with
      | (o, true) => parse o rest
      | (o, false) => .print o (a :: rest)
    else .print o (a :: rest)

/-- `fputs` writes the string that the buffer holds. -/
def printArg (o : Options) (a : Arg) : Option (List UInt8) :=
  if o.escapeEnabled then (processEscapes a.val).map cString else some a.val

/-- The output loop of `main`. -/
def printArgs (o : Options) : List Arg → Option (List UInt8)
  | [] => some (if o.noNewline then [] else [10])
  | [a] => do return (← printArg o a) ++ if o.noNewline then [] else [10]
  | a :: rest => do return (← printArg o a) ++ 32 :: (← printArgs o rest)

/-! ## What a text stands for -/

/-- The digits that an octal escape takes of the text behind `\\0`. -/
def digits (t : List UInt8) : List UInt8 := (t.take 3).takeWhile isOctal

def octalValue (v : Nat) (ds : List UInt8) : Nat := ds.foldl (fun v d => v * 8 + (d.toNat - 48)) v

/-- The bytes that the first byte or escape of a text stands for, and how many it takes
besides the first. -/
def first (c : UInt8) : List UInt8 → List UInt8 × Nat
  | [] => ([c], 0)
  | d :: t =>
    if c = 92 then
      if d = 48 then ([UInt8.ofNat (octalValue 0 (digits t))], (digits t).length + 1)
      else ((simple d).elim [92, d] fun b => [b], 1)
    else ([c], 0)

/-- The places of a text at which a byte or an escape begins, each with what follows it. -/
def places : List UInt8 → List (UInt8 × List UInt8)
  | [] => []
  | c :: t => (c, t) :: places (t.drop (first c t).2)
termination_by t => t.length
decreasing_by
  rw [length_drop, length_cons]
  omega

def decode (t : List UInt8) : List UInt8 := (places t).flatMap fun p => (first p.1 p.2).1

variable {src t : List UInt8} {c : UInt8}

@[simp] theorem decode_nil : decode [] = [] := by simp [decode, places]

theorem decode_cons : decode (c :: t) = (first c t).1 ++ decode (t.drop (first c t).2) := by
  rw [decode, places, flatMap_cons, ← decode]

theorem digits_length_le (t : List UInt8) : (digits t).length ≤ t.length :=
  le_trans (takeWhile_sublist _).length_le (length_take_le' ..)

theorem first_fits (c : UInt8) (t : List UInt8) : (first c t).2 ≤ t.length := by
  cases t with
  | nil => exact le_refl 0
  | cons d t =>
    have le := digits_length_le t
    rw [first]
    split
    · split
      · exact Nat.succ_le_succ le
      · exact Nat.succ_le_succ (Nat.zero_le _)
    · exact Nat.zero_le _

/-- An escape is not shorter than what it stands for. -/
theorem first_shrinks (c : UInt8) (t : List UInt8) : (first c t).1.length ≤ (first c t).2 + 1 := by
  cases t with
  | nil => exact le_refl 1
  | cons d t =>
    rw [first]
    split
    · split
      · exact Nat.succ_le_succ (Nat.zero_le _)
      · cases simple d <;> simp
    · exact Nat.le_refl 1

/-! ## The loop writes what the text stands for -/

theorem octalLoop_eq (k i v : Nat) : octalLoop src k i v =
    some (i + (((src.drop (i + 1)).take k).takeWhile isOctal).length,
      octalValue v (((src.drop (i + 1)).take k).takeWhile isOctal)) := by
  induction k generalizing i v with
  | zero => rfl
  | succ k ih =>
    rw [octalLoop]
    by_cases lt : i + 1 < src.length
    · rw [if_pos lt, getElem?_eq_getElem lt, drop_eq_getElem_cons lt, take_succ_cons,
        takeWhile_cons]
      simp only [Option.bind_eq_bind, Option.bind_some]
      split
      · rw [ih]
        simp only [length_cons, octalValue, foldl_cons]
        congr 2
        omega
      · rfl
    · rw [if_neg lt, drop_eq_nil_of_le (by omega)]
      rfl

theorem put_eq {buf} (lt : buf.length < src.length + 1) (b : UInt8) :
    put src buf b = some (buf ++ [b]) := if_pos lt

theorem step_eq {s} (rest : src.drop s.i = c :: t) (le : s.buf.length ≤ s.i) :
    step src s = some ⟨s.i + ((first c t).2 + 1), s.buf ++ (first c t).1⟩ := by
  have len := congrArg List.length rest
  rw [length_drop, length_cons] at len
  have here : src[s.i]? = some c := by
    have : (src.drop s.i)[0]? = src[s.i + 0]? := getElem?_drop
    rw [rest] at this
    exact this.symm
  simp only [step, here, Option.bind_eq_bind, Option.bind_some]
  cases t with
  | nil =>
    rw [if_neg (by rw [length_nil] at len; omega), put_eq (by omega)]
    rfl
  | cons d t =>
    rw [length_cons] at len
    have next : src[s.i + 1]? = some d := by
      have : (src.drop s.i)[1]? = src[s.i + 1]? := getElem?_drop
      rw [rest] at this
      exact this.symm
    have after : src.drop (s.i + 1 + 1) = t := by
      rw [add_assoc, ← drop_drop, rest]
      rfl
    rw [first]
    by_cases slash : c = 92
    · rw [if_pos ⟨slash, by omega⟩, if_pos slash, next, Option.bind_some]
      split
      · rw [octalLoop_eq, after, Option.bind_some, put_eq (by omega)]
        simp only [Option.bind_some, Option.some.injEq, Scan.mk.injEq, digits, and_true]
        omega
      · cases simple d with
        | some b =>
          dsimp only
          rw [put_eq (by omega)]
          rfl
        | none =>
          have room : (s.buf ++ [92]).length < src.length + 1 := by
            rw [length_append, length_singleton]
            omega
          rw [put_eq (by omega), Option.bind_some, put_eq room, append_assoc]
          rfl
    · rw [if_neg fun h => slash h.1, if_neg slash, put_eq (by omega)]
      rfl

/-- Where the loop stands: it has written what the text before `i` stands for. -/
structure Stands (src : List UInt8) (s : Scan) : Prop where
  behind : s.buf.length ≤ s.i
  within : s.i ≤ src.length
  wrote : s.buf ++ decode (src.drop s.i) = decode src

theorem Stands.step {s} (h : Stands src s) (lt : s.i < src.length) :
    ∃ s', step src s = some s' ∧ s.i < s'.i ∧ Stands src s' := by
  obtain ⟨c, t, rest⟩ : ∃ c t, src.drop s.i = c :: t := ⟨_, _, drop_eq_getElem_cons lt⟩
  have len := congrArg List.length rest
  rw [length_drop, length_cons] at len
  have fits := first_fits c t
  have shrinks := first_shrinks c t
  have behind := h.behind
  have wrote := h.wrote
  refine ⟨_, step_eq rest behind, by dsimp only; omega, ⟨?_, ?_, ?_⟩⟩
  · rw [length_append]
    dsimp only
    omega
  · dsimp only
    omega
  · rw [rest, decode_cons] at wrote
    rw [← drop_drop, rest, drop_succ_cons, append_assoc]
    exact wrote

theorem Stands.loop {s} (h : Stands src s) (n : Nat) :
    ∃ s', loop src n s = some s' ∧ Stands src s' ∧ (src.length ≤ s.i + n → s'.i = src.length) := by
  induction n generalizing s with
  | zero =>
    have within := h.within
    exact ⟨s, rfl, h, fun le => by omega⟩
  | succ n ih =>
    rw [Echo.loop]
    split
    · obtain ⟨s1, one, lt, stands⟩ := h.step ‹_›
      obtain ⟨s', run, stands', done⟩ := ih stands
      exact ⟨s', by rw [one]; exact run, stands', fun le => done (by omega)⟩
    · have within := h.within
      exact ⟨s, rfl, h, fun _ => by omega⟩

theorem stands_start (src : List UInt8) : Stands src ⟨0, []⟩ := ⟨Nat.le_refl 0, Nat.zero_le _, rfl⟩

theorem processEscapes_eq (src : List UInt8) : processEscapes src = some (decode src ++ [0]) := by
  obtain ⟨s, run, stands, done⟩ := (stands_start src).loop src.length
  have wrote := stands.wrote
  have behind := stands.behind
  rw [done (by simp)] at wrote behind
  rw [drop_length, decode_nil, append_nil] at wrote
  simp only [processEscapes, run, Option.bind_eq_bind, Option.bind_some]
  rw [put_eq (by omega), wrote]

/-! ## Round trip -/

def octalDigits (b : UInt8) : List UInt8 := [48 + b / 64, 48 + b / 8 % 8, 48 + b % 8]

/-- A byte as `\\0` and three octal digits, or as itself with a backslash doubled. -/
def encode (p : UInt8 × Bool) : List UInt8 :=
  if p.2 then 92 :: 48 :: octalDigits p.1 else if p.1 = 92 then [92, 92] else [p.1]

theorem digit {x} (lt : x.toNat < 8) : isOctal (48 + x) = true ∧ (48 + x).toNat - 48 = x.toNat := by
  have nat : (48 + x).toNat = 48 + x.toNat := by
    rw [UInt8.toNat_add, Nat.mod_eq_of_lt (by simp; omega)]
    rfl
  refine ⟨?_, by omega⟩
  simp only [isOctal, Bool.and_eq_true, decide_eq_true_eq, UInt8.le_iff_toNat_le, nat]
  simp
  omega

theorem decode_octal (b : UInt8) (t : List UInt8) :
    decode (encode (b, true) ++ t) = b :: decode t := by
  have lt : b.toNat < 256 := b.toNat_lt
  have high := digit (x := b / 64) (by simp; omega)
  have middle := digit (x := b / 8 % 8) (by simp; omega)
  have low := digit (x := b % 8) (by simp; omega)
  have three : digits (octalDigits b ++ t) = octalDigits b := by
    simp [digits, octalDigits, high, middle, low]
  have whole : UInt8.ofNat (octalValue 0 (octalDigits b)) = b := by
    refine UInt8.toNat_inj.1 ?_
    simp only [octalValue, octalDigits, foldl_cons, foldl_nil, high.2, middle.2, low.2]
    simp
    omega
  simp only [encode, if_true, cons_append]
  rw [decode_cons, first, if_pos rfl, if_pos rfl, three, whole]
  rfl

theorem decode_plain (b : UInt8) (t : List UInt8) :
    decode (encode (b, false) ++ t) = b :: decode t := by
  by_cases slash : b = 92
  · subst slash
    simp only [encode, Bool.false_eq_true, if_false, if_true, cons_append, nil_append]
    rw [decode_cons, first, if_pos rfl, if_neg (by decide)]
    rfl
  · have self : first b t = ([b], 0) := by
      cases t with
      | nil => rfl
      | cons d t => rw [first, if_neg slash]
    simp only [encode, Bool.false_eq_true, if_false, if_neg slash, cons_append, nil_append]
    rw [decode_cons, self]
    rfl

theorem decode_encode (l : List (UInt8 × Bool)) : decode (l.flatMap encode) = l.map Prod.fst := by
  induction l with
  | nil => exact decode_nil
  | cons p l ih =>
    obtain ⟨b, octal⟩ := p
    rw [flatMap_cons, map_cons, ← ih]
    cases octal with
    | true => exact decode_octal b _
    | false => exact decode_plain b _

/-- Before every round no more is written than read, and no access is outside; the loop ends at
the end of the input; and what was encoded is decoded. -/
theorem escapes_safe_and_invertible :
    (∀ (src : Arg) (n : Nat), ∃ s, loop src.val n ⟨0, []⟩ = some s ∧ s.buf.length ≤ s.i ∧
      s.i ≤ src.val.length ∧ (src.val.length ≤ n → s.i = src.val.length)) ∧
    (∀ src : Arg, (processEscapes src.val).isSome) ∧
    ∀ l : List (UInt8 × Bool), processEscapes (l.flatMap encode) =
      some (l.map Prod.fst ++ [0]) := by
  refine ⟨fun src n => ?_, fun src => ?_, fun l => ?_⟩
  · obtain ⟨s, run, stands, done⟩ := (stands_start src.val).loop n
    exact ⟨s, run, stands.behind, stands.within, fun le => done (by simpa using le)⟩
  · rw [processEscapes_eq]
    rfl
  · rw [processEscapes_eq, decode_encode]

/-! ## What -e prints -/

/-- An argument has an octal escape for the byte 0. -/
def NulEscape (a : List UInt8) : Prop :=
  ∃ t, (92, 48 :: t) ∈ places a ∧ octalValue 0 (digits t) % 256 = 0

theorem mem_of_places {a p} (mem : p ∈ places a) : p.1 ∈ a ∧ ∀ b ∈ p.2, b ∈ a := by
  fun_induction places a with
  | case1 => cases mem
  | case2 c t ih =>
    rcases mem_cons.1 mem with rfl | later
    · exact ⟨mem_cons_self, fun b => mem_cons_of_mem c⟩
    · have sub : ∀ b ∈ t.drop (first c t).2, b ∈ c :: t :=
        fun b mem => mem_cons_of_mem c (mem_of_mem_drop mem)
      exact ⟨sub _ (ih later).1, fun b mem => sub b ((ih later).2 b mem)⟩

theorem simple_ne_zero {d b} (h : simple d = some b) : b ≠ 0 := by
  unfold simple at h
  split at h <;> cases h <;> decide

theorem zero_mem_first (ne : c ≠ 0) (free : 0 ∉ t) :
    0 ∈ (first c t).1 ↔ c = 92 ∧ ∃ u, t = 48 :: u ∧ octalValue 0 (digits u) % 256 = 0 := by
  have other : 0 ∉ [c] := fun mem => ne (mem_singleton.1 mem).symm
  cases t with
  | nil => exact iff_of_false other fun ⟨_, _, eq, _⟩ => by cases eq
  | cons d t =>
    have ned : (0 : UInt8) ≠ d := fun eq => free (eq ▸ mem_cons_self)
    rw [first]
    by_cases slash : c = 92
    · rw [if_pos slash]
      by_cases zero : d = 48
      · simp [slash, zero, ← UInt8.toNat_inj, eq_comm]
      · rw [if_neg zero]
        refine iff_of_false ?_ fun ⟨_, _, eq, _⟩ => zero (List.cons.inj eq).1
        cases known : simple d with
        | none => simp [ned]
        | some b => simp [(simple_ne_zero known).symm]
    · rw [if_neg slash]
      exact iff_of_false other fun h => slash h.1

theorem zero_mem_decode (a : Arg) : 0 ∈ decode a.val ↔ NulEscape a.val := by
  have whole : ∀ {c t}, (c, t) ∈ places a.val →
      (0 ∈ (first c t).1 ↔ c = 92 ∧ ∃ u, t = 48 :: u ∧ octalValue 0 (digits u) % 256 = 0) := by
    intro c t mem
    obtain ⟨here, after⟩ := mem_of_places mem
    refine zero_mem_first ?_ fun zero => a.2 (after 0 zero)
    rintro rfl
    exact a.2 here
  simp only [decode, mem_flatMap, NulEscape]
  constructor
  · rintro ⟨⟨c, t⟩, mem, zero⟩
    obtain ⟨rfl, u, rfl, value⟩ := (whole mem).1 zero
    exact ⟨u, mem, value⟩
  · rintro ⟨t, mem, value⟩
    exact ⟨_, mem, (whole mem).2 ⟨rfl, t, rfl, value⟩⟩

/-- The arguments as they are printed, with a space between two. -/
def joined (ds : List (List UInt8)) : List UInt8 := [32].intercalate ds

theorem printArgs_eq (n : Bool) (args : List Arg) : printArgs ⟨n, true⟩ args =
    some (joined (args.map fun a => cString (decode a.val)) ++ if n then [] else [10]) := by
  have one : ∀ a : Arg, printArg ⟨n, true⟩ a = some (cString (decode a.val)) := by
    intro a
    rw [printArg, if_pos rfl, processEscapes_eq, Option.map_some, cString_append_nul]
  fun_induction printArgs ⟨n, true⟩ args with
  | case1 => rfl
  | case2 a => simp [one, joined]
  | case3 a rest many ih =>
    cases rest with
    | nil => exact absurd rfl many
    | cons b rest => simp [one, ih, joined, intercalate_cons_cons]

/-- Every NUL makes the output shorter. -/
theorem joined_length (ds : List (List UInt8)) :
    (joined (ds.map cString)).length ≤ (joined ds).length ∧
    ((joined ds).length ≤ (joined (ds.map cString)).length ↔ ∀ d ∈ ds, 0 ∉ d) := by
  induction ds with
  | nil => simp
  | cons d ds ih =>
    have part := cString_length d
    cases ds with
    | nil => simpa [joined] using part
    | cons e ds =>
      rw [forall_mem_cons, ← ih.2, ← part.2]
      simp only [joined, map_cons, intercalate_cons_cons, length_append] at ih ⊢
      omega

/-- With escapes enabled the decoded arguments are printed whole if and only if none of them
has an octal escape for the byte 0. -/
theorem echo_prints_decoded_iff (n : Bool) (args : List Arg) :
    (∀ a ∈ args, processEscapes a.val = some (decode a.val ++ [0])) ∧
    (printArgs ⟨n, true⟩ args =
      some (joined (args.map fun a => decode a.val) ++ if n then [] else [10]) ↔
      ∀ a ∈ args, ¬NulEscape a.val) := by
  have len := joined_length (args.map fun a => decode a.val)
  rw [map_map, forall_mem_map] at len
  refine ⟨fun a _ => processEscapes_eq a.val, ?_⟩
  simp only [← zero_mem_decode]
  rw [printArgs_eq, Option.some.injEq, append_cancel_right_eq, ← len.2]
  constructor
  · intro eq
    exact (congrArg List.length eq).ge
  · intro le
    exact congrArg joined (map_congr_left fun a mem => cString_whole (len.2.1 le a mem))

/-- `\\0` in the middle of an argument ends it. -/
theorem echo_cuts_at_nul : printArgs ⟨false, true⟩ [⟨[97, 92, 48, 98], by decide⟩] = some [97, 10] ∧
    processEscapes [97, 92, 48, 98] = some [97, 0, 98, 0] := by
  decide

/-! ## Options -/

def isLetter (c : UInt8) : Bool := c == 110 || c == 101 || c == 69

/-- A dash and one or more of the letters. -/
def isFlag (a : Arg) : Bool := a.val.head? = some 45 ∧ a.val.tail ≠ [] ∧ a.val.tail.all isLetter

/-- The options that a sequence of letters gives: the last `e` or `E` wins. -/
def options (ls : List UInt8) : Options :=
  ⟨ls.contains 110, (ls.filter fun c => c == 101 || c == 69).getLast? == some 101⟩

/-- The letters in front of an argument, before its first other character. -/
def lead (a : Arg) : List UInt8 :=
  if a.val.head? = some 45 then a.val.tail.takeWhile isLetter else []

def letters (flags : List Arg) : List UInt8 := flags.flatMap lead

variable {ls : List UInt8}

theorem letter_options (ls : List UInt8) (c : UInt8) :
    letter (options ls) c = if isLetter c then some (options (ls ++ [c])) else none := by
  unfold letter
  split
  · simp [options, isLetter]
  · simp [options, isLetter]
  · simp [options, isLetter]
  · rename_i n e E
    rw [if_neg]
    simp only [isLetter, Bool.or_eq_true, beq_iff_eq]
    rintro ((rfl | rfl) | rfl)
    · exact n rfl
    · exact e rfl
    · exact E rfl

theorem cluster_options (s ls : List UInt8) :
    cluster (options ls) s = (options (ls ++ s.takeWhile isLetter), s.all isLetter) := by
  induction s generalizing ls with
  | nil => simp [cluster]
  | cons c s ih =>
    rw [cluster, letter_options, takeWhile_cons, all_cons]
    cases isLetter c with
    | true => simp [ih]
    | false => simp

theorem parse_options (ls) {args} (plain : ∀ a ∈ args, a.val ≠ help ∧ a.val ≠ version) :
    parse (options ls) args =
      .print (options (ls ++ letters (args.takeWhile isFlag) ++
        letters (args.dropWhile isFlag).head?.toList)) (args.dropWhile isFlag) := by
  induction args generalizing ls with
  | nil => simp [parse, letters]
  | cons a rest ih =>
    obtain ⟨⟨notHelp, notVersion⟩, plain⟩ := forall_mem_cons.1 plain
    rw [parse, if_neg notHelp, if_neg notVersion, takeWhile_cons, dropWhile_cons]
    by_cases dash : a.val.head? = some 45 ∧ a.val.tail ≠ []
    · have flag : isFlag a = a.val.tail.all isLetter := by
        rw [isFlag, Bool.eq_iff_iff, decide_eq_true_eq]
        exact ⟨fun h => h.2.2, fun h => ⟨dash.1, dash.2, h⟩⟩
      have front : lead a = a.val.tail.takeWhile isLetter := if_pos dash.1
      rw [if_pos dash, cluster_options, flag]
      cases a.val.tail.all isLetter with
      | true => simp [ih _ plain, letters, front]
      | false => simp [letters, front]
    · have flag : isFlag a = false := by
        rw [isFlag, decide_eq_false_iff_not]
        exact fun h => dash ⟨h.1, h.2.1⟩
      have front : lead a = [] := by
        unfold lead
        split
        · rename_i head
          rw [not_not.1 fun tail => dash ⟨head, tail⟩]
          rfl
        · rfl
      rw [if_neg dash]
      simp [flag, letters, front]

/-- The options are those of the flags in front and the rest is printed, if and only if the
letters that the first argument to print begins with would not change them. -/
theorem echo_options_iff {args : List Arg} (plain : ∀ a ∈ args, a.val ≠ help ∧ a.val ≠ version) :
    parse ⟨false, false⟩ args =
        .print (options (letters (args.takeWhile isFlag))) (args.dropWhile isFlag) ↔
      ∀ a ∈ (args.dropWhile isFlag).head?,
        options (letters (args.takeWhile isFlag) ++ lead a) =
          options (letters (args.takeWhile isFlag)) := by
  have parsed := parse_options [] plain
  rw [show (⟨false, false⟩ : Options) = options [] from rfl, parsed]
  cases (args.dropWhile isFlag).head? with
  | none => simp [letters]
  | some a => simp [letters]

theorem echo_options_n : parse ⟨false, false⟩ [⟨[45, 110], by decide⟩, ⟨[120], by decide⟩] =
    .print ⟨true, false⟩ [⟨[120], by decide⟩] :=
  (echo_options_iff (by decide)).2 (by decide)

/-- `-nx` is printed as text and still takes the newline away. -/
theorem echo_text_sets_option : parse ⟨false, false⟩ [⟨[45, 110, 120], by decide⟩] =
    .print ⟨true, false⟩ [⟨[45, 110, 120], by decide⟩] := by
  decide

end OsProject.Commands.Echo
