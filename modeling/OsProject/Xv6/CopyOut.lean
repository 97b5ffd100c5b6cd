import OsProject.Xv6.Memory
import Mathlib.Data.List.GetD

/-! # Copies to user memory that may fail

`copyout` stores the bytes one after the other up to the first address that
does not take a byte. Which addresses take one does not depend on the bytes
stored so far, so a sequence of copies to adjacent addresses is one copy. -/
namespace OsProject.Xv6.CopyOut
open Memory List Option

variable {ok : Nat → Bool} {m m1 m2 : AddrSpace} {a k : Nat} {l l1 l2 : List UInt8}

/-- A byte can be stored at `a`: its page is mapped for the user to write, or
lies below the size and can be mapped. -/
def takes (ok : Nat → Bool) (m : AddrSpace) (a : Nat) : Bool :=
  decide (a / pgSize * pgSize < maxVa) &&
    (m.pages (a / pgSize)).elim (decide (a / pgSize * pgSize < m.sz) && ok (a / pgSize)) fun pg =>
      pg.user && pg.writable

/-- The first `k` bytes of `l` are stored from `a` on, and there the copy ends. -/
structure Took (ok : Nat → Bool) (m : AddrSpace) (a : Nat) (l : List UInt8) (m' : AddrSpace)
    (k : Nat) : Prop where
  le : k ≤ l.length
  bytes : ∀ i, i < k → m'.read (a + i) = some (l.getD i 0)
  rest : ∀ x, x < a ∨ a + k ≤ x → Extends m m' x
  taken : ∀ i, i < k → takes ok m (a + i) = true
  stops : k < l.length → takes ok m (a + k) = false
  same : ∀ x, takes ok m' x = takes ok m x

theorem Took.nil : Took ok m a [] m 0 where
  le := Nat.le_refl _
  bytes _ lt := absurd lt (Nat.not_lt_zero _)
  rest x _ := .refl m x
  taken _ lt := absurd lt (Nat.not_lt_zero _)
  stops lt := absurd lt (Nat.lt_irrefl 0)
  same _ := rfl

theorem Took.refused (no : takes ok m a = false) : Took ok m a l m 0 where
  le := Nat.zero_le _
  bytes _ lt := absurd lt (Nat.not_lt_zero _)
  rest x _ := .refl m x
  taken _ lt := absurd lt (Nat.not_lt_zero _)
  stops _ := no
  same _ := rfl

/-- The copy goes on behind the bytes that are there. -/
theorem Took.append (h1 : Took ok m a l1 m1 l1.length) (h2 : Took ok m1 (a + l1.length) l2 m2 k) :
    Took ok m a (l1 ++ l2) m2 (l1.length + k) where
  le := by
    have := h2.le
    rw [length_append]
    omega
  bytes i lt := by
    by_cases first : i < l1.length
    · have stored := h1.bytes i first
      rw [getD_append _ _ _ _ first]
      exact (h2.rest (a + i) (.inl (by omega))).some stored
    · rw [getD_append_right _ _ _ _ (by omega), ← h2.bytes (i - l1.length) (by omega)]
      congr 1
      omega
  rest x out := (h1.rest x (by omega)).trans (h2.rest x (by omega))
  taken i lt := by
    by_cases first : i < l1.length
    · exact h1.taken i first
    · have := h2.taken (i - l1.length) (by omega)
      rw [h1.same, show a + l1.length + (i - l1.length) = a + i by omega] at this
      exact this
  stops lt := by
    rw [length_append] at lt
    have := h2.stops (by omega)
    rw [h1.same, add_assoc] at this
    exact this
  same x := (h2.same x).trans (h1.same x)

/-- A copy that has ended early also ends a longer one. -/
theorem Took.longer (h : Took ok m a l1 m1 k) (short : k < l1.length) :
    Took ok m a (l1 ++ l2) m1 k where
  le := by
    rw [length_append]
    omega
  bytes i lt := by
    rw [getD_append _ _ _ _ (by omega)]
    exact h.bytes i lt
  rest := h.rest
  taken := h.taken
  stops _ := h.stops short
  same := h.same

/-! ## One page -/

section page
variable {v : Nat} {pg : Page}

theorem page_start : v * pgSize / pgSize = v := Nat.mul_div_cancel _ (by decide)

theorem takes_fresh (fresh : m.pages v = none) (low : v * pgSize < m.sz)
    (free : ok v = true) (x : Nat) : takes ok (m.put v zeroPage) x = takes ok m x := by
  unfold takes
  by_cases here : x / pgSize = v
  · rw [here, put_pages, if_pos rfl, fresh]
    simp only [elim_some, elim_none, zeroPage, Bool.and_self, low, free, decide_true]
  · rw [put_pages, if_neg here]
    rfl

theorem takes_write {off bs} (here : m.pages v = some pg) (x : Nat) :
    takes ok (m.put v (pg.write off bs)) x = takes ok m x := by
  unfold takes
  by_cases at_v : x / pgSize = v
  · rw [at_v, put_pages, if_pos rfl, here]
    rfl
  · rw [put_pages, if_neg at_v]
    rfl

/-- The page of an address that takes a byte is there after `faultIn`. -/
theorem faultIn_takes (yes : takes ok m a = true) : ∃ m1 pg,
    faultIn ok m (a / pgSize * pgSize) = some m1 ∧ m1.pages (a / pgSize) = some pg ∧
      pg.writable = true ∧ ∀ x, takes ok m1 x = takes ok m x := by
  unfold takes at yes
  rw [Bool.and_eq_true, decide_eq_true_iff] at yes
  obtain ⟨low, yes⟩ := yes
  unfold faultIn walkaddr vmfault
  rw [if_neg (not_le.2 low), page_start]
  cases here : m.pages (a / pgSize) with
  | some pg =>
    rw [here, elim_some, Bool.and_eq_true] at yes
    rw [filter_some, if_pos yes.1]
    exact ⟨m, pg, rfl, here, yes.2, fun _ => rfl⟩
  | none =>
    rw [here, elim_none, Bool.and_eq_true, decide_eq_true_iff] at yes
    rw [filter_none, if_neg (not_le.2 yes.1), isSome_none, if_neg Bool.false_ne_true, if_pos yes.2]
    exact ⟨_, zeroPage, rfl, by rw [put_pages, if_pos rfl], rfl, takes_fresh here yes.1 yes.2⟩

/-- At an address that takes none there is no page to write to. -/
theorem faultIn_refuses (no : takes ok m a = false) (low : a / pgSize * pgSize < maxVa) :
    faultIn ok m (a / pgSize * pgSize) = none ∨
      ∃ pg, faultIn ok m (a / pgSize * pgSize) = some m ∧ m.pages (a / pgSize) = some pg ∧
        pg.writable = false := by
  unfold takes at no
  rw [decide_eq_true low, Bool.true_and] at no
  unfold faultIn walkaddr vmfault
  rw [if_neg (not_le.2 low), page_start]
  cases here : m.pages (a / pgSize) with
  | some pg =>
    rw [here, elim_some] at no
    rw [filter_some]
    cases user : pg.user with
    | true =>
      rw [user, Bool.true_and] at no
      exact .inr ⟨pg, rfl, rfl, no⟩
    | false =>
      left
      simp
  | none =>
    rw [here, elim_none] at no
    left
    rw [filter_none]
    dsimp only
    split
    · rfl
    · rename_i below
      rw [decide_eq_true (not_le.1 below), Bool.true_and] at no
      rw [isSome_none, if_neg Bool.false_ne_true, no, if_neg Bool.false_ne_true]

/-- One round stores the bytes that lie in its page. -/
theorem took_page {p} (fault : faultIn ok m (a / pgSize * pgSize) = some m1)
    (here : m1.pages (a / pgSize) = some pg) (yes : takes ok m a = true)
    (same : ∀ x, takes ok m1 x = takes ok m x)
    (fits : a - a / pgSize * pgSize + p.length ≤ pgSize) :
    Took ok m a p (m1.put (a / pgSize) (pg.write (a - a / pgSize * pgSize) p)) p.length := by
  have start : a / pgSize * pgSize ≤ a := Nat.div_mul_le_self _ _
  have write := read_put_write (a - a / pgSize * pgSize) p here fits
  rw [Nat.add_sub_of_le start] at write
  refine ⟨le_refl _, fun i lt => ?_, fun x out => ?_, fun i lt => ?_,
    fun lt => absurd lt (lt_irrefl _), fun x => (takes_write here x).trans (same x)⟩
  · rw [write, if_pos (by omega), Nat.add_sub_cancel_left]
  · refine (faultIn_extends fault x).trans ⟨rfl, .inl ?_⟩
    rw [write, if_neg (by omega)]
  · have one : (a + i) / pgSize = a / pgSize := by
      simp only [pgSize] at *
      omega
    rw [takes, one]
    exact yes

end page

theorem copyoutLoop_nil (fuel : Nat) : copyoutLoop ok fuel m a [] = (m, true) := by
  cases fuel <;> rfl

/-- `copyout` stores bytes up to the first address that takes none, and succeeds
if there is no such address. -/
theorem copyoutLoop_took (fuel : Nat) :
    ∀ (m : AddrSpace) (a : Nat) (l : List UInt8), l.length ≤ fuel →
    ∃ k, Took ok m a l (copyoutLoop ok fuel m a l).1 k ∧
      ((copyoutLoop ok fuel m a l).2 = true ↔ k = l.length) := by
  induction fuel with
  | zero =>
    intro m a l le
    obtain rfl : l = [] := length_eq_zero_iff.1 (by omega)
    exact ⟨0, .nil, fun _ => rfl, fun _ => rfl⟩
  | succ fuel ih =>
    intro m a l le
    rw [copyoutLoop]
    split
    · rename_i empty
      obtain rfl : l = [] := isEmpty_iff.1 empty
      exact ⟨0, .nil, fun _ => rfl, fun _ => rfl⟩
    rename_i some_left
    have pos : 0 < l.length := length_pos_iff.2 fun empty => some_left (isEmpty_iff.2 empty)
    have ends : takes ok m a = false → ∃ k, Took ok m a l m k ∧ (false = true ↔ k = l.length) :=
      fun no =>
      ⟨0, .refused no, fun h => absurd h Bool.false_ne_true, fun h => by omega⟩
    dsimp only
    split
    · rename_i high
      exact ends (by rw [takes, decide_eq_false (not_lt.2 high), Bool.false_and])
    rename_i low
    rw [page_start]
    cases yes : takes ok m a with
    | false =>
      rcases faultIn_refuses yes (not_le.1 low) with eq | ⟨pg, eq, here, locked⟩
      · rw [eq]
        exact ends yes
      · rw [eq]
        dsimp only
        rw [here]
        dsimp only
        rw [locked]
        exact ends yes
    | true =>
      obtain ⟨m1, pg, eq, here, writable, same⟩ := faultIn_takes yes
      rw [eq]
      dsimp only
      rw [here]
      dsimp only
      rw [writable, Bool.not_true, if_neg Bool.false_ne_true]
      have start : a / pgSize * pgSize ≤ a := Nat.div_mul_le_self _ _
      have stop : a < a / pgSize * pgSize + pgSize := Nat.lt_div_mul_add (by decide)
      generalize count : min (pgSize - (a - a / pgSize * pgSize)) l.length = n
      have length : (l.take n).length = n := by
        rw [length_take]
        omega
      have first : Took ok m a (l.take n) _ _ := took_page eq here yes same (by rw [length]; omega)
      generalize m1.put (a / pgSize) (pg.write (a - a / pgSize * pgSize) (l.take n)) = m2 at first ⊢
      obtain ⟨k, rest, all⟩ :=
        ih m2 (a / pgSize * pgSize + pgSize) (l.drop n) (by rw [length_drop]; omega)
      rw [length_drop] at all
      refine ⟨n + k, ?_, all.trans (by omega)⟩
      -- either the bytes end in this page, or the next round starts where they stop
      by_cases last : n = l.length
      · obtain rfl : k = 0 := by
          have := rest.le
          rw [length_drop] at this
          omega
        rw [drop_eq_nil_of_le (by omega), copyoutLoop_nil]
        rw [length, take_of_length_le (by omega)] at first
        exact first
      · rw [show a / pgSize * pgSize + pgSize = a + (l.take n).length by omega] at rest ⊢
        have both := first.append rest
        rw [take_append_drop] at both
        rw [length] at both ⊢
        exact both

theorem copyout_took (ok : Nat → Bool) (m : AddrSpace) (a : Nat) (l : List UInt8) :
    ∃ k, Took ok m a l (copyout ok m a l).1 k ∧ ((copyout ok m a l).2 = true ↔ k = l.length) :=
  copyoutLoop_took l.length m a l (le_refl _)

/-- A `copyout` that returns 0 makes exactly the range equal to `l`; every other byte
stays, up to pages mapped on the way. -/
theorem copyout_spec {m'} (h : copyout ok m a l = (m', true)) :
    (∀ b, b < l.length → m'.read (a + b) = some (l.getD b 0)) ∧
    (∀ x, x < a ∨ a + l.length ≤ x → Extends m m' x) := by
  obtain ⟨k, took, all⟩ := copyout_took ok m a l
  rw [h] at took all
  obtain rfl := all.1 rfl
  exact ⟨took.bytes, took.rest⟩

/-! ## Reading back -/

/-- The user can load the byte at `a`. -/
def Loads (m : AddrSpace) (a : Nat) : Prop :=
  a / pgSize * pgSize < maxVa ∧ ∃ pg, m.pages (a / pgSize) = some pg ∧ pg.user = true

theorem faultIn_loads (h : Loads m a) : faultIn ok m (a / pgSize * pgSize) = some m := by
  obtain ⟨low, pg, here, user⟩ := h
  rw [faultIn, walkaddr, if_neg (not_le.2 low), page_start, here, filter_some, if_pos user]

/-- A range that the user can load is copied in without a fault. -/
theorem copyinLoop_loads (ok) {fuel len} (enough : len ≤ fuel)
    (h : ∀ i, i < len → Loads m (a + i)) : ∃ bs, copyinLoop ok fuel m a len = (m, some bs) := by
  induction fuel generalizing a len with
  | zero =>
    obtain rfl : len = 0 := by omega
    exact ⟨[], rfl⟩
  | succ fuel ih =>
    rw [copyinLoop]
    split
    · exact ⟨[], rfl⟩
    · have loads := h 0 (by omega)
      rw [add_zero] at loads
      have present : faultIn ok m _ = some m := faultIn_loads loads
      obtain ⟨_, pg, at_a, _⟩ := loads
      have stop : a < a / pgSize * pgSize + pgSize := Nat.lt_div_mul_add (by decide)
      have start : a / pgSize * pgSize ≤ a := Nat.div_mul_le_self _ _
      dsimp only
      rw [present, page_start]
      dsimp only
      rw [at_a]
      generalize count : min (pgSize - (a - a / pgSize * pgSize)) len = n
      have after : ∀ i, i < len - n → Loads m (a / pgSize * pgSize + pgSize + i) := fun i lt => by
        rw [show a / pgSize * pgSize + pgSize + i = a + (n + i) by omega]
        exact h _ (by omega)
      obtain ⟨bs, rest⟩ := ih (by omega) after
      rw [rest]
      exact ⟨_, rfl⟩

theorem Took.loads (h : Took ok m a l m1 k) {i} (lt : i < k) : Loads m1 (a + i) := by
  have yes := (h.same (a + i)).trans (h.taken i lt)
  have stored := h.bytes i lt
  unfold AddrSpace.read at stored
  rw [takes, Bool.and_eq_true, decide_eq_true_iff] at yes
  obtain ⟨low, yes⟩ := yes
  cases here : m1.pages ((a + i) / pgSize) with
  | none =>
    rw [here] at stored
    cases stored
  | some pg =>
    rw [here, elim_some, Bool.and_eq_true] at yes
    exact ⟨low, pg, here, yes.1⟩

/-- Nothing is stored in a page that the user may not write. -/
theorem Took.locked (h : Took ok m a l m1 k) {x pg} (here : m.pages (x / pgSize) = some pg)
    (locked : (pg.user && pg.writable) = false) : m1.read x = m.read x := by
  have byte : m.read x = some (pg.bytes (x % pgSize)) := by rw [AddrSpace.read, here]; rfl
  have off : x < a ∨ a + k ≤ x := by
    by_contra inside
    have yes := h.taken (x - a) (by omega)
    rw [show a + (x - a) = x by omega, takes, here, elim_some, locked, Bool.and_false] at yes
    cases yes
  rw [byte]
  exact (h.rest x off).some byte

/-- Copies are exact and confined: a `copyout` stores a prefix of the bytes at their addresses, all
of them if it returns 0, and nothing elsewhere or in a page without `PTE_U` and `PTE_W`; a `copyin`
yields the bytes of the range; and after a `copyout` it yields what was copied out. Other addresses
keep their bytes, up to zeroed pages below the size mapped on the way. -/
theorem copies_exact_and_confined (ok : Nat → Bool) (m : AddrSpace) (a : Nat) :
    (∀ l : List UInt8, ∃ k, k ≤ l.length ∧ ((copyout ok m a l).2 = true ↔ k = l.length) ∧
      (∀ i, i < k → (copyout ok m a l).1.read (a + i) = some (l.getD i 0)) ∧
      (∀ x, x < a ∨ a + k ≤ x → Extends m (copyout ok m a l).1 x) ∧
      ∀ x pg, m.pages (x / pgSize) = some pg → (pg.user && pg.writable) = false →
        (copyout ok m a l).1.read x = m.read x) ∧
    (∀ len m' bs, copyin ok m a len = (m', some bs) → bs.length = len ∧
      (∀ i, i < len → m'.read (a + i) = some (bs.getD i 0)) ∧ ∀ x, Extends m m' x) ∧
    ∀ l, (copyout ok m a l).2 = true → ∀ ok', copyin ok' (copyout ok m a l).1 a l.length =
      ((copyout ok m a l).1, some l) := by
  refine ⟨fun l => ?_, fun len m' bs h => copyin_spec h, fun l done ok' => ?_⟩
  · obtain ⟨k, took, all⟩ := copyout_took ok m a l
    exact ⟨k, took.le, all, took.bytes, took.rest, fun x pg here locked => took.locked here locked⟩
  · obtain ⟨k, took, all⟩ := copyout_took ok m a l
    obtain rfl := all.1 done
    obtain ⟨bs, run⟩ := copyinLoop_loads ok' (le_refl l.length) fun i lt => took.loads lt
    obtain ⟨length, bytes, -⟩ := copyin_spec run
    refine run.trans (congrArg _ (congrArg some (ext_getElem length fun i lt lt' => ?_)))
    have back := (bytes i lt').symm.trans (took.bytes i lt')
    simpa [getD_eq_getElem?_getD, lt, lt'] using back

-- over the border of two pages, neither of them mapped yet
example : let r := copyout (fun _ => true) ⟨fun _ => none, 8192⟩ 4095 [1, 2]
    r.2 = true ∧ r.1.read 4095 = some 1 ∧ r.1.read 4096 = some 2 ∧ r.1.read 4097 = some 0 ∧
      r.1.read 8192 = none := by
  decide +kernel

end OsProject.Xv6.CopyOut
