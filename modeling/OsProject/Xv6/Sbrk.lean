import OsProject.Xv6.Memory

/-! # Growing and shrinking a process

`sys_sbrk` with `growproc`, `uvmalloc` and `uvmdealloc`, on the user part of an address
space. A step that panics has no result. -/
namespace OsProject.Xv6.Sbrk
open Memory

/-- `PGROUNDUP`. -/
def pgroundup (a : Nat) : Nat := (a + pgSize - 1) / pgSize * pgSize

/-- `TRAPFRAME`: the user part of an address space ends here. -/
def trapframeVa : Nat := maxVa - 2 * pgSize

/-- `sz + n` for a `uint64` and an `int`. -/
def moved (sz : Nat) (n : Int32) : Nat := (((sz : Int) + n.toInt) % 18446744073709551616).toNat

/-- `uvmunmap` of `n` pages from page `v` on. Pages that are not mapped are skipped. -/
def uvmunmap (m : AddrSpace) (v n : Nat) : AddrSpace :=
  { m with pages := fun u => if v ≤ u ∧ u < v + n then none else m.pages u }

def uvmdealloc (m : AddrSpace) (oldsz newsz : Nat) : AddrSpace × Nat :=
  if newsz ≥ oldsz then (m, oldsz)
  else if pgroundup newsz < pgroundup oldsz then
    (uvmunmap m (pgroundup newsz / pgSize) ((pgroundup oldsz - pgroundup newsz) / pgSize), newsz)
  else (m, newsz)

/-- The loop of `uvmalloc` with `n` pages to go, from page `v` on. `mappages` panics on a
page that is mapped. -/
def uvmallocLoop (ok : Nat → Bool) (oldsz : Nat) : Nat → Nat → AddrSpace → Option (AddrSpace × Bool)
  | 0, _, m => some (m, true)
  | n + 1, v, m =>
    if !ok v then some ((uvmdealloc m (v * pgSize) oldsz).1, false)
    else if (m.pages v).isSome then none
    else uvmallocLoop ok oldsz n (v + 1) (m.put v zeroPage)

/-- `uvmalloc` with `PTE_W`: the new size, or 0. -/
def uvmalloc (ok : Nat → Bool) (m : AddrSpace) (oldsz newsz : Nat) : Option (AddrSpace × Nat) :=
  if newsz < oldsz then some (m, oldsz)
  else
    let a := pgroundup oldsz
    (uvmallocLoop ok a ((newsz - a + pgSize - 1) / pgSize) (a / pgSize) m).map fun r =>
      (r.1, if r.2 then newsz else 0)

def growproc (ok : Nat → Bool) (m : AddrSpace) (n : Int32) : Option (AddrSpace × Int32) :=
  if 0 < n.toInt then
    if moved m.sz n > trapframeVa then some (m, -1)
    else (uvmalloc ok m m.sz (moved m.sz n)).map fun r =>
      if r.2 = 0 then (r.1, -1) else ({ r.1 with sz := r.2 }, 0)
  else if n.toInt < 0 then
    let r := uvmdealloc m m.sz (moved m.sz n)
    some ({ r.1 with sz := r.2 }, 0)
  else some (m, 0)

def sbrkEager : Int32 := 1
def sbrkLazy : Int32 := 2

/-- `sys_sbrk(n, t)`: the address space, and the old size or `-1`. -/
def sysSbrk (ok : Nat → Bool) (m : AddrSpace) (n t : Int32) : Option (AddrSpace × UInt64) :=
  if t = sbrkEager ∨ n.toInt < 0 then
    (growproc ok m n).map fun r => (r.1, if r.2 < 0 then -1 else UInt64.ofNat m.sz)
  else if moved m.sz n < m.sz then some (m, -1)
  else if moved m.sz n > trapframeVa then some (m, -1)
  else some ({ m with sz := moved m.sz n }, UInt64.ofNat m.sz)

theorem moved_of_nonneg {sz n} (small : sz ≤ trapframeVa) (pos : 0 ≤ n.toInt) :
    moved sz n = sz + n.toInt.toNat := by
  have below : trapframeVa = 274877898752 := by decide
  have lt := n.toInt_lt
  unfold moved
  omega

/-- A lazy growth that fits moves the break and maps nothing. -/
theorem sysSbrk_lazy {ok m n} (pos : 0 ≤ n.toInt) (fits : m.sz + n.toInt.toNat ≤ trapframeVa) :
    sysSbrk ok m n sbrkLazy = some ({ m with sz := m.sz + n.toInt.toNat }, UInt64.ofNat m.sz) := by
  have sum := moved_of_nonneg (le_trans (Nat.le_add_right ..) fits) pos
  have lazy : ¬ (sbrkLazy = sbrkEager ∨ n.toInt < 0) := by
    rintro (eq | neg)
    · cases eq
    · omega
  rw [sysSbrk, if_neg lazy, sum, if_neg (by omega), if_neg (by omega)]

/-! ## Eager growth -/

section eager
variable {ok : Nat → Bool} {m : AddrSpace} {first v n : Nat}

/-- Zeroed pages from page `a` to before page `b`. -/
def mapZero (m : AddrSpace) (a b : Nat) : AddrSpace :=
  { m with pages := fun u => if a ≤ u ∧ u < b then some zeroPage else m.pages u }

theorem mapZero_nil (m : AddrSpace) (a : Nat) : mapZero m a a = m := by
  have pages : (mapZero m a a).pages = m.pages := funext fun u => if_neg (by omega)
  exact congrArg (fun f => { m with pages := f }) pages

theorem mapZero_put (le : first ≤ v) :
    (mapZero m first v).put v zeroPage = mapZero m first (v + 1) := by
  refine congrArg (fun f => { m with pages := f }) (funext fun u => ?_)
  by_cases here : u = v
  · rw [if_pos here, if_pos (by omega)]
  · rw [if_neg here]
    exact if_congr (by omega) rfl rfl

theorem pgroundup_mul (v : Nat) : pgroundup (v * pgSize) = v * pgSize := by
  unfold pgroundup pgSize
  omega

/-- What a failing `uvmalloc` has mapped is unmapped again. -/
theorem uvmdealloc_mapZero (free : ∀ u, first ≤ u → m.pages u = none) (le : first ≤ v) :
    (uvmdealloc (mapZero m first v) (v * pgSize) (first * pgSize)).1 = m := by
  unfold uvmdealloc
  rw [pgroundup_mul, pgroundup_mul]
  split
  · rename_i nothing
    have eq : first = v := by
      unfold pgSize at nothing
      omega
    rw [eq]
    exact mapZero_nil m v
  · rename_i more
    have lt : first < v := by
      unfold pgSize at more
      omega
    have count : (v * pgSize - first * pgSize) / pgSize = v - first := by
      unfold pgSize
      omega
    have start : first * pgSize / pgSize = first := Nat.mul_div_cancel _ (by decide)
    rw [if_pos (by unfold pgSize; omega), count, start]
    refine congrArg (fun f => { m with pages := f }) (funext fun u => ?_)
    split
    · rename_i inside
      rw [free u inside.1]
    · exact if_neg (by omega)

theorem uvmallocLoop_spec (ok : Nat → Bool) (n : Nat) (free : ∀ u, first ≤ u → m.pages u = none)
    (le : first ≤ v) : uvmallocLoop ok (first * pgSize) n v (mapZero m first v) =
      if ∀ u, v ≤ u → u < v + n → ok u = true then some (mapZero m first (v + n), true)
      else some (m, false) := by
  induction n generalizing v with
  | zero =>
    rw [if_pos (fun u low high => by omega)]
    rfl
  | succ n ih =>
    unfold uvmallocLoop
    cases here : ok v with
    | false =>
      have no : ¬ ∀ u, v ≤ u → u < v + (n + 1) → ok u = true := by
        intro all
        have yes := all v (le_refl v) (by omega)
        rw [here] at yes
        cases yes
      rw [if_neg no, uvmdealloc_mapZero free le]
      rfl
    | true =>
      have empty : (mapZero m first v).pages v = none := by
        show (if first ≤ v ∧ v < v then _ else _) = _
        rw [if_neg (by omega)]
        exact free v le
      rw [empty, mapZero_put le, ih (by omega), show v + 1 + n = v + (n + 1) by omega]
      have same : (∀ u, v + 1 ≤ u → u < v + (n + 1) → ok u = true) ↔ ∀ u, v ≤ u → u < v + (n + 1) →
          ok u = true := by
        constructor
        · intro all u low high
          by_cases eq : u = v
          · rw [eq]
            exact here
          · exact all u (by omega) high
        · intro all u low high
          exact all u (by omega) high
      rw [if_congr same rfl rfl]
      rfl

/-- An eager growth fails and changes nothing, or maps zeroed pages up to the new break. -/
theorem sysSbrk_grow (ok : Nat → Bool) {k} (pos : 0 < k.toInt) (small : m.sz ≤ trapframeVa)
    (free : ∀ u, pgroundup m.sz / pgSize ≤ u → m.pages u = none) :
    sysSbrk ok m k sbrkEager = some (m, -1) ∨
      (sysSbrk ok m k sbrkEager = some ({ mapZero m (pgroundup m.sz / pgSize)
          (pgroundup (m.sz + k.toInt.toNat) / pgSize) with sz := m.sz + k.toInt.toNat },
            UInt64.ofNat m.sz) ∧
        ∀ u, pgroundup m.sz / pgSize ≤ u → u < pgroundup (m.sz + k.toInt.toNat) / pgSize →
          ok u = true) := by
  have sum := moved_of_nonneg small (Int.le_of_lt pos)
  unfold sysSbrk growproc
  rw [if_pos (.inl rfl), if_pos pos, sum]
  split
  · exact .inl rfl
  · have more : ¬ m.sz + k.toInt.toNat < m.sz := by omega
    have start : pgroundup m.sz = pgroundup m.sz / pgSize * pgSize := by
      unfold pgroundup
      rw [Nat.mul_div_cancel _ (by decide)]
    have last : pgroundup m.sz / pgSize +
      (m.sz + k.toInt.toNat - pgroundup m.sz + pgSize - 1) / pgSize =
        pgroundup (m.sz + k.toInt.toNat) / pgSize := by
      unfold pgroundup pgSize
      omega
    have loop := uvmallocLoop_spec ok
      ((m.sz + k.toInt.toNat - pgroundup m.sz + pgSize - 1) / pgSize) free (le_refl _)
    rw [mapZero_nil, ← start, last] at loop
    unfold uvmalloc
    dsimp only
    rw [if_neg more, loop]
    split
    · rename_i all
      refine .inr ⟨?_, all⟩
      have grown : ¬ m.sz + k.toInt.toNat = 0 := by omega
      simp only [Option.map_some, if_true, if_neg grown]
      rfl
    · exact .inl rfl

end eager

/-! ## Every call -/

/-- The layout of a process: nothing is mapped from `PGROUNDUP(sz)` on, and `sz` is at most
`TRAPFRAME`. -/
structure Laid (m : AddrSpace) : Prop where
  small : m.sz ≤ trapframeVa
  free : ∀ u, pgroundup m.sz / pgSize ≤ u → m.pages u = none

/-- What a call that returns the old size has done: the size moves to `sz`, the pages that stay in
range are unchanged, and a page that came is zeroed and writable. -/
structure Moved (m m' : AddrSpace) (sz : Nat) : Prop where
  size : m'.sz = sz
  kept : ∀ u, u < pgroundup (min m.sz sz) / pgSize → m'.pages u = m.pages u
  zeroed : ∀ u pg, m.pages u = none → m'.pages u = some pg → pg = zeroPage
  laid : Laid m'

theorem pgroundup_mono {a b} (le : a ≤ b) : pgroundup a / pgSize ≤ pgroundup b / pgSize := by
  unfold pgroundup pgSize
  omega

section calls
variable {ok : Nat → Bool} {m : AddrSpace} {n : Int32}

/-- Moving the break alone. -/
theorem Laid.resize (laid : Laid m) {sz} (more : m.sz ≤ sz) (fits : sz ≤ trapframeVa) :
    Moved m { m with sz := sz } sz where
  size := rfl
  kept _ _ := rfl
  zeroed u pg none some := by rw [none] at some; cases some
  laid := ⟨fits, fun u le => laid.free u (le_trans (pgroundup_mono more) le)⟩

theorem Laid.mapZero (laid : Laid m) {sz} (more : m.sz ≤ sz) (fits : sz ≤ trapframeVa) :
    Moved m { mapZero m (pgroundup m.sz / pgSize) (pgroundup sz / pgSize) with sz := sz } sz where
  size := rfl
  kept u lt := if_neg (by
    rw [min_eq_left more] at lt
    omega)
  zeroed u pg none some := by
    dsimp only [Sbrk.mapZero] at some
    split at some
    · exact (Option.some.inj some).symm
    · rw [none] at some
      cases some
  laid := ⟨fits, fun u le => (if_neg (by dsimp only at le; omega)).trans
    (laid.free u (le_trans (pgroundup_mono more) le))⟩

theorem Laid.uvmdealloc (laid : Laid m) {sz} (less : sz < m.sz) :
    Moved m { (uvmdealloc m m.sz sz).1 with sz := (uvmdealloc m m.sz sz).2 } sz := by
  have small := laid.small
  unfold Sbrk.uvmdealloc
  rw [if_neg (by omega)]
  split
  · have count : pgroundup sz / pgSize + (pgroundup m.sz - pgroundup sz) / pgSize =
        pgroundup m.sz / pgSize := by
      unfold pgroundup pgSize
      omega
    refine ⟨rfl, fun u lt => if_neg ?_, fun u pg none some => ?_, by dsimp only [uvmunmap]; omega,
      fun u le => ?_⟩
    · rw [min_eq_right (le_of_lt less)] at lt
      omega
    · dsimp only [uvmunmap] at some
      split at some
      · cases some
      · rw [none] at some
        cases some
    · dsimp only [uvmunmap] at le ⊢
      split
      · rfl
      · exact laid.free u (by omega)
  · rename_i same
    refine ⟨rfl, fun _ _ => rfl, (fun u pg none some => by rw [none] at some; cases some),
      by dsimp only; omega, fun u le =>
      laid.free u (le_trans (Nat.div_le_div_right (Nat.le_of_not_lt same)) le)⟩

theorem sysSbrk_shrink (ok : Nat → Bool) (laid : Laid m) (neg : n.toInt < 0) (t : Int32) :
    ∃ m', sysSbrk ok m n t = some (m', UInt64.ofNat m.sz) ∧
      Moved m m' (if 0 ≤ (m.sz : Int) + n.toInt then ((m.sz : Int) + n.toInt).toNat else m.sz) := by
  have small := laid.small
  have below : trapframeVa = 274877898752 := by decide
  have low := n.le_toInt
  rw [sysSbrk, if_pos (.inr neg), growproc, if_neg (by omega), if_pos neg]
  refine ⟨_, rfl, ?_⟩
  split
  · have sum : moved m.sz n = ((m.sz : Int) + n.toInt).toNat := by
      unfold moved
      omega
    rw [sum]
    exact laid.uvmdealloc (by omega)
  · -- the sum wraps around, so that nothing is to be freed
    have wraps : moved m.sz n ≥ m.sz := by
      unfold moved
      omega
    rw [Sbrk.uvmdealloc, if_pos wraps]
    exact laid.resize (le_refl _) small

/-- `sys_sbrk` returns `-1` and changes nothing, or returns the old size and moves the break by `n`,
to no less than 0, with the pages in range kept and what it maps zeroed. -/
theorem sbrk_moves_or_fails (ok : Nat → Bool) (m : AddrSpace) (laid : Laid m) (n t : Int32) :
    ∃ m' r, sysSbrk ok m n t = some (m', r) ∧ (r = -1 → m' = m) ∧
      (r ≠ -1 → r = UInt64.ofNat m.sz ∧
        Moved m m' (if 0 ≤ (m.sz : Int) + n.toInt then ((m.sz : Int) + n.toInt).toNat
          else m.sz)) := by
  have small := laid.small
  have below : trapframeVa = 274877898752 := by decide
  have failed : ∀ {P : Prop}, ((-1 : UInt64) = -1 → m = m) ∧ ((-1 : UInt64) ≠ -1 → P) :=
    ⟨fun _ => rfl, fun ne => absurd rfl ne⟩
  have valid : UInt64.ofNat m.sz ≠ -1 := by
    intro eq
    have := congrArg UInt64.toNat eq
    rw [UInt64.toNat_ofNat', Nat.mod_eq_of_lt (by omega)] at this
    have top : (-1 : UInt64).toNat = 18446744073709551615 := rfl
    omega
  have done : ∀ {m' : AddrSpace} {sz : Nat}, Moved m m' sz → (UInt64.ofNat m.sz = -1 → m' = m) ∧
      (UInt64.ofNat m.sz ≠ -1 → UInt64.ofNat m.sz = UInt64.ofNat m.sz ∧ Moved m m' sz) :=
    fun moved => ⟨fun eq => absurd eq valid, fun _ => ⟨rfl, moved⟩⟩
  by_cases neg : n.toInt < 0
  · obtain ⟨m', run, moved⟩ := sysSbrk_shrink ok laid neg t
    exact ⟨m', _, run, done moved⟩
  have sum : (if 0 ≤ (m.sz : Int) + n.toInt then ((m.sz : Int) + n.toInt).toNat else m.sz) =
      m.sz + n.toInt.toNat := by
    rw [if_pos (by omega)]
    omega
  rw [sum]
  have sum' := moved_of_nonneg small (Int.not_lt.1 neg)
  by_cases fits : m.sz + n.toInt.toNat ≤ trapframeVa
  · by_cases eager : t = sbrkEager
    · subst eager
      by_cases pos : 0 < n.toInt
      · rcases sysSbrk_grow ok pos small laid.free with fails | ⟨grows, -⟩
        · exact ⟨m, _, fails, failed⟩
        · exact ⟨_, _, grows, done (laid.mapZero (Nat.le_add_right ..) fits)⟩
      · obtain zero : n.toInt = 0 := by omega
        rw [sysSbrk, if_pos (.inl rfl), growproc, if_neg pos, if_neg neg, zero]
        exact ⟨m, _, rfl, done (laid.resize (le_refl _) small)⟩
    · rw [sysSbrk, if_neg (not_or.2 ⟨eager, neg⟩), sum', if_neg (by omega), if_neg (by omega)]
      exact ⟨_, _, rfl, done (laid.resize (Nat.le_add_right ..) fits)⟩
  · refine ⟨m, -1, ?_, failed⟩
    have pos : 0 < n.toInt := by omega
    rw [sysSbrk]
    split
    · rw [growproc, if_pos pos, sum', if_pos (by omega)]
      rfl
    · rw [sum', if_neg (by omega), if_pos (by omega)]

/-- Two pages of sevens. -/
def twoPages : AddrSpace := ⟨fun u => if u < 2 then some ⟨true, true, fun _ => 7⟩ else none, 8192⟩

/-- An eager growth by 5000 bytes maps pages 2 and 3, and a shrink by one page unmaps page 1. -/
theorem sbrk_moves_pages : Laid twoPages ∧
    (∃ m', sysSbrk (fun _ => true) twoPages 5000 sbrkEager = some (m', 8192) ∧
      Moved twoPages m' 13192 ∧ m'.read 8191 = some 7 ∧ m'.read 13191 = some 0) ∧
    ∃ m', sysSbrk (fun _ => true) twoPages (-4096) sbrkEager = some (m', 8192) ∧
      Moved twoPages m' 4096 ∧ m'.read 4095 = some 7 ∧ m'.read 4096 = none := by
  have laid : Laid twoPages := ⟨by decide, fun u le => if_neg (not_lt.2 le)⟩
  refine ⟨laid, ?_, ?_⟩
  · have run : (sysSbrk (fun _ => true) twoPages 5000 sbrkEager).map
      (fun r => (r.2, r.1.read 8191, r.1.read 13191)) =
        some (8192, some 7, some 0) := by
      decide +kernel
    obtain ⟨m', r, eq, -, moved⟩ := sbrk_moves_or_fails (fun _ => true) twoPages laid 5000 sbrkEager
    rw [eq] at run
    obtain ⟨rfl, shown⟩ := Prod.mk.inj (Option.some.inj run)
    exact ⟨m', eq, (moved (by decide)).2, Prod.mk.inj shown⟩
  · have run : (sysSbrk (fun _ => true) twoPages (-4096) sbrkEager).map
      (fun r => (r.2, r.1.read 4095, r.1.read 4096)) =
        some (8192, some 7, none) := by
      decide +kernel
    obtain ⟨m', r, eq, -, moved⟩ :=
      sbrk_moves_or_fails (fun _ => true) twoPages laid (-4096) sbrkEager
    rw [eq] at run
    obtain ⟨rfl, shown⟩ := Prod.mk.inj (Option.some.inj run)
    exact ⟨m', eq, (moved (by decide)).2, Prod.mk.inj shown⟩

end calls

end OsProject.Xv6.Sbrk
