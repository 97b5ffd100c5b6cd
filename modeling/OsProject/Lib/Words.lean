import Mathlib.Algebra.Ring.Nat
import Mathlib.Tactic.Common

/-! # Little-endian words in a block of bytes -/
namespace OsProject.Lib.Words

variable {n : Nat}

/-- Byte `k` of a word. -/
def byteOf (w : UInt32) (k : Nat) : UInt8 := UInt8.ofNat (w.toNat / 256 ^ k)

/-- Word `j` of the bytes. -/
def word (b : Fin (4 * n) → UInt8) (j : Fin n) : UInt32 :=
  UInt32.ofNat ((b ⟨4 * j, by omega⟩).toNat + 256 * (b ⟨4 * j + 1, by omega⟩).toNat +
    65536 * (b ⟨4 * j + 2, by omega⟩).toNat + 16777216 * (b ⟨4 * j + 3, by omega⟩).toNat)

def setWord (b : Fin (4 * n) → UInt8) (j : Fin n) (w : UInt32) : Fin (4 * n) → UInt8 := fun k =>
  if k.val / 4 = j.val then byteOf w (k.val % 4) else b k

theorem word_setWord_self (b : Fin (4 * n) → UInt8) (j : Fin n) (w : UInt32) :
    word (setWord b j w) j = w := by
  have lt : w.toNat < 2 ^ 32 := w.toNat_lt
  refine UInt32.toNat_inj.1 ?_
  simp only [word, setWord, byteOf]
  rw [if_pos (by omega), if_pos (by omega), if_pos (by omega), if_pos (by omega)]
  simp only [UInt32.toNat_ofNat', UInt8.toNat_ofNat']
  rw [show (4 * j.val) % 4 = 0 by omega, show (4 * j.val + 1) % 4 = 1 by omega,
    show (4 * j.val + 2) % 4 = 2 by omega, show (4 * j.val + 3) % 4 = 3 by omega]
  omega

theorem word_setWord_ne {i j} (b : Fin (4 * n) → UInt8) (w : UInt32) (h : i ≠ j) :
    word (setWord b j w) i = word b i := by
  simp only [word, setWord]
  rw [if_neg (by omega), if_neg (by omega), if_neg (by omega), if_neg (by omega)]

theorem word_zero (j : Fin n) : word (fun _ => 0) j = 0 := rfl

end OsProject.Lib.Words
