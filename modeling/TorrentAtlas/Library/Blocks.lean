import Mathlib.Data.List.Basic
import Mathlib.Tactic.Common

/-!
# Cutting a length into blocks

`n` elements are cut into blocks of `p`, of which only the last may be shorter. The
blocks follow each other without a gap, every position lies in one of them, and the
slices of a list taken block by block are the list.
-/
namespace Blocks

variable {p n i j b : Nat}

/-- How many blocks there are. -/
def count (p n : Nat) : Nat := (n + (p - 1)) / p

/-- How many elements the block that starts at `i * p` has. -/
def size (p n i : Nat) : Nat := min p (n - i * p)

/-- A block exists exactly if its first element does. -/
theorem lt_count (hp : 0 < p) : i < count p n ↔ i * p < n := by
  rw [count, Nat.lt_iff_add_one_le, Nat.le_div_iff_mul_le hp, Nat.add_mul]
  omega

theorem size_le (p n i : Nat) : size p n i ≤ p := Nat.min_le_left _ _

theorem size_pos (hp : 0 < p) (h : i * p < n) : 0 < size p n i := by
  unfold size
  omega

/-- A block with another one after it is full. -/
theorem size_full (h : (i + 1) * p < n) : size p n i = p := by
  rw [Nat.add_mul] at h
  unfold size
  omega

theorem end_le (h : i * p < n) : i * p + size p n i ≤ n := by
  unfold size
  omega

/-- A block ends before any later one starts. -/
theorem end_le_start (n : Nat) (h : i < j) : i * p + size p n i ≤ j * p := by
  have hnext : (i + 1) * p ≤ j * p := Nat.mul_le_mul_right p h
  have hsize := size_le p n i
  rw [Nat.add_mul] at hnext
  omega

/-- The blocks cover the positions below `n` and no others. -/
theorem lt_iff_mem_block (hp : 0 < p) : b < n ↔ ∃ i, i * p < n ∧ i * p ≤ b ∧ b < i * p + size p n i := by
  constructor
  · intro hb
    have hle : b / p * p ≤ b := Nat.div_mul_le_self b p
    have hlt : b < b / p * p + p := Nat.lt_div_mul_add hp
    refine ⟨b / p, by omega, hle, ?_⟩
    unfold size
    omega
  · rintro ⟨i, hi, -, hlt⟩
    have hend := end_le hi
    omega

variable {α : Type}

theorem flatMap_take (p : Nat) (xs : List α) (k : Nat) :
    (List.range k).flatMap (fun i => (xs.drop (i * p)).take p) = xs.take (k * p) := by
  induction k with
  | zero => simp
  | succ k ih =>
    rw [List.range_succ, List.flatMap_append, ih, Nat.add_mul, Nat.one_mul, List.take_add]
    simp

/-- The blocks of a list, one after the other, are the list. -/
theorem flatMap_blocks (hp : 0 < p) (xs : List α) :
    (List.range (count p xs.length)).flatMap (fun i => (xs.drop (i * p)).take (size p xs.length i)) = xs := by
  have hcut : ∀ i, (xs.drop (i * p)).take (size p xs.length i) = (xs.drop (i * p)).take p := by
    intro i
    rw [List.take_eq_take_iff, List.length_drop, size]
    omega
  have hend : ¬ count p xs.length * p < xs.length := fun h => absurd ((lt_count hp).mpr h) (Nat.lt_irrefl _)
  simp only [hcut]
  rw [flatMap_take, List.take_of_length_le (by omega)]

end Blocks
