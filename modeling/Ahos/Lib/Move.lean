import Mathlib.Data.List.Basic
import Mathlib.Logic.Function.Basic

/-!
# Moving a range of memory onto an overlapping one

Memory is a function from addresses. A copy loop reads and writes one cell in each round, so
it may read a cell that it has already written. Upwards this does not happen when the target
starts at or below the source, and downwards when it starts at or above it: then the loop
moves the range as if all cells were read first.
-/

namespace Move

variable {α : Type*}

/-- One round of a copy loop. -/
def copyCell (dst src : ℕ) (m : ℕ → α) (i : ℕ) : ℕ → α :=
  Function.update m (dst + i) (m (src + i))

/-- The `n` cells from `src`, all read at once, in the place of those from `dst`. -/
def moved (m : ℕ → α) (dst src n : ℕ) : ℕ → α :=
  fun x => if dst ≤ x ∧ x < dst + n then m (src + (x - dst)) else m x

theorem moved_zero (m : ℕ → α) (dst src : ℕ) : moved m dst src 0 = m := by
  funext x
  rw [moved, if_neg (by omega)]

theorem moved_add {m : ℕ → α} {dst src n i : ℕ} (h : i < n) :
    moved m dst src n (dst + i) = m (src + i) := by
  rw [moved, if_pos (by omega), Nat.add_sub_cancel_left]

theorem moved_of_outside {m : ℕ → α} {dst src n x : ℕ} (h : x < dst ∨ dst + n ≤ x) :
    moved m dst src n x = m x := if_neg (by omega)

/-! ## The loops -/

/-- Copying upwards. -/
theorem copyUp_eq {m : ℕ → α} {dst src : ℕ} (h : dst ≤ src) (n : ℕ) :
    (List.range n).foldl (copyCell dst src) m = moved m dst src n := by
  induction n with
  | zero => exact (moved_zero m dst src).symm
  | succ n ih =>
    rw [List.range_succ, List.foldl_append, ih, List.foldl_cons, List.foldl_nil]
    -- the cell that is read lies above those that were written
    have hread : moved m dst src n (src + n) = m (src + n) := moved_of_outside (.inr (by omega))
    rw [copyCell, hread]
    funext x
    by_cases hx : x = dst + n
    · subst hx
      rw [Function.update_self, moved_add (Nat.lt_succ_self n)]
    · rw [Function.update_of_ne hx]
      by_cases hin : dst ≤ x ∧ x < dst + n
      · rw [moved, moved, if_pos hin, if_pos (by omega)]
      · rw [moved_of_outside (by omega), moved_of_outside (by omega)]

/-- Copying downwards. -/
theorem copyDown_eq {m : ℕ → α} {dst src : ℕ} (h : src ≤ dst) (n : ℕ) :
    (List.range n).reverse.foldl (copyCell dst src) m = moved m dst src n := by
  induction n generalizing m with
  | zero => exact (moved_zero m dst src).symm
  | succ n ih =>
    rw [List.range_succ, List.reverse_append, List.reverse_singleton, List.singleton_append,
      List.foldl_cons, ih]
    funext x
    by_cases hin : dst ≤ x ∧ x < dst + n
    · -- the cell that is read lies below the one that was written
      rw [moved, if_pos hin, moved, if_pos (by omega), copyCell, Function.update_of_ne (by omega)]
    · rw [moved_of_outside (by omega), copyCell]
      by_cases hx : x = dst + n
      · subst hx
        rw [Function.update_self, moved_add (Nat.lt_succ_self n)]
      · rw [Function.update_of_ne hx, moved_of_outside (by omega)]

/-! ## Parts of a memory -/

/-- Moving inside a part of the memory. -/
theorem moved_offset (m : ℕ → α) (p dst src n x : ℕ) :
    moved m (p + dst) (p + src) n (p + x) = moved (fun y => m (p + y)) dst src n x := by
  by_cases hin : dst ≤ x ∧ x < dst + n
  · obtain ⟨i, rfl⟩ := Nat.exists_eq_add_of_le hin.1
    rw [← Nat.add_assoc, moved_add (by omega), moved_add (by omega), Nat.add_assoc]
  · rw [moved_of_outside (by omega), moved_of_outside (by omega)]

/-- Moving `n` blocks of `w` cells is moving `w * n` cells. -/
theorem moved_block (m : ℕ → α) (w dst src n j : ℕ) {k : ℕ} (hk : k < w) :
    moved m (w * dst) (w * src) (w * n) (w * j + k) =
      moved (fun j k => m (w * j + k)) dst src n j k := by
  by_cases hlo : dst ≤ j
  · obtain ⟨i, rfl⟩ := Nat.exists_eq_add_of_le hlo
    rw [Nat.mul_add, Nat.add_assoc]
    by_cases hhi : i < n
    · have hin : w * i + k < w * n :=
        calc w * i + k < w * (i + 1) := by rw [Nat.mul_succ]; omega
          _ ≤ w * n := Nat.mul_le_mul_left w hhi
      rw [moved_add hin, moved_add hhi, Nat.mul_add, Nat.add_assoc]
    · have hout : w * n ≤ w * i := Nat.mul_le_mul_left w (Nat.not_lt.mp hhi)
      rw [moved_of_outside (by omega), moved_of_outside (by omega), Nat.mul_add, Nat.add_assoc]
  · have hout : w * (j + 1) ≤ w * dst := Nat.mul_le_mul_left w (Nat.not_le.mp hlo)
    rw [Nat.mul_succ] at hout
    rw [moved_of_outside (by omega), moved_of_outside (by omega)]

/-- Cells that are related stay related when both ranges are moved. -/
theorem moved_rel {β : Type*} {R : α → β → Prop} {m : ℕ → α} {m' : ℕ → β} {dst src n : ℕ}
    {p : ℕ → Prop} (h : ∀ x, p x → R (m x) (m' x)) (hsrc : ∀ i < n, p (src + i)) :
    ∀ x, p x → R (moved m dst src n x) (moved m' dst src n x) := by
  intro x hx
  by_cases hin : dst ≤ x ∧ x < dst + n
  · obtain ⟨i, rfl⟩ := Nat.exists_eq_add_of_le hin.1
    rw [moved_add (by omega), moved_add (by omega)]
    exact h _ (hsrc i (by omega))
  · rw [moved_of_outside (by omega), moved_of_outside (by omega)]
    exact h x hx

end Move
