import Mathlib.Data.List.Basic
import Mathlib.Order.Defs.PartialOrder

/-!
# Sorted tables

A table of entries with keys in ascending order, of which several may be equal. An entry reaches
from its key up to the key of the next entry, so the entry for a value is the last one whose key is
not above it. A scan from the front finds it, and may stop at the first key that is above.
-/

namespace SortedTable

section Order

variable {α β : Type*} [Preorder β] {key : α → β} {table : List α} {i : ℕ}

/-- The keys are in ascending order. -/
def Sorted (key : α → β) (table : List α) : Prop := table.Pairwise (key · ≤ key ·)

theorem Sorted.le (h : Sorted key table) {j : ℕ} (hji : j ≤ i) {x y : α} (hx : table[j]? = some x)
    (hy : table[i]? = some y) : key x ≤ key y := by
  obtain rfl | hlt := Nat.eq_or_lt_of_le hji
  · obtain rfl := Option.some.inj (hx.symm.trans hy)
    exact le_refl _
  · obtain ⟨hj, rfl⟩ := List.getElem?_eq_some_iff.mp hx
    obtain ⟨hi, rfl⟩ := List.getElem?_eq_some_iff.mp hy
    exact List.pairwise_iff_getElem.mp h j i hj hi hlt

/-- An entry at or below `b` is not behind the last one that is. -/
theorem Sorted.index_le (h : Sorted key table) {b : β} {next y : α}
    (hnext : table[i + 1]? = some next) (hlt : ¬ key next ≤ b) {j : ℕ} (hy : table[j]? = some y)
    (hle : key y ≤ b) : j ≤ i := by
  by_contra hji
  exact hlt (le_trans (h.le (by omega) hnext hy) hle)

end Order

section Floor

variable {α β : Type*} [Preorder β] [DecidableLE β]

/-- What a scan has seen last when it stops at the first key that is above `b`. -/
def floor (key : α → β) (b : β) (table : List α) : Option α :=
  (table.takeWhile (key · ≤ b)).getLast?

variable {key : α → β} {b : β} {table : List α} {i : ℕ}

/-- A scan sees the entries below `i` when it stops at `i`. -/
theorem takeWhile_eq_take (hbelow : ∀ j < i, ∀ x, table[j]? = some x → key x ≤ b)
    (habove : ∀ x, table[i]? = some x → ¬ key x ≤ b) :
    table.takeWhile (key · ≤ b) = table.take i := by
  induction table generalizing i with
  | nil => simp
  | cons a table ih =>
    cases i with
    | zero => rw [List.takeWhile_cons_of_neg (by simpa using habove a rfl), List.take_zero]
    | succ i =>
      rw [List.takeWhile_cons_of_pos (by simpa using hbelow 0 (Nat.succ_pos i) a rfl),
        List.take_succ_cons]
      congr 1
      apply ih
      · exact fun j hj x hx => hbelow (j + 1) (Nat.succ_lt_succ hj) x hx
      · exact habove

theorem floor_below {first : α} (hfirst : table.head? = some first) (h : ¬ key first ≤ b) :
    floor key b table = none := by
  obtain ⟨table, rfl⟩ := List.head?_eq_some_iff.mp hfirst
  rw [floor, List.takeWhile_cons_of_neg (by simpa using h), List.getLast?_nil]

/-- **Between two neighbours the scan finds the first of them.** -/
theorem floor_between (hsorted : Sorted key table) {x next : α} (hx : table[i]? = some x)
    (hnext : table[i + 1]? = some next) (hle : key x ≤ b) (hlt : ¬ key next ≤ b) :
    floor key b table = some x := by
  rw [floor, takeWhile_eq_take (i := i + 1), List.getLast?_take, if_neg (Nat.succ_ne_zero i),
    Nat.add_sub_cancel, hx]
  · rfl
  · exact fun j hj y hy => le_trans (hsorted.le (Nat.le_of_lt_succ hj) hy hx) hle
  · intro y hy
    obtain rfl := Option.some.inj (hnext.symm.trans hy)
    exact hlt

/-- From the key of the last entry on the scan finds the last entry. -/
theorem floor_above (hsorted : Sorted key table) {last : α} (hlast : table.getLast? = some last)
    (hle : key last ≤ b) : floor key b table = some last := by
  rw [floor, takeWhile_eq_take (i := table.length), List.take_length, hlast]
  · intro j hj y hy
    rw [List.getLast?_eq_getElem?] at hlast
    exact le_trans (hsorted.le (Nat.le_sub_one_of_lt hj) hy hlast) hle
  · intro y hy
    simp at hy

end Floor

end SortedTable
