import Mathlib.Data.Int.ModEq
import Mathlib.Data.List.Rotate

/-!
# Ring buffers

A queue in an array that is used cyclically. `contents cells head size` is the queue, oldest
element first: `size` cells from the index `head` on, continuing at the first cell behind
the last one. Writing behind the last element appends it, and moving `head` to the next
cell removes the first one.
-/

namespace Ring

variable {α : Type*}

/-- The queue of `size` elements whose oldest one is in the cell `head`. -/
def contents (cells : List α) (head size : ℕ) : List α := (cells.rotate head).take size

/-- The indices of a queue: `head` and `last` are cells, and `last` is the cell behind the newest
element. -/
structure Indices (capacity head last size : ℕ) : Prop where
  head_lt : head < capacity
  last_lt : last < capacity
  size_le : size ≤ capacity
  last_eq : last = (head + size) % capacity

/-- The index of the next cell. -/
def next (capacity i : ℕ) : ℕ := if i + 1 = capacity then 0 else i + 1

theorem next_eq {capacity i : ℕ} (h : i < capacity) : next capacity i = (i + 1) % capacity := by
  unfold next
  split_ifs with hi
  · rw [hi, Nat.mod_self]
  · rw [Nat.mod_eq_of_lt (by omega)]

theorem next_lt {capacity i : ℕ} (h : i < capacity) : next capacity i < capacity := by
  unfold next
  split_ifs <;> omega

variable {cells : List α} {head last size : ℕ}

theorem length_contents (head : ℕ) (h : size ≤ cells.length) :
    (contents cells head size).length = size := by
  rw [contents, List.length_take, List.length_rotate]
  omega

/-- Appending keeps the indices. -/
theorem Indices.push {capacity : ℕ} (h : Indices capacity head last size) (hsize : size < capacity) :
    Indices capacity head (next capacity last) (size + 1) := by
  refine ⟨h.head_lt, next_lt h.last_lt, hsize, ?_⟩
  rw [next_eq h.last_lt, h.last_eq, Nat.mod_add_mod, Nat.add_assoc]

/-- Removing keeps the indices. -/
theorem Indices.pop {capacity : ℕ} (h : Indices capacity head last size) (hsize : 0 < size) :
    Indices capacity (next capacity head) last (size - 1) := by
  refine ⟨next_lt h.head_lt, h.last_lt, by have := h.size_le; omega, ?_⟩
  rw [next_eq h.head_lt, Nat.mod_add_mod, h.last_eq]
  congr 1
  omega

/-- Writing behind the newest element appends to the queue. -/
theorem contents_push (h : Indices cells.length head last size) (hsize : size < cells.length)
    (a : α) : contents (cells.set last a) head (size + 1) = contents cells head size ++ [a] := by
  have hhead := h.head_lt
  have hlen : ((contents (cells.set last a) head (size + 1))).length = size + 1 :=
    length_contents head (by rw [List.length_set]; omega)
  have hlen' := length_contents head (show size ≤ cells.length by omega)
  apply List.ext_getElem
  · rw [hlen, List.length_append, hlen', List.length_singleton]
  · intro i hi hi'
    have hmod : ∀ j, (j + head) % cells.length = (head + j) % cells.length :=
      fun j => by rw [Nat.add_comm]
    simp only [contents, List.getElem_take, List.getElem_rotate, List.length_set, hmod,
      List.getElem_set]
    rw [hlen] at hi
    by_cases hnew : i < size
    · -- the other cells of the queue are not touched
      have hne : last ≠ (head + i) % cells.length := by
        rw [h.last_eq]
        intro heq
        have hmod : size ≡ i [MOD cells.length] := Nat.ModEq.add_left_cancel' head heq
        have := hmod.eq_of_lt_of_lt hsize (by omega)
        omega
      rw [if_neg hne,
        List.getElem_append_left (by rw [List.length_take, List.length_rotate]; omega)]
      simp only [List.getElem_take, List.getElem_rotate, hmod]
    · obtain rfl : i = size := by omega
      rw [if_pos h.last_eq,
        List.getElem_append_right (by rw [List.length_take, List.length_rotate]; omega)]
      simp

/-- The oldest element is in the cell `head`, and moving `head` removes it. -/
theorem contents_pop (h : Indices cells.length head last size) (hsize : 0 < size) :
    ∃ a, cells[head]? = some a ∧
      contents cells head size = a :: contents cells (next cells.length head) (size - 1) := by
  have hhead := h.head_lt
  have hle := h.size_le
  have hlen := length_contents head hle
  have hlen' := length_contents (next cells.length head)
    (show size - 1 ≤ cells.length by omega)
  refine ⟨cells[head], List.getElem?_eq_getElem hhead, ?_⟩
  apply List.ext_getElem
  · rw [hlen, List.length_cons, hlen']
    omega
  · intro i hi hi'
    cases i with
    | zero =>
      simp only [contents, List.getElem_take, List.getElem_rotate, List.getElem_cons_zero,
        Nat.zero_add, Nat.mod_eq_of_lt hhead]
    | succ i =>
      have hindex : (i + 1 + head) % cells.length =
          (i + next cells.length head) % cells.length := by
        rw [next_eq hhead, Nat.add_mod_mod]
        congr 1
        omega
      simp only [contents, List.getElem_take, List.getElem_rotate, List.getElem_cons_succ, hindex]

end Ring
