import Mathlib.Data.List.Basic
import Mathlib.Tactic.Linarith

/-!
# Rows of tiles

A tile occupies some cells. A row of tiles is read as the concatenation of its
tiles' cells. `placed` pairs each tile with the index of its first cell. The
lemmas split a row at a given cell, and say that the placed tiles of a row lie
one after the other.
-/

namespace Tiling

variable {τ κ : Type*} (cells : τ → List κ)

/-- The cells of a row of tiles. -/
def layout (ts : List τ) : List κ := ts.flatMap cells

/-- The tiles of a row, each with the index of its first cell counted from `off`. -/
def placed : ℕ → List τ → List (ℕ × τ)
  | _, [] => []
  | off, t :: ts => (off, t) :: placed (off + (cells t).length) ts

@[simp] theorem layout_nil : layout cells [] = [] := rfl

@[simp] theorem layout_cons (t : τ) (ts : List τ) :
    layout cells (t :: ts) = cells t ++ layout cells ts := rfl

@[simp] theorem layout_append (ts us : List τ) :
    layout cells (ts ++ us) = layout cells ts ++ layout cells us := by
  simp [layout]

@[simp] theorem placed_nil (off : ℕ) : placed cells off [] = [] := rfl

theorem placed_cons (off : ℕ) (t : τ) (ts : List τ) :
    placed cells off (t :: ts) = (off, t) :: placed cells (off + (cells t).length) ts := rfl

/-- The second half of a row is placed after all cells of the first half. -/
theorem placed_append (off : ℕ) (ts us : List τ) :
    placed cells off (ts ++ us) =
      placed cells off ts ++ placed cells (off + (layout cells ts).length) us := by
  induction ts generalizing off with
  | nil => simp
  | cons t ts ih => simp [placed_cons, ih, Nat.add_assoc]

/-- Every cell of a row belongs to a tile, at some index inside that tile. -/
theorem exists_split_of_getElem? {ts : List τ} {i : ℕ} {c : κ}
    (h : (layout cells ts)[i]? = some c) :
    ∃ l t r j, ts = l ++ t :: r ∧ i = (layout cells l).length + j ∧ (cells t)[j]? = some c := by
  induction ts generalizing i with
  | nil => simp at h
  | cons t ts ih =>
    rw [layout_cons] at h
    by_cases hi : i < (cells t).length
    · rw [List.getElem?_append_left hi] at h
      exact ⟨[], t, ts, i, rfl, by simp, h⟩
    · rw [List.getElem?_append_right (Nat.le_of_not_lt hi)] at h
      obtain ⟨l, u, r, j, hts, hij, hc⟩ := ih h
      refine ⟨t :: l, u, r, j, by simp [hts], ?_, hc⟩
      rw [layout_cons, List.length_append]
      omega

/-- A placed tile comes from a split of the row. -/
theorem exists_split_of_mem_placed {off i : ℕ} {t : τ} {ts : List τ}
    (h : (i, t) ∈ placed cells off ts) :
    ∃ l r, ts = l ++ t :: r ∧ i = off + (layout cells l).length := by
  induction ts generalizing off with
  | nil => simp at h
  | cons u us ih =>
    rw [placed_cons, List.mem_cons] at h
    rcases h with h | h
    · obtain ⟨rfl, rfl⟩ := Prod.mk.inj h
      exact ⟨[], us, rfl, by simp⟩
    · obtain ⟨l, r, hus, hi⟩ := ih h
      refine ⟨u :: l, r, by simp [hus], ?_⟩
      rw [layout_cons, List.length_append]
      omega

/-- A placed tile lies inside the row. -/
theorem bounds_of_mem_placed {off i : ℕ} {t : τ} {ts : List τ} (h : (i, t) ∈ placed cells off ts) :
    off ≤ i ∧ i + (cells t).length ≤ off + (layout cells ts).length := by
  obtain ⟨l, r, rfl, hi⟩ := exists_split_of_mem_placed cells h
  simp only [layout_append, layout_cons, List.length_append]
  omega

/-- The placed tiles of a row follow each other without overlap. -/
theorem pairwise_placed (off : ℕ) (ts : List τ) :
    (placed cells off ts).Pairwise fun a b => a.1 + (cells a.2).length ≤ b.1 := by
  induction ts generalizing off with
  | nil => simp
  | cons t ts ih =>
    rw [placed_cons, List.pairwise_cons]
    refine ⟨?_, ih _⟩
    rintro ⟨i, u⟩ hu
    exact (bounds_of_mem_placed cells hu).1

/-- A row of `n` copies of a one-cell tile reads as `n` copies of its cell. -/
theorem layout_replicate {t : τ} {c : κ} (h : cells t = [c]) (n : ℕ) :
    layout cells (List.replicate n t) = List.replicate n c := by
  induction n with
  | zero => rfl
  | succ n ih => rw [List.replicate_succ, layout_cons, ih, h, List.replicate_succ]; rfl

end Tiling
