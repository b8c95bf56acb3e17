import Mathlib.Algebra.BigOperators.Group.List.Basic
import Mathlib.Algebra.GroupWithZero.Nat
import Mathlib.Order.CompletePartialOrder
import Mathlib.Order.Interval.Finset.Nat
import Mathlib.Order.Interval.Set.Disjoint

/-!
# Words in a memory of bytes

A memory is a function from addresses to bytes. A word of 32 bits takes four bytes, the lowest
first. A write changes the bytes of its own range only, so that a word outside the range reads the
same before and after. Ranges that do not overlap have no more bytes together than the memory that
contains them.
-/

namespace Bytes

variable {m m' : ℕ → ℕ} {p q n v x : ℕ}

/-- The word at an address. -/
def word (m : ℕ → ℕ) (p : ℕ) : ℕ :=
  m p + 256 * (m (p + 1) + 256 * (m (p + 2) + 256 * m (p + 3)))

/-- Writing a word. -/
def setWord (m : ℕ → ℕ) (p v : ℕ) : ℕ → ℕ :=
  fun x => if p ≤ x ∧ x < p + 4 then v / 256 ^ (x - p) % 256 else m x

/-- Filling a range with one byte. -/
def fill (m : ℕ → ℕ) (p n b : ℕ) : ℕ → ℕ := fun x => if p ≤ x ∧ x < p + n then b else m x

/-- A word depends on its four bytes only. -/
theorem word_congr (h : ∀ x, p ≤ x → x < p + 4 → m' x = m x) : word m' p = word m p := by
  rw [word, word, h p (by omega) (by omega), h (p + 1) (by omega) (by omega),
    h (p + 2) (by omega) (by omega), h (p + 3) (by omega) (by omega)]

theorem setWord_of_outside (h : x < p ∨ p + 4 ≤ x) : setWord m p v x = m x := if_neg (by omega)

theorem fill_of_outside {b : ℕ} (h : x < p ∨ p + n ≤ x) : fill m p n b x = m x := if_neg (by omega)

theorem fill_of_inside {b : ℕ} (hlo : p ≤ x) (hhi : x < p + n) : fill m p n b x = b :=
  if_pos ⟨hlo, hhi⟩

/-- A word is read back. -/
theorem word_setWord (h : v < 4294967296) : word (setWord m p v) p = v := by
  have hbyte : ∀ k < 4, setWord m p v (p + k) = v / 256 ^ k % 256 := by
    intro k hk
    rw [setWord, if_pos (by omega), Nat.add_sub_cancel_left]
  have hzero := hbyte 0 (by omega)
  rw [Nat.add_zero] at hzero
  rw [word, hzero, hbyte 1 (by omega), hbyte 2 (by omega), hbyte 3 (by omega)]
  simp only [Nat.reducePow, Nat.div_one]
  omega

/-- Filling byte after byte. -/
theorem fill_succ {b : ℕ} : fill m p (n + 1) b = Function.update (fill m p n b) (p + n) b := by
  funext x
  rw [Function.update_apply]
  split_ifs with hx
  · exact fill_of_inside (by omega) (by omega)
  · unfold fill
    by_cases hin : p ≤ x ∧ x < p + n
    · rw [if_pos hin, if_pos (by omega)]
    · rw [if_neg hin, if_neg (by omega)]

theorem word_fill_zero (hlo : q ≤ p) (hhi : p + 4 ≤ q + n) : word (fill m q n 0) p = 0 := by
  rw [word, fill_of_inside (by omega) (by omega), fill_of_inside (by omega) (by omega),
    fill_of_inside (by omega) (by omega), fill_of_inside (by omega) (by omega)]

/-! ## Ranges that do not overlap -/

/-- The addresses that some range contains. -/
def covered (l : List (ℕ × ℕ)) : Finset ℕ :=
  l.foldr (fun r s => Finset.Ico r.1 (r.1 + r.2) ∪ s) ∅

theorem mem_covered {l : List (ℕ × ℕ)} :
    x ∈ covered l ↔ ∃ r ∈ l, r.1 ≤ x ∧ x < r.1 + r.2 := by
  induction l with
  | nil => simp [covered]
  | cons r l ih =>
    rw [covered] at ih
    rw [covered, List.foldr_cons, Finset.mem_union, ih, Finset.mem_Ico]
    simp

/-- The number of addresses is the sum of the lengths. -/
theorem card_covered {l : List (ℕ × ℕ)}
    (hd : l.Pairwise fun r s => Disjoint (Set.Ico r.1 (r.1 + r.2)) (Set.Ico s.1 (s.1 + s.2))) :
    (covered l).card = (l.map Prod.snd).sum := by
  induction l with
  | nil => rfl
  | cons r l ih =>
    obtain ⟨hr, hrest⟩ := List.pairwise_cons.mp hd
    have hdis : Disjoint (Finset.Ico r.1 (r.1 + r.2)) (covered l) := by
      rw [Finset.disjoint_left]
      intro x hx hin
      obtain ⟨s, hs, hlo, hhi⟩ := mem_covered.mp hin
      exact Set.disjoint_left.mp (hr s hs) (Finset.mem_Ico.mp hx) ⟨hlo, hhi⟩
    have hcons : covered (r :: l) = Finset.Ico r.1 (r.1 + r.2) ∪ covered l := rfl
    rw [hcons, Finset.card_union_of_disjoint hdis, ih hrest, Nat.card_Ico, List.map_cons,
      List.sum_cons]
    omega

/-- **Ranges that do not overlap** fit into the memory together. -/
theorem sum_le_of_disjoint {l : List (ℕ × ℕ)}
    (hd : l.Pairwise fun r s => Disjoint (Set.Ico r.1 (r.1 + r.2)) (Set.Ico s.1 (s.1 + s.2)))
    (h : ∀ r ∈ l, r.1 + r.2 ≤ n) : (l.map Prod.snd).sum ≤ n := by
  rw [← card_covered hd]
  refine (Finset.card_le_card fun x hx => ?_).trans_eq (Finset.card_range n)
  obtain ⟨r, hr, -, hhi⟩ := mem_covered.mp hx
  have := h r hr
  exact Finset.mem_range.mpr (by omega)

end Bytes
