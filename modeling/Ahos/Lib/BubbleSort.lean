import Mathlib.Data.List.Perm.Basic
import Mathlib.Data.List.Sort

/-!
# Bubble sort that stops at the last swap

One pass compares neighbours from the left and swaps those in the wrong order. It
returns the position behind the last swap: everything from there on is settled,
so that the next pass only looks at the elements before it.
-/

namespace BubbleSort

variable {α : Type*} (key : α → ℕ)

/-- `pass k i last l` makes `k` comparisons, where `i` is the position of the head of
`l` in the whole list and `last` the position behind the last swap so far. -/
def pass : ℕ → ℕ → ℕ → List α → List α × ℕ
  | k + 1, i, last, a :: b :: rest =>
    if key a > key b then
      let r := pass k (i + 1) (i + 1) (a :: rest)
      (b :: r.1, r.2)
    else
      let r := pass k (i + 1) last (b :: rest)
      (a :: r.1, r.2)
  | _, _, last, l => (l, last)

/-- The position of the last swap is one that the pass compared. -/
theorem pass_snd_le (k i last : ℕ) (l : List α) :
    (pass key k i last l).2 ≤ max last (i + k) := by
  fun_induction pass key k i last l with
  | case1 k i last a b rest hgt r ih => exact ih.trans (by omega)
  | case2 k i last a b rest hle r ih => exact ih.trans (by omega)
  | case3 k i last l hshort => exact Nat.le_max_left last (i + k)

/-- Passes over the first `n` elements until a pass swaps nothing. -/
def sort (n : ℕ) (l : List α) : List α :=
  if _h : n = 0 then l
  else
    let r := pass key (n - 1) 0 0 l
    sort r.2 r.1
termination_by n
decreasing_by
  have := pass_snd_le key (n - 1) 0 0 l
  omega

/-! ## The elements stay the same -/

theorem pass_perm (k i last : ℕ) (l : List α) : (pass key k i last l).1.Perm l := by
  fun_induction pass key k i last l with
  | case1 k i last a b rest hgt r ih => exact (ih.cons b).trans (List.Perm.swap a b rest)
  | case2 k i last a b rest hle r ih => exact ih.cons a
  | case3 k i last l hshort => exact List.Perm.refl l

/-- What every pass preserves, sorting preserves. -/
theorem sort_invariant {P : List α → Prop} (hpass : ∀ k l, P l → P (pass key k 0 0 l).1) {n : ℕ}
    {l : List α} (h : P l) : P (sort key n l) := by
  fun_induction sort key n l with
  | case1 l => exact h
  | case2 n l hne r ih => exact ih (hpass (n - 1) l h)

theorem sort_perm (n : ℕ) (l : List α) : (sort key n l).Perm l :=
  sort_invariant key (fun k l' h => (pass_perm key k 0 0 l').trans h) (List.Perm.refl l)

/-! ## Equal keys keep their order -/

/-- A pass never exchanges two elements with the key `c`. -/
theorem pass_filter (c : ℕ) (k i last : ℕ) (l : List α) :
    (pass key k i last l).1.filter (fun x => key x = c) = l.filter fun x => key x = c := by
  fun_induction pass key k i last l with
  | case1 k i last a b rest hgt r ih =>
    by_cases hb : key b = c
    · have ha : key a ≠ c := by omega
      simpa [hb, ha] using ih
    · simpa [List.filter_cons, hb] using ih
  | case2 k i last a b rest hle r ih => rw [List.filter_cons, ih, List.filter_cons (x := a)]
  | case3 k i last l hshort => rfl

/-- **Bubble sort is stable**: the elements with the key `c` keep their order. -/
theorem sort_filter (c n : ℕ) (l : List α) :
    (sort key n l).filter (fun x => key x = c) = l.filter fun x => key x = c :=
  sort_invariant key (P := fun l' => l'.filter (fun x => key x = c) = l.filter fun x => key x = c)
    (fun k l' h => (pass_filter key c k 0 0 l').trans h) rfl

/-! ## What a swap keeps

A swap puts a smaller element before a larger one. A relation that holds of such elements and of all
elements of the list, each with those behind it, goes on to hold. -/

section Relation

variable {R : α → α → Prop} (hR : ∀ x y, key x < key y → R x y)

include hR in
theorem pass_pairwise {k i last : ℕ} {l : List α} (h : l.Pairwise R) :
    (pass key k i last l).1.Pairwise R := by
  fun_induction pass key k i last l with
  | case1 k i last a b rest hgt r ih =>
    simp only [List.pairwise_cons, List.mem_cons, forall_eq_or_imp] at h
    obtain ⟨⟨hab, ha⟩, hb, hrest⟩ := h
    refine List.pairwise_cons.mpr ⟨fun y hy => ?_, ih (List.pairwise_cons.mpr ⟨ha, hrest⟩)⟩
    obtain rfl | hy := List.mem_cons.mp ((pass_perm key k _ _ _).subset hy)
    · exact hR _ _ hgt
    · exact hb y hy
  | case2 k i last a b rest hle r ih =>
    simp only [List.pairwise_cons, List.mem_cons, forall_eq_or_imp] at h
    obtain ⟨⟨hab, ha⟩, hb, hrest⟩ := h
    refine List.pairwise_cons.mpr ⟨fun y hy => ?_, ih (List.pairwise_cons.mpr ⟨hb, hrest⟩)⟩
    obtain rfl | hy := List.mem_cons.mp ((pass_perm key k _ _ _).subset hy)
    · exact hab
    · exact ha y hy
  | case3 k i last l hshort => exact h

end Relation

/-! ## The result is in order -/

/-- From position `j` on the list is in order, and nothing before `j` belongs there. -/
def Settled (l : List α) (j : ℕ) : Prop :=
  (l.drop j).Pairwise (fun x y => key x ≤ key y) ∧
    ∀ x ∈ l.take j, ∀ y ∈ l.drop j, key x ≤ key y

/-- An element that is at most the settled part may stand before it. -/
private theorem settled_cons {a : α} {r : List α} {j : ℕ} (h : Settled key r j)
    (ha : ∀ y ∈ r.drop j, key a ≤ key y) : Settled key (a :: r) (j + 1) := by
  refine ⟨h.1, ?_⟩
  intro x hx y hy
  rcases List.mem_cons.mp hx with rfl | hx
  · exact ha y hy
  · exact h.2 x hx y hy

/-- An element that is at most everything extends a sorted list. -/
private theorem settled_cons_zero {a : α} {r : List α} (h : Settled key r 0)
    (ha : ∀ y ∈ r, key a ≤ key y) : Settled key (a :: r) 0 :=
  ⟨List.pairwise_cons.mpr ⟨ha, h.1⟩, by simp⟩

/-- What is settled behind two elements is settled behind either of them. -/
private theorem settled_tail {a b c : α} {rest : List α} {k : ℕ} (hc : c = a ∨ c = b)
    (h : Settled key (a :: b :: rest) (k + 2)) : Settled key (c :: rest) (k + 1) := by
  refine ⟨h.1, ?_⟩
  intro x hx y hy
  refine h.2 x ?_ y hy
  rcases List.mem_cons.mp hx with rfl | hx
  · rcases hc with rfl | rfl <;> simp
  · simp [hx]

theorem le_snd_pass (k i last : ℕ) (l : List α) (hi : last ≤ i) :
    last ≤ (pass key k i last l).2 := by
  fun_induction pass key k i last l with
  | case1 k i last a b rest hgt r ih => exact (Nat.le_succ_of_le hi).trans (ih le_rfl)
  | case2 k i last a b rest hle r ih => exact ih (Nat.le_succ_of_le hi)
  | case3 k i last l hshort => exact le_rfl

/-- A pass leaves the list settled from its last swap on. The head of the list it
starts on is at most everything in the settled part. -/
theorem pass_settled {k i last : ℕ} {a : α} {rest : List α} (hk : k ≤ rest.length)
    (hlast : last ≤ i) (hs : Settled key (a :: rest) (k + 1)) :
    Settled key (pass key k i last (a :: rest)).1 ((pass key k i last (a :: rest)).2 - i) ∧
      ∀ y ∈ (pass key k i last (a :: rest)).1.drop ((pass key k i last (a :: rest)).2 - i),
        key a ≤ key y := by
  induction k generalizing i last a rest with
  | zero =>
    have h0 : last - i = 0 := by omega
    have hcross : ∀ y ∈ rest, key a ≤ key y := by simpa using hs.2
    simp only [pass, h0, List.drop_zero]
    refine ⟨⟨List.pairwise_cons.mpr ⟨hcross, hs.1⟩, by simp⟩, ?_⟩
    rintro y (_ | ⟨_, hy⟩)
    · exact le_rfl
    · exact hcross y hy
  | succ k ih =>
    match rest with
    | [] => simp at hk
    | b :: rest =>
      simp only [List.length_cons] at hk
      rw [pass]
      split
      · next hab =>
        -- the larger element moves on, and the swap sets the mark behind it
        obtain ⟨hset, hle⟩ := ih (i := i + 1) (a := a)
          (by omega) le_rfl (settled_tail key (.inl rfl) hs)
        have hq := le_snd_pass key k (i + 1) (i + 1) (a :: rest) le_rfl
        obtain ⟨m, hm⟩ := Nat.exists_eq_add_of_le hq
        simp only [hm, show i + 1 + m - (i + 1) = m by omega,
          show i + 1 + m - i = m + 1 by omega] at hset hle ⊢
        exact ⟨settled_cons key hset fun y hy => le_trans (Nat.le_of_lt hab) (hle y hy), hle⟩
      · next hab =>
        obtain ⟨hset, hle⟩ := ih (i := i + 1) (a := b) (by omega) (show last ≤ i + 1 by omega)
          (settled_tail key (.inr rfl) hs)
        have hab : key a ≤ key b := Nat.le_of_not_lt hab
        by_cases hq : i + 1 ≤ (pass key k (i + 1) last (b :: rest)).2
        · obtain ⟨m, hm⟩ := Nat.exists_eq_add_of_le hq
          simp only [hm, show i + 1 + m - (i + 1) = m by omega,
            show i + 1 + m - i = m + 1 by omega] at hset hle ⊢
          exact ⟨settled_cons key hset fun y hy => hab.trans (hle y hy),
            fun y hy => hab.trans (hle y hy)⟩
        · -- no swap so far: the whole rest of the list is in order
          simp only [show (pass key k (i + 1) last (b :: rest)).2 - (i + 1) = 0 by omega,
            show (pass key k (i + 1) last (b :: rest)).2 - i = 0 by omega,
            List.drop_zero] at hset hle ⊢
          refine ⟨settled_cons_zero key hset fun y hy => hab.trans (hle y hy), ?_⟩
          rintro y (_ | ⟨_, hy⟩)
          · exact le_rfl
          · exact hab.trans (hle y hy)

/-- Sorting a list that is settled from `n` on puts all of it in order. -/
theorem sort_sorted {n : ℕ} {l : List α} (hn : n ≤ l.length) (hs : Settled key l n) :
    (sort key n l).Pairwise fun x y => key x ≤ key y := by
  induction n using Nat.strong_induction_on generalizing l with
  | _ n ih =>
    rw [sort]
    split
    · next h =>
      subst h
      exact hs.1
    · next h =>
      match l with
      | [] => simp at hn; omega
      | a :: rest =>
        have hle := pass_snd_le key (n - 1) 0 0 (a :: rest)
        have hlen := (pass_perm key (n - 1) 0 0 (a :: rest)).length_eq
        simp only [List.length_cons] at hn hlen
        refine ih _ (by omega) (by omega) ?_
        have hset := (pass_settled key (i := 0) (a := a) (show n - 1 ≤ rest.length by omega)
          le_rfl (by rwa [Nat.sub_add_cancel (by omega)])).1
        simpa using hset

/-- **Bubble sort is correct**: sorting all elements gives the same elements in order. -/
theorem sort_length_sorted (l : List α) :
    (sort key l.length l).Pairwise fun x y => key x ≤ key y :=
  sort_sorted key le_rfl ⟨by simp, by simp⟩

/-- A pass over a list that is in order swaps nothing. -/
theorem pass_of_sorted (k i last : ℕ) {l : List α} (h : l.Pairwise fun x y => key x ≤ key y) :
    pass key k i last l = (l, last) := by
  fun_induction pass key k i last l with
  | case1 k i last a b rest hgt r ih =>
    exact absurd hgt (not_lt.mpr ((List.pairwise_cons.mp h).1 b List.mem_cons_self))
  | case2 k i last a b rest hle r ih =>
    have hrest : r = (b :: rest, last) := ih (List.pairwise_cons.mp h).2
    rw [hrest]
  | case3 k i last l hshort => rfl

/-- A list that is in order stays as it is. -/
theorem sort_of_sorted (n : ℕ) {l : List α} (h : l.Pairwise fun x y => key x ≤ key y) :
    sort key n l = l := by
  rw [sort]
  split
  · rfl
  · rw [pass_of_sorted key _ _ _ h, sort, dif_pos rfl]

end BubbleSort
