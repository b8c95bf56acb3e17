import Mathlib.Data.List.Nodup
import Mathlib.Data.List.Basic

/-!
# Circular doubly linked lists

Every node has a next and a previous node. A ring is a head together with the nodes that
one meets on the way from the head back to it. Inserting a node between two neighbours
and unlinking a node are described by what they change, so that they can be carried out
on any kind of memory, in any order of writes. Reading every link the other way round
turns a ring into the ring of the reversed list.
-/

universe u

/-- The neighbours of every node. -/
structure Links (α : Type u) where
  next : α → α
  prev : α → α

namespace Links

variable {α : Type u} {L L' : Links α} {a b x head : α} {xs ys : List α}

/-- The node `b` follows the node `a`. -/
def Linked (L : Links α) (a b : α) : Prop := L.next a = b ∧ L.prev b = a

/-- The nodes `xs` lead from `a` to `b`. -/
def Path (L : Links α) : α → List α → α → Prop
  | a, [], b => L.Linked a b
  | a, x :: xs, b => L.Linked a x ∧ L.Path x xs b

/-- The ring of the nodes `xs` behind the head. -/
structure Ring (L : Links α) (head : α) (xs : List α) : Prop where
  nodup : (head :: xs).Nodup
  path : L.Path head xs head

/-- The links read the other way round. -/
def flip (L : Links α) : Links α := ⟨L.prev, L.next⟩

@[simp] theorem path_nil : L.Path a [] b ↔ L.Linked a b := Iff.rfl

@[simp] theorem path_cons : L.Path a (x :: xs) b ↔ L.Linked a x ∧ L.Path x xs b := Iff.rfl

theorem path_append : L.Path a (xs ++ x :: ys) b ↔ L.Path a xs x ∧ L.Path x ys b := by
  induction xs generalizing a with
  | nil => simp
  | cons y xs ih => simp [ih, and_assoc]

/-- The node behind the start of a path. -/
theorem Path.next_mem (h : L.Path a xs b) : L.next a ∈ xs ++ [b] := by
  cases xs with
  | nil => simp [h.1]
  | cons x xs => simp [h.1.1]

/-- The node in front of the end of a path. -/
theorem Path.prev_mem (h : L.Path a xs b) : L.prev b ∈ a :: xs := by
  induction xs generalizing a with
  | nil => simp [h.2]
  | cons x xs ih => exact List.mem_cons_of_mem _ (ih h.2)

/-- A path depends on the links of its nodes only. -/
theorem Path.congr (h : L.Path a xs b) (hnext : ∀ y ∈ a :: xs, L'.next y = L.next y)
    (hprev : ∀ y ∈ xs ++ [b], L'.prev y = L.prev y) : L'.Path a xs b := by
  induction xs generalizing a with
  | nil =>
    refine ⟨(hnext a (List.mem_cons_self ..)).trans h.1, ?_⟩
    exact (hprev b (by simp)).trans h.2
  | cons x xs ih =>
    refine ⟨⟨(hnext a (List.mem_cons_self ..)).trans h.1.1, ?_⟩, ?_⟩
    · exact (hprev x (by simp)).trans h.1.2
    · exact ih h.2 (fun y hy => hnext y (List.mem_cons_of_mem _ hy))
        fun y hy => hprev y (List.mem_cons_of_mem _ hy)

/-- A ring depends on the links of its nodes only. -/
theorem Ring.congr (h : L.Ring head xs) (hnext : ∀ y ∈ head :: xs, L'.next y = L.next y)
    (hprev : ∀ y ∈ head :: xs, L'.prev y = L.prev y) : L'.Ring head xs := by
  refine ⟨h.nodup, h.path.congr hnext fun y hy => hprev y ?_⟩
  rw [List.mem_append, List.mem_singleton] at hy
  exact List.mem_cons.mpr hy.symm

/-- The head of the empty ring is its own neighbour. -/
theorem ring_nil : L.Ring head [] ↔ L.next head = head ∧ L.prev head = head :=
  ⟨fun h => h.path, fun h => ⟨List.nodup_singleton _, h⟩⟩

/-- **A ring is empty** exactly when its head is followed by itself. -/
theorem Ring.next_head_iff (h : L.Ring head xs) : L.next head = head ↔ xs = [] := by
  cases xs with
  | nil => exact iff_of_true h.path.1 rfl
  | cons x xs =>
    rw [h.path.1.1]
    have hne : x ≠ head := fun heq => (List.nodup_cons.mp h.nodup).1 (by simp [heq])
    exact iff_of_false hne (by simp)

/-! ## The other direction -/

theorem path_flip : L.flip.Path b xs.reverse a ↔ L.Path a xs b := by
  induction xs generalizing a with
  | nil => exact and_comm
  | cons x xs ih =>
    rw [List.reverse_cons, path_append, path_nil, path_cons, ih, and_comm]
    exact and_congr and_comm Iff.rfl

/-- **Reversal**: read the other way round, a ring is the ring of the reversed list. -/
theorem ring_flip : L.flip.Ring head xs.reverse ↔ L.Ring head xs := by
  constructor
  · rintro ⟨hnodup, hpath⟩
    exact ⟨by simpa using hnodup, path_flip.mp hpath⟩
  · rintro ⟨hnodup, hpath⟩
    exact ⟨by simpa using hnodup, path_flip.mpr hpath⟩

/-! ## Insertion -/

/-- On the nodes `nodes`, the links `L'` are the links `L` with `x` put between `p` and `n`. -/
structure Inserted (L L' : Links α) (nodes : List α) (p x n : α) : Prop where
  next_left : L'.next p = x
  prev_self : L'.prev x = p
  next_self : L'.next x = n
  prev_right : L'.prev n = x
  next_other : ∀ y ∈ nodes, y ≠ p → L'.next y = L.next y
  prev_other : ∀ y ∈ nodes, y ≠ n → L'.prev y = L.prev y

theorem Inserted.flip {nodes : List α} {p n : α} (h : Inserted L L' nodes p x n) :
    Inserted L.flip L'.flip nodes n x p :=
  ⟨h.prev_right, h.next_self, h.prev_self, h.next_left, h.prev_other, h.next_other⟩

/-- **Insertion behind the head.** -/
theorem Ring.insert_front (h : L.Ring head xs) (hx : x ∉ head :: xs)
    (hins : Inserted L L' (head :: xs) head x (L.next head)) : L'.Ring head (x :: xs) := by
  refine ⟨?_, ⟨hins.next_left, hins.prev_self⟩, ?_⟩
  · rw [List.mem_cons, not_or] at hx
    obtain ⟨hhead, hnodup⟩ := List.nodup_cons.mp h.nodup
    simp only [List.nodup_cons, List.mem_cons, not_or]
    exact ⟨⟨fun heq => hx.1 heq.symm, hhead⟩, hx.2, hnodup⟩
  · have hpath := h.path
    cases xs with
    | nil =>
      have hn : L.next head = head := hpath.1
      exact ⟨hins.next_self.trans hn, hn ▸ hins.prev_right⟩
    | cons y ys =>
      have hn : L.next head = y := hpath.1.1
      have hdistinct := h.nodup
      simp only [List.nodup_cons, List.mem_cons, not_or] at hdistinct
      refine ⟨⟨hins.next_self.trans hn, hn ▸ hins.prev_right⟩, hpath.2.congr ?_ ?_⟩
      · intro z hz
        refine hins.next_other z (List.mem_cons_of_mem _ hz) ?_
        rintro rfl
        rcases List.mem_cons.mp hz with rfl | hz
        · exact hdistinct.1.1 rfl
        · exact hdistinct.1.2 hz
      · intro z hz
        rw [hn] at hins
        rw [List.mem_append, List.mem_singleton] at hz
        rcases hz with hz | rfl
        · refine hins.prev_other z (by simp [hz]) ?_
          rintro rfl
          exact hdistinct.2.1 hz
        · exact hins.prev_other z (by simp) fun heq => hdistinct.1.1 heq

/-- **Insertion in front of the head**, at the end of the list. -/
theorem Ring.insert_back (h : L.Ring head xs) (hx : x ∉ head :: xs)
    (hins : Inserted L L' (head :: xs) (L.prev head) x head) : L'.Ring head (xs ++ [x]) := by
  rw [← ring_flip, List.reverse_append, List.reverse_singleton, List.singleton_append]
  have hmem : ∀ y, y ∈ head :: xs.reverse ↔ y ∈ head :: xs := by simp
  refine (ring_flip.mpr h).insert_front (by rwa [hmem]) ?_
  exact ⟨hins.prev_right, hins.next_self, hins.prev_self, hins.next_left,
    fun y hy => hins.prev_other y ((hmem y).mp hy), fun y hy => hins.next_other y ((hmem y).mp hy)⟩

/-! ## Removal -/

/-- On the nodes `nodes`, the links `L'` are the links `L` with `n` behind `p`. -/
structure Joined (L L' : Links α) (nodes : List α) (p n : α) : Prop where
  next_left : L'.next p = n
  prev_right : L'.prev n = p
  next_other : ∀ y ∈ nodes, y ≠ p → L'.next y = L.next y
  prev_other : ∀ y ∈ nodes, y ≠ n → L'.prev y = L.prev y

/-- Joining the neighbours of a node takes it out of a path. -/
theorem Path.join (hxs : L.Path a xs x) (hys : L.Path x ys b) (hnodup : (a :: (xs ++ ys)).Nodup)
    (hb : b ∉ xs ++ ys) {nodes : List α} (hsub : ∀ y ∈ a :: (xs ++ ys) ++ [b], y ∈ nodes)
    (hjoin : Joined L L' nodes (L.prev x) (L.next x)) : L'.Path a (xs ++ ys) b := by
  induction xs generalizing a with
  | nil =>
    have hp : L.prev x = a := hxs.2
    rw [hp] at hjoin
    cases ys with
    | nil =>
      have hn : L.next x = b := hys.1
      rw [hn] at hjoin
      exact ⟨hjoin.next_left, hjoin.prev_right⟩
    | cons y ys =>
      have hn : L.next x = y := hys.1.1
      rw [hn] at hjoin
      simp only [List.nil_append, List.nodup_cons, List.mem_cons, not_or] at hnodup hb
      refine ⟨⟨hjoin.next_left, hjoin.prev_right⟩, hys.2.congr ?_ ?_⟩
      · intro z hz
        refine hjoin.next_other z (hsub z (by simp at hz ⊢; tauto)) ?_
        rintro rfl
        rcases List.mem_cons.mp hz with rfl | hz
        · exact hnodup.1.1 rfl
        · exact hnodup.1.2 hz
      · intro z hz
        refine hjoin.prev_other z (hsub z (by simp at hz ⊢; tauto)) ?_
        rintro rfl
        rcases List.mem_append.mp hz with hz | hz
        · exact hnodup.2.1 hz
        · exact hb.1 (List.mem_singleton.mp hz).symm
  | cons y xs ih =>
    simp only [List.cons_append, List.mem_cons, not_or] at hb
    rw [List.cons_append] at hnodup
    obtain ⟨hya, hnodup⟩ := List.nodup_cons.mp hnodup
    have hrest := ih hxs.2 hnodup hb.2 fun z hz => hsub z (by
      rw [List.cons_append]
      exact List.mem_cons_of_mem _ hz)
    refine ⟨⟨?_, ?_⟩, hrest⟩
    · -- the node in front of `x` comes later
      rw [hjoin.next_other a (hsub a (by simp)) ?_]
      · exact hxs.1.1
      · intro heq
        have hprev := hxs.2.prev_mem
        rw [← heq] at hprev
        refine hya ?_
        rcases List.mem_cons.mp hprev with rfl | hprev
        · simp
        · simp [hprev]
    · rw [hjoin.prev_other y (hsub y (by simp)) ?_]
      · exact hxs.1.2
      · intro heq
        have hnext := hys.next_mem
        rw [← heq, List.mem_append, List.mem_singleton] at hnext
        rcases hnext with hnext | hnext
        · exact (List.nodup_cons.mp hnodup).1 (List.mem_append_right _ hnext)
        · exact hb.1 hnext.symm

/-- **Removal**: joining the neighbours of a node takes it out of the ring. -/
theorem Ring.remove (h : L.Ring head (xs ++ x :: ys))
    (hjoin : Joined L L' (head :: (xs ++ ys)) (L.prev x) (L.next x)) :
    L'.Ring head (xs ++ ys) := by
  obtain ⟨hxs, hys⟩ := path_append.mp h.path
  have hsub : (head :: (xs ++ ys)).Sublist (head :: (xs ++ x :: ys)) :=
    ((List.Sublist.refl xs).append (List.sublist_cons_self x ys)).cons_cons head
  have hnodup := hsub.nodup h.nodup
  refine ⟨hnodup, hxs.join hys hnodup (List.nodup_cons.mp hnodup).1 (fun y hy => ?_) hjoin⟩
  rw [List.mem_append, List.mem_singleton] at hy
  rcases hy with hy | rfl
  · exact hy
  · exact List.mem_cons_self ..

/-- The neighbours of a node of the ring are other nodes of the ring. -/
theorem Ring.neighbours (h : L.Ring head (xs ++ x :: ys)) :
    L.prev x ∈ head :: (xs ++ ys) ∧ L.next x ∈ head :: (xs ++ ys) := by
  obtain ⟨hxs, hys⟩ := path_append.mp h.path
  have hprev := hxs.prev_mem
  have hnext := hys.next_mem
  simp only [List.mem_append, List.mem_cons, List.not_mem_nil, or_false] at hprev hnext ⊢
  tauto

end Links
