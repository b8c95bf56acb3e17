import Ahos.Mem.Pmm.Capacity

/-!
# Sorting the map in its place

`sort_phys_mmap` works on the entries as they lie in memory. It is modelled here with checked reads
and writes, and does to the list of the entries what bubble sort does.
-/

namespace Ahos

/-- A round of the inner loop of `sort_phys_mmap`: two neighbours are compared, and swapped if they
are in the wrong order. Returned is also `last_swap`. -/
def sortRound (s : PmmMemory × ℕ) (i : ℕ) : Outcome (PmmMemory × ℕ) := do
  let (pmm, lastSwap) := s
  let entry ← pmm.read i
  let next ← pmm.read (i + 1)
  if entry.addr > next.addr then
    let tmp := next
    let pmm ← pmm.write (i + 1) entry
    let pmm ← pmm.write i tmp
    return (pmm, i + 1)
  else
    return (pmm, lastSwap)

/-- The inner loop. -/
def sortRounds (pmm : PmmMemory) (nbUnsorted : ℕ) : Outcome (PmmMemory × ℕ) :=
  (List.range (nbUnsorted - 1)).foldlM sortRound (pmm, 0)

/-- The outer loop. The first argument bounds the number of rounds. -/
def sortLoop : ℕ → PmmMemory → ℕ → Outcome PmmMemory
  | rounds, pmm, nbUnsorted =>
    if nbUnsorted = 0 then .ok pmm
    else
      match rounds with
      | 0 => .error .loops
      | rounds + 1 => do
        let (pmm, lastSwap) ← sortRounds pmm nbUnsorted
        sortLoop rounds pmm lastSwap

/-- `sort_phys_mmap`. -/
def sortInMemory (rounds : ℕ) (pmm : PmmMemory) : Outcome PmmMemory :=
  sortLoop rounds pmm pmm.len

namespace PmmMemory

/-- The entries of the map. -/
def contents (m : PmmMemory) : PhysMmap := (List.range m.len).map m.entries

theorem holds_contents (m : PmmMemory) : m.Holds m.contents := by
  refine ⟨by simp [contents], fun i e he => ?_⟩
  rw [contents, List.getElem?_map] at he
  obtain ⟨j, hj, rfl⟩ := Option.map_eq_some_iff.mp he
  rw [List.getElem?_range (by simpa using (List.getElem?_eq_some_iff.mp hj).1)] at hj
  rw [Option.some.inj hj]

/-- The memory determines the list. -/
theorem Holds.contents_eq {m : PmmMemory} {pmm : PhysMmap} (h : m.Holds pmm) :
    m.contents = pmm := by
  apply List.ext_getElem
  · simp [contents, h.len_eq]
  · intro i _ hi
    simpa [contents] using h.entries i _ (List.getElem?_eq_getElem hi)

/-- The memory holds a list, and is as before behind it. -/
structure Rearranged (m m' : PmmMemory) (pmm : PhysMmap) : Prop where
  holds : m'.Holds pmm
  size : m'.size = m.size
  beyond : ∀ i, pmm.length ≤ i → m'.entries i = m.entries i

/-- An entry is written in its place. -/
theorem Rearranged.write {m m' : PmmMemory} {l r : PhysMmap} {e : PhysMmapEntry}
    (h : m.Rearranged m' (l ++ e :: r)) (hsize : room (l ++ e :: r) ≤ m.size) (f : PhysMmapEntry) :
    ∃ m'', m'.write l.length f = .ok m'' ∧ m.Rearranged m'' (l ++ f :: r) := by
  have hin : 4 + 12 * (l.length + 1) ≤ m'.size := by
    rw [room, List.length_append, List.length_cons] at hsize
    have := h.size
    omega
  refine ⟨_, write_eq hin, h.holds.set f, h.size, fun i hi => ?_⟩
  rw [List.length_append, List.length_cons] at hi
  have hne : i ≠ l.length := by omega
  simp only [Function.update_of_ne hne]
  apply h.beyond
  rw [List.length_append, List.length_cons]
  exact hi

end PmmMemory

open PmmMemory

section InPlace

variable {m m' : PmmMemory} {l r : PhysMmap}

/-- **A round compares two neighbours and swaps them where bubble sort does.** -/
theorem sortRound_spec {a b : PhysMmapEntry} (last : ℕ) (h : m.Rearranged m' (l ++ a :: b :: r))
    (hsize : room (l ++ a :: b :: r) ≤ m.size) :
    if a.addr > b.addr then
      ∃ m'', sortRound (m', last) l.length = .ok (m'', l.length + 1) ∧
        m.Rearranged m'' (l ++ b :: a :: r)
    else sortRound (m', last) l.length = .ok (m', last) := by
  have hroom := hsize
  simp only [room, List.length_append, List.length_cons] at hroom
  have hfirst : m'.entries l.length = a := h.holds.entry
  have hsecond : m'.entries (l.length + 1) = b := h.holds.entries _ _ (by simp)
  have hread : m'.read l.length = .ok a := by
    rw [read_eq (by rw [h.size]; omega), hfirst]
  have hreadNext : m'.read (l.length + 1) = .ok b := by
    rw [read_eq (by rw [h.size]; omega), hsecond]
  split_ifs with hlt
  · -- the second entry is written first
    have h' : m.Rearranged m' ((l ++ [a]) ++ b :: r) := by simpa using h
    obtain ⟨m₁, hm₁, h₁⟩ := h'.write (by simpa [room] using hsize) a
    have h₁' : m.Rearranged m₁ (l ++ a :: a :: r) := by simpa using h₁
    obtain ⟨m₂, hm₂, h₂⟩ := h₁'.write (by simpa [room] using hsize) b
    rw [List.length_append, List.length_singleton] at hm₁
    refine ⟨m₂, ?_, h₂⟩
    simp only [sortRound, hread, hreadNext, Run.ok_bind, if_pos hlt, hm₁, hm₂]
    rfl
  · simp only [sortRound, hread, hreadNext, Run.ok_bind, if_neg hlt]
    rfl

/-- **The inner loop is a pass of bubble sort**, from any of its rounds on. -/
theorem sortRounds_spec {k : ℕ} (last : ℕ) (h : m.Rearranged m' (l ++ r)) (hk : k < r.length)
    (hsize : room (l ++ r) ≤ m.size) :
    ∃ m'', (List.range' l.length k).foldlM sortRound (m', last) =
        .ok (m'', (BubbleSort.pass PhysMmapEntry.addr k l.length last r).2) ∧
      m.Rearranged m'' (l ++ (BubbleSort.pass PhysMmapEntry.addr k l.length last r).1) := by
  induction k generalizing m' l r last with
  | zero => exact ⟨m', by simp [BubbleSort.pass], by simpa [BubbleSort.pass] using h⟩
  | succ k ih =>
    obtain _ | ⟨a, _ | ⟨b, rest⟩⟩ := r
    · simp at hk
    · simp at hk
    · have hround := sortRound_spec last h hsize
      rw [BubbleSort.pass, List.range'_succ, List.foldlM_cons]
      split_ifs at hround ⊢ with hlt
      · obtain ⟨m₁, hm₁, h₁⟩ := hround
        have h₁' : m.Rearranged m₁ ((l ++ [b]) ++ (a :: rest)) := by simpa using h₁
        obtain ⟨m₂, hm₂, h₂⟩ := ih (l.length + 1) h₁' (by simpa using hk)
          (by simpa [room] using hsize)
        rw [List.length_append, List.length_singleton] at hm₂ h₂
        exact ⟨m₂, by rw [hm₁, Run.ok_bind, hm₂], by simpa using h₂⟩
      · have h' : m.Rearranged m' ((l ++ [a]) ++ (b :: rest)) := by simpa using h
        obtain ⟨m₂, hm₂, h₂⟩ := ih last h' (by simpa using hk)
          (by simpa [room] using hsize)
        rw [List.length_append, List.length_singleton] at hm₂ h₂
        exact ⟨m₂, by rw [hround, Run.ok_bind, hm₂], by simpa using h₂⟩

/-- **The outer loop is bubble sort**: a round leaves fewer entries to be sorted. -/
theorem sortLoop_spec {rounds n : ℕ} {pmm : PhysMmap} (h : m.Rearranged m' pmm)
    (hn : n ≤ pmm.length) (hrounds : n ≤ rounds) (hsize : room pmm ≤ m.size) :
    ∃ m'', sortLoop rounds m' n = .ok m'' ∧
      m.Rearranged m'' (BubbleSort.sort PhysMmapEntry.addr n pmm) := by
  induction rounds generalizing m' n pmm with
  | zero =>
    obtain rfl : n = 0 := by omega
    exact ⟨m', by simp [sortLoop], by rw [BubbleSort.sort, dif_pos rfl]; exact h⟩
  | succ rounds ih =>
    by_cases hzero : n = 0
    · subst hzero
      exact ⟨m', by simp [sortLoop], by rw [BubbleSort.sort, dif_pos rfl]; exact h⟩
    · obtain ⟨m₁, hm₁, h₁⟩ := sortRounds_spec (l := []) (k := n - 1) 0 h
        (by omega) hsize
      rw [List.length_nil, ← List.range_eq_range'] at hm₁
      rw [List.length_nil, List.nil_append] at h₁
      have hle := BubbleSort.pass_snd_le PhysMmapEntry.addr (n - 1) 0 0 pmm
      have hlen := (BubbleSort.pass_perm PhysMmapEntry.addr (n - 1) 0 0 pmm).length_eq
      obtain ⟨m₂, hm₂, h₂⟩ := ih (n := (BubbleSort.pass PhysMmapEntry.addr (n - 1) 0 0 pmm).2)
        h₁ (by omega) (by omega) (by rw [room, hlen]; exact hsize)
      refine ⟨m₂, ?_, ?_⟩
      · rw [sortLoop, if_neg hzero]
        simp only [sortRounds, hm₁, Run.ok_bind, hm₂]
      · rw [BubbleSort.sort, dif_neg hzero]
        exact h₂

/-- **Sorting in place is sorting the list.** -/
theorem sortInMemory_spec (rounds : ℕ) {pmm : PhysMmap} (h : m.Holds pmm)
    (hrounds : pmm.length ≤ rounds) (hsize : room pmm ≤ m.size) :
    ∃ m', sortInMemory rounds m = .ok m' ∧ m.Rearranged m' (sortPhysMmap pmm) := by
  rw [sortInMemory, h.len_eq]
  exact sortLoop_spec ⟨h, rfl, fun _ _ => rfl⟩ le_rfl hrounds hsize

end InPlace

/-- **`sort_phys_mmap` sorts.** A map of any length with any entries lies in a memory that ends
behind its last entry, so that an access to another entry is outside. With at least as many rounds
as there are entries, the loop ends. It leaves the same entries in the order of their addresses,
those with equal addresses in the order they had, and nothing else in the memory has changed. -/
theorem sort_phys_mmap_sorts (len : ℕ) (entries : ℕ → PhysMmapEntry) (more : ℕ) :
    ∃ m, sortInMemory (len + more) ⟨4 + 12 * len, len, entries⟩ = .ok m ∧
      m.len = len ∧ m.size = 4 + 12 * len ∧
      m.contents.Perm ((List.range len).map entries) ∧
      m.contents.Pairwise (fun a b => a.addr ≤ b.addr) ∧
      (∀ addr, m.contents.filter (fun e => e.addr = addr) =
        ((List.range len).map entries).filter fun e => e.addr = addr) ∧
      ∀ i, len ≤ i → m.entries i = entries i := by
  have hholds := holds_contents ⟨4 + 12 * len, len, entries⟩
  have hlen : ((List.range len).map entries).length = len := by simp
  obtain ⟨m, hm, h⟩ := sortInMemory_spec (len + more) hholds (by simp [contents])
    (by simp [room, contents])
  rw [contents] at h
  have hcontents := h.holds.contents_eq
  have hperm : m.contents.Perm ((List.range len).map entries) := by
    rw [hcontents]
    exact BubbleSort.sort_perm _ _ _
  refine ⟨m, hm, ?_, h.size, hperm, ?_, fun addr => ?_, fun i hi => h.beyond i ?_⟩
  · rw [h.holds.len_eq, ← hcontents, hperm.length_eq, hlen]
  · rw [hcontents]
    exact BubbleSort.sort_length_sorted _ _
  · rw [hcontents]
    exact BubbleSort.sort_filter _ _ _ _
  · rw [← hcontents, hperm.length_eq, hlen]
    exact hi

end Ahos
