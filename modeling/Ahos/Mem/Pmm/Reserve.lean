import Ahos.Mem.Pmm.Defs
import Mathlib.Order.CompletePartialOrder
import Mathlib.Order.Interval.Set.Disjoint
import Mathlib.Order.Interval.Set.LinearOrder

/-!
# Reservations in the physical memory map

The entries of the map are half-open ranges of bytes. A reservation removes a
range from the available memory: the entry around it is cut at its two ends, and
the middle part is not available any more. What remains available is exactly what
was available and does not meet the range.
-/

namespace Ahos

/-- The bytes of an entry. -/
def PhysMmapEntry.bytes (e : PhysMmapEntry) : Set ℕ := Set.Ico e.addr (e.addr + e.len)

/-- A map whose entries end at or below `0xffc00000` and do not overlap. -/
structure MapInv (pmm : PhysMmap) : Prop where
  bounded : ∀ e ∈ pmm, e.addr + e.len ≤ 0xffc00000
  disjoint : pmm.Pairwise fun e f => Disjoint e.bytes f.bytes

/-- The range `[lo, hi)` lies wholly inside one available entry. -/
def Available (pmm : PhysMmap) (lo hi : ℕ) : Prop :=
  ∃ e ∈ pmm, e.type = .available ∧ e.addr ≤ lo ∧ hi ≤ e.addr + e.len

theorem disjoint_bytes_iff {e f : PhysMmapEntry} :
    Disjoint e.bytes f.bytes ↔
      e.len = 0 ∨ f.len = 0 ∨ e.addr + e.len ≤ f.addr ∨ f.addr + f.len ≤ e.addr := by
  rw [PhysMmapEntry.bytes, PhysMmapEntry.bytes, Set.Ico_disjoint_Ico]
  omega

theorem disjoint_ranges_iff {lo hi a b : ℕ} (h : lo < hi) (hab : a < b) :
    Disjoint (Set.Ico lo hi) (Set.Ico a b) ↔ hi ≤ a ∨ b ≤ lo := by
  rw [Set.Ico_disjoint_Ico]
  omega

theorem endAddr_of_bounded {e : PhysMmapEntry} (h : e.addr + e.len ≤ 0xffc00000) :
    e.endAddr = e.addr + e.len := Word32.add_of_lt (by omega)

/-! ## Cutting an entry -/

section Split

variable {l r : PhysMmap} {e : PhysMmapEntry} {x : ℕ}

/-- The map after a cut of `e` at `x`. -/
def splitAt (l r : PhysMmap) (e : PhysMmapEntry) (x : ℕ) : PhysMmap :=
  l ++ ⟨e.addr, x - e.addr, e.type⟩ :: ⟨x, e.addr + e.len - x, e.type⟩ :: r

theorem splitRegion_of_bounded {pmm pmm' : PhysMmap} {entry : ℕ} (hinv : MapInv pmm)
    (h : splitRegion pmm entry x = some pmm') :
    ∃ l e r, pmm = l ++ e :: r ∧ entry = l.length ∧ e.addr < x ∧ x < e.addr + e.len ∧
      pmm' = splitAt l r e x := by
  obtain ⟨l, e, r, hpmm, hentry, hlo, hhi, hpmm'⟩ := splitRegion_eq_some h
  have hb := hinv.bounded e (by rw [hpmm]; simp)
  rw [endAddr_of_bounded hb] at hhi
  refine ⟨l, e, r, hpmm, hentry, hlo, hhi, ?_⟩
  rw [hpmm', splitAt, Word32.sub_of_le (by omega) (by omega),
    show e.len - (x - e.addr) = e.addr + e.len - x by omega]

/-- Every entry after a cut is part of an entry before it. -/
theorem mem_splitAt (hlo : e.addr < x) (hhi : x < e.addr + e.len) {f : PhysMmapEntry}
    (hf : f ∈ splitAt l r e x) :
    ∃ g ∈ l ++ e :: r, f.type = g.type ∧ g.addr ≤ f.addr ∧ f.addr + f.len ≤ g.addr + g.len := by
  simp only [splitAt, List.mem_append, List.mem_cons] at hf
  rcases hf with hf | rfl | rfl | hf
  · exact ⟨f, by simp [hf], rfl, le_rfl, le_rfl⟩
  · exact ⟨e, by simp, rfl, le_rfl, by simp only; omega⟩
  · exact ⟨e, by simp, rfl, by simp only; omega, by simp only; omega⟩
  · exact ⟨f, by simp [hf], rfl, le_rfl, le_rfl⟩

theorem mapInv_splitAt (hinv : MapInv (l ++ e :: r)) (hlo : e.addr < x)
    (hhi : x < e.addr + e.len) : MapInv (splitAt l r e x) := by
  refine ⟨fun f hf => ?_, ?_⟩
  · obtain ⟨g, hg, -, -, hle⟩ := mem_splitAt hlo hhi hf
    exact hle.trans (hinv.bounded g hg)
  · have hd := hinv.disjoint
    simp only [splitAt, List.pairwise_append, List.pairwise_cons, List.mem_cons,
      disjoint_bytes_iff] at hd ⊢
    obtain ⟨hl, ⟨her, hr⟩, hlr⟩ := hd
    refine ⟨hl, ⟨?_, ?_, hr⟩, ?_⟩
    · rintro f (rfl | hf)
      · simp only
        omega
      · have := her f hf
        omega
    · intro f hf
      have := her f hf
      omega
    · rintro f hf g (rfl | rfl | hg)
      · have := hlr f hf e (.inl rfl)
        simp only
        omega
      · have := hlr f hf e (.inl rfl)
        simp only
        omega
      · exact hlr f hf g (.inr hg)

/-- A cut does not change the availability of a range that does not contain the cut. -/
theorem available_splitAt (hlo : e.addr < x) (hhi : x < e.addr + e.len) {lo hi : ℕ}
    (hx : hi ≤ x ∨ x ≤ lo) :
    Available (splitAt l r e x) lo hi ↔ Available (l ++ e :: r) lo hi := by
  constructor
  · rintro ⟨f, hf, ht, hflo, hfhi⟩
    obtain ⟨g, hg, htype, hglo, hghi⟩ := mem_splitAt hlo hhi hf
    exact ⟨g, hg, htype ▸ ht, by omega, by omega⟩
  · rintro ⟨f, hf, ht, hflo, hfhi⟩
    simp only [List.mem_append, List.mem_cons] at hf
    rcases hf with hf | rfl | hf
    · exact ⟨f, by simp [splitAt, hf], ht, hflo, hfhi⟩
    · rcases hx with hx | hx
      · exact ⟨⟨f.addr, x - f.addr, f.type⟩, by simp [splitAt], ht, hflo, by simp only; omega⟩
      · exact ⟨⟨x, f.addr + f.len - x, f.type⟩, by simp [splitAt], ht, hx, by simp only; omega⟩
    · exact ⟨f, by simp [splitAt, hf], ht, hflo, hfhi⟩

end Split

/-! ## Taking an entry out -/

section Reserve

variable {l r : PhysMmap} {e : PhysMmapEntry}

theorem mapInv_reserve (hinv : MapInv (l ++ e :: r)) :
    MapInv (l ++ { e with type := .reserved } :: r) := by
  refine ⟨fun f hf => ?_, ?_⟩
  · simp only [List.mem_append, List.mem_cons] at hf
    rcases hf with hf | rfl | hf
    · exact hinv.bounded f (by simp [hf])
    · exact hinv.bounded e (by simp)
    · exact hinv.bounded f (by simp [hf])
  · have hd := hinv.disjoint
    simp only [List.pairwise_append, List.pairwise_cons, List.mem_cons, forall_eq_or_imp] at hd ⊢
    exact hd

/-- What remains available when one entry is reserved. -/
theorem available_reserve (hinv : MapInv (l ++ e :: r)) (hlen : 0 < e.len) {lo hi : ℕ}
    (h : lo < hi) :
    Available (l ++ { e with type := .reserved } :: r) lo hi ↔
      Available (l ++ e :: r) lo hi ∧ (hi ≤ e.addr ∨ e.addr + e.len ≤ lo) := by
  have hd := hinv.disjoint
  simp only [List.pairwise_append, List.pairwise_cons, List.mem_cons, forall_eq_or_imp,
    disjoint_bytes_iff] at hd
  obtain ⟨-, ⟨her, -⟩, hle⟩ := hd
  constructor
  · rintro ⟨f, hf, ht, hflo, hfhi⟩
    simp only [List.mem_append, List.mem_cons] at hf
    rcases hf with hf | rfl | hf
    · have := (hle f hf).1
      exact ⟨⟨f, by simp [hf], ht, hflo, hfhi⟩, by omega⟩
    · cases ht
    · have := her f hf
      exact ⟨⟨f, by simp [hf], ht, hflo, hfhi⟩, by omega⟩
  · rintro ⟨⟨f, hf, ht, hflo, hfhi⟩, hout⟩
    simp only [List.mem_append, List.mem_cons] at hf
    rcases hf with hf | rfl | hf
    · exact ⟨f, by simp [hf], ht, hflo, hfhi⟩
    · omega
    · exact ⟨f, by simp [hf], ht, hflo, hfhi⟩

end Reserve

/-! ## The reservation -/

/-- What a reservation of `[addr, addr + len)` does to the map `pmm`. -/
structure Reserves (pmm pmm' : PhysMmap) (addr len : ℕ) : Prop where
  inv : MapInv pmm'
  inside : Available pmm addr (addr + len)
  available : ∀ lo hi, lo < hi → (Available pmm' lo hi ↔
    Available pmm lo hi ∧ Disjoint (Set.Ico lo hi) (Set.Ico addr (addr + len)))
  part : ∀ f ∈ pmm', ∃ g ∈ pmm, g.addr ≤ f.addr ∧ f.addr + f.len ≤ g.addr + g.len

/-- The entry that the search of `reserve_region` selects. -/
theorem findAvailable_spec {pmm : PhysMmap} {addr len entry : ℕ} (hinv : MapInv pmm)
    (hend : addr + len ≤ 0xffc00000) (h : findAvailable pmm addr len = some entry) :
    ∃ l e r, pmm = l ++ e :: r ∧ entry = l.length ∧ e.type = .available ∧ e.addr ≤ addr ∧
      addr + len ≤ e.addr + e.len := by
  unfold findAvailable at h
  obtain ⟨hlt, hp, -⟩ := List.findIdx?_eq_some_iff_getElem.mp h
  rw [decide_eq_true_eq] at hp
  obtain ⟨ht, hlo, hhi⟩ := hp
  have hsplit : pmm = pmm.take entry ++ pmm[entry] :: pmm.drop (entry + 1) := by
    rw [← List.drop_eq_getElem_cons hlt, List.take_append_drop]
  have hb := hinv.bounded pmm[entry] (List.getElem_mem hlt)
  rw [endAddr_of_bounded hb, Word32.add_of_lt (by omega)] at hhi
  refine ⟨_, _, _, hsplit, ?_, ht, hlo, hhi⟩
  rw [List.length_take]
  omega

/-- **A successful reservation** removes exactly its range from the available memory. -/
theorem reserveLoop_spec {pmm pmm' : PhysMmap} {addr len : ℕ} (hinv : MapInv pmm)
    (hlen : 0 < len) (hend : addr + len ≤ 0xffc00000)
    (h : reserveLoop pmm addr len = (true, pmm')) : Reserves pmm pmm' addr len := by
  fun_induction reserveLoop pmm addr len with
  | case1 => cases h
  | case2 => cases h
  | case3 pmm entry hfind e he hfull =>
    -- the entry is the range
    obtain ⟨l, e', r, rfl, rfl, ht, hlo, hhi⟩ := findAvailable_spec hinv hend hfind
    have hee : e' = e := by simpa using he
    subst hee
    obtain rfl : l ++ { e' with type := .reserved } :: r = pmm' := by
      simpa using congrArg Prod.snd h
    have haddr : e'.addr = addr := by omega
    refine ⟨mapInv_reserve hinv, ⟨e', by simp, ht, hlo, hhi⟩, fun lo hi hlt => ?_, fun f hf => ?_⟩
    · rw [available_reserve hinv (by omega) hlt, disjoint_ranges_iff hlt (by omega), haddr, hfull]
    · simp only [List.mem_append, List.mem_cons] at hf
      rcases hf with hf | rfl | hf
      · exact ⟨f, by simp [hf], le_rfl, le_rfl⟩
      · exact ⟨e', by simp, le_rfl, le_rfl⟩
      · exact ⟨f, by simp [hf], le_rfl, le_rfl⟩
  | case4 => cases h
  | case5 pmm entry hfind e he hfull x pmm₁ hsplit ih =>
    -- the entry is cut at an end of the range, and the search goes on
    obtain ⟨l, e', r, hpmm, hentry, hlo, hhi, rfl⟩ := splitRegion_of_bounded hinv hsplit
    subst hpmm
    have hih := ih (mapInv_splitAt hinv hlo hhi) h
    have hx : x = addr ∨ x = addr + len := by
      simp only [x]
      split_ifs
      · exact .inl rfl
      · exact .inr (Word32.add_of_lt (by omega))
    refine ⟨hih.inv, ?_, fun lo hi hlt => ?_, fun f hf => ?_⟩
    · exact (available_splitAt hlo hhi (by omega)).mp hih.inside
    · rw [hih.available lo hi hlt, disjoint_ranges_iff hlt (by omega)]
      refine and_congr_left fun hout => available_splitAt hlo hhi ?_
      omega
    · obtain ⟨g, hg, hglo, hghi⟩ := hih.part f hf
      obtain ⟨k, hk, -, hklo, hkhi⟩ := mem_splitAt hlo hhi hg
      exact ⟨k, hk, by omega, by omega⟩

/-- `reserve_region` takes the result of its loop, and counts its successes. -/
theorem reserveRegion_eq (g : PhysMemMap) (addr len : ℕ) :
    reserveRegion g addr len =
      if g.nbReserved = maxReserved then (false, g)
      else ((reserveLoop g.entries addr len).1, ⟨(reserveLoop g.entries addr len).2,
        if (reserveLoop g.entries addr len).1 then g.nbReserved + 1 else g.nbReserved⟩) := by
  rw [reserveRegion]
  rcases reserveLoop g.entries addr len with ⟨_ | _, entries⟩ <;> rfl

end Ahos
