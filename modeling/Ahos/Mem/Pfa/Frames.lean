import Ahos.Mem.Pfa.Runs

/-!
# The frames of the outstanding allocations

The page frames that are not free are exactly the frames of the outstanding allocations,
when no region contains the page at address `0`, which stands for failure.
-/

namespace Ahos

open Tiling

/-- The frame at `f` belongs to one of the allocations. -/
def Within (out : List (ℕ × ℕ)) (f : ℕ) : Prop := ∃ a ∈ out, ∃ i < a.2, f = a.1 + 4096 * i

/-- No region contains the page at address `0`, which stands for failure. -/
def NoNullFrame (pfa : PfaMeta) : Prop := ∀ r ∈ pfa, 0 < r.nbPages → 0 < r.firstPage

/-- No cell of an allocated block is free. -/
theorem PageBlock.cells_ne_free {b : PageBlock} (hb : b ≠ .free) {j : ℕ} {c : PageState}
    (h : b.cells[j]? = some c) : c ≠ .free := by
  rintro rfl
  have hm := List.mem_of_getElem? h
  cases b with
  | free => exact hb rfl
  | used => simp [cells] at hm
  | block parts => simp [cells] at hm

/-- A frame of a region is not free exactly when an allocation of the region contains it. -/
theorem TiledRegion.cell_ne_free_iff {r : TiledRegion} {k : ℕ} {c : PageState}
    (h : r.region.pagemap[k]? = some c) :
    c ≠ .free ↔ Within r.allocations (r.firstPage + 4096 * k) := by
  constructor
  · intro hc
    obtain ⟨l, b, rest, j, hblocks, hk, hj⟩ := exists_split_of_getElem? PageBlock.cells h
    have hb : b ≠ .free := by
      rintro rfl
      have hm := List.mem_of_getElem? hj
      exact hc (by simpa [PageBlock.cells] using hm)
    refine ⟨(r.firstPage + 4096 * (layout PageBlock.cells l).length, b.pages), ?_, j,
      (List.getElem?_eq_some_iff.mp hj).1, by simp only; omega⟩
    rw [TiledRegion.allocations, hblocks, TiledRegion.allocationsFrom_append,
      TiledRegion.allocationsFrom_cons hb]
    simp
  · rintro ⟨⟨p, n⟩, hp, i, hi, hf⟩
    obtain ⟨l, b, rest, hblocks, hb, rfl, rfl⟩ := exists_block_of_mem_allocations hp
    obtain rfl : k = (layout PageBlock.cells l).length + i := by
      simp only at hf
      omega
    have hcell : b.cells[i]? = some c := by
      rw [← h, TiledRegion.region, hblocks]
      simp only [layout_append, layout_cons]
      rw [List.getElem?_append_right (by omega),
        List.getElem?_append_left (by simpa [PageBlock.pages] using hi)]
      congr 1
      omega
    exact PageBlock.cells_ne_free hb hcell

/-- The frames of a region are determined by its place. -/
theorem exists_frameIs_iff {pfa : PfaMeta} {f : ℕ} :
    (∃ c, FrameIs pfa f c) ↔ ∃ r ∈ shape pfa, ∃ k < r.2, f = r.1 + 4096 * k := by
  simp only [FrameIs, shape, List.mem_map]
  constructor
  · rintro ⟨c, r, hr, k, hk, rfl⟩
    exact ⟨_, ⟨r, hr, rfl⟩, k, (List.getElem?_eq_some_iff.mp hk).1, rfl⟩
  · rintro ⟨_, ⟨r, hr, rfl⟩, k, hk, rfl⟩
    exact ⟨_, r, hr, k, List.getElem?_eq_getElem hk, rfl⟩

/-- A frame lies in one region only. -/
theorem region_unique {rs : List TiledRegion} (hg : Geometry (shape (rs.map TiledRegion.region)))
    {r s : TiledRegion} (hr : r ∈ rs) (hs : s ∈ rs) {k i : ℕ} (hk : k < r.region.nbPages)
    (hi : i < s.region.nbPages) (heq : r.firstPage + 4096 * k = s.firstPage + 4096 * i) : r = s := by
  by_contra hne
  have hd := hg.disjoint
  simp only [shape, List.pairwise_map, TiledRegion.firstPage_region] at hd
  have hsymm : Std.Symm fun r s : TiledRegion => 0 < r.region.nbPages → 0 < s.region.nbPages →
      r.firstPage + 4096 * r.region.nbPages ≤ s.firstPage ∨
        s.firstPage + 4096 * s.region.nbPages ≤ r.firstPage :=
    ⟨fun _ _ h hpos hpos' => (h hpos' hpos).symm⟩
  have := hd.forall hr hs hne (by omega) (by omega)
  omega

/-- **The frames in use are those of the outstanding allocations.** -/
theorem PfaInv.within_iff {pfa : PfaMeta} {out : List (ℕ × ℕ)} (h : PfaInv pfa out)
    (hnull : NoNullFrame pfa) {f : ℕ} {c : PageState} (hf : FrameIs pfa f c) :
    c ≠ .free ↔ Within out f := by
  obtain ⟨hg, rs, rfl, hperm⟩ := h
  rw [live_eq hnull] at hperm
  obtain ⟨_, hmem, k, hk, rfl⟩ := hf
  obtain ⟨r, hr, rfl⟩ := List.mem_map.mp hmem
  rw [TiledRegion.cell_ne_free_iff hk, TiledRegion.firstPage_region]
  constructor
  · rintro ⟨a, ha, i, hi, heq⟩
    exact ⟨a, hperm.mem_iff.mp (List.mem_flatMap.mpr ⟨r, hr, ha⟩), i, hi, heq⟩
  · rintro ⟨a, ha, i, hi, heq⟩
    obtain ⟨s, hs, ha⟩ := List.mem_flatMap.mp (hperm.mem_iff.mpr ha)
    obtain ⟨-, hlo, hhi, hmod⟩ := s.bounds_of_mem_allocations ha
    -- the allocation is one of the same region
    have hoff : a.1 = s.firstPage + 4096 * ((a.1 - s.firstPage) / 4096) := by omega
    simp only [PfaRegion.endAddr, TiledRegion.firstPage_region] at hhi
    obtain rfl := region_unique hg hr hs (List.getElem?_eq_some_iff.mp hk).1
      (show (a.1 - s.firstPage) / 4096 + i < s.region.nbPages by omega) (by omega)
    exact ⟨a, ha, i, hi, heq⟩

/-- An outstanding allocation consists of frames of the regions. -/
theorem PfaInv.exists_frameIs {pfa : PfaMeta} {out : List (ℕ × ℕ)} (h : PfaInv pfa out) {f : ℕ}
    (hf : Within out f) : ∃ c, FrameIs pfa f c := by
  obtain ⟨⟨p, n⟩, ha, i, hi, rfl⟩ := hf
  obtain ⟨hn, -, hmod, r, hr, hlo, hhi, -⟩ := h.bounds ha
  have hshape : (r.firstPage, r.nbPages) ∈ shape pfa :=
    List.mem_map_of_mem (f := fun r : PfaRegion => (r.firstPage, r.nbPages)) hr
  simp only [PfaRegion.endAddr] at hhi hi ⊢
  have halign := h.geometry.aligned _ hshape (by simp only; omega)
  simp only at halign
  exact exists_frameIs_iff.mpr ⟨_, hshape, (p - r.firstPage) / 4096 + i, by simp only; omega,
    by simp only; omega⟩

/-- The free frames are those of the regions that no outstanding allocation contains. -/
theorem PfaInv.free_iff {pfa : PfaMeta} {out : List (ℕ × ℕ)} (h : PfaInv pfa out)
    (hnull : NoNullFrame pfa) {f : ℕ} :
    FrameIs pfa f .free ↔
      (∃ r ∈ shape pfa, ∃ k < r.2, f = r.1 + 4096 * k) ∧ ¬ Within out f := by
  rw [← exists_frameIs_iff]
  constructor
  · intro hf
    exact ⟨⟨_, hf⟩, fun hin => (h.within_iff hnull hf).mpr hin rfl⟩
  · rintro ⟨⟨c, hc⟩, hnot⟩
    have hfree : c = .free := by
      by_contra hne
      exact hnot ((h.within_iff hnull hc).mp hne)
    exact hfree ▸ hc

end Ahos
