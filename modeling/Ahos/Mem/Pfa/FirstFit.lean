import Ahos.Mem.Pfa.Defs

/-!
# The first fit of `pfa_alloc`

Whatever a pagemap contains, the search of `pfa_alloc` finds the first run of free cells that is
long enough, in the first region that has one, and marks its cells and no others. The loops are
repeated here with checked accesses to the pagemap: none of them leaves it.
-/

namespace Ahos

/-! ## Checked accesses -/

/-- The loop of `pfa_alloc_single` over the pages that are left, with checked accesses. -/
def allocSingleLoop (region : PfaRegion) : List ℕ → Outcome (ℕ × PfaRegion)
  | [] => .ok (badPage, region)
  | page :: pages => do
    let c ← readCell region.pagemap page
    if c = .free then
      let pagemap ← writeCell region.pagemap page .used
      return (region.pageAddr page, { region with pagemap := pagemap })
    else
      allocSingleLoop region pages

/-- The state that the marking loop of `pfa_alloc_multiple` gives to the page with the number `i`
of a block. -/
def blockState (nbPages i : ℕ) : PageState :=
  if i = 0 then .usedHead else if i = nbPages - 1 then .usedTail else .usedPart

/-- The marking loop of `pfa_alloc_multiple`, with checked accesses. -/
def markBlockChecked (pagemap : List PageState) (startPage nbPages : ℕ) :
    Outcome (List PageState) :=
  (List.range nbPages).foldlM
    (fun cells i => writeCell cells (startPage + i) (blockState nbPages i)) pagemap

/-- `pfa_alloc_multiple`, with checked accesses. -/
def pfaAllocMultipleChecked (region : PfaRegion) (nbPages : ℕ) : Outcome (ℕ × PfaRegion) :=
  if nbPages > region.nbPages then
    return (badPage, region)
  else do
    match ← findFreePages region.pagemap nbPages 0 with
    | some startPage =>
      let pagemap ← markBlockChecked region.pagemap startPage nbPages
      return (region.pageAddr startPage, { region with pagemap := pagemap })
    | none => return (badPage, region)

/-- The attempt of `pfa_alloc` in one region, with checked accesses. -/
def pfaAllocRegionChecked (region : PfaRegion) (nbPages : ℕ) : Outcome (ℕ × PfaRegion) :=
  if nbPages = 1 then allocSingleLoop region (List.range region.nbPages)
  else pfaAllocMultipleChecked region nbPages

/-- The loop of `pfa_alloc` over the regions, with checked accesses. -/
def pfaAllocRegionsChecked (nbPages : ℕ) : PfaMeta → Outcome (ℕ × PfaMeta)
  | [] => .ok (badPage, [])
  | region :: rest => do
    let (pageFrame, region) ← pfaAllocRegionChecked region nbPages
    if pageFrame ≠ badPage then
      return (pageFrame, region :: rest)
    else
      let (pageFrame, rest) ← pfaAllocRegionsChecked nbPages rest
      return (pageFrame, region :: rest)

/-- `pfa_alloc`, with checked accesses to the pagemaps. -/
def pfaAllocChecked (pfa : PfaMeta) (nbPages : ℕ) : Outcome (ℕ × PfaMeta) :=
  if nbPages = 0 then return (badPage, pfa) else pfaAllocRegionsChecked nbPages pfa

/-! ## Runs of free cells -/

/-- `n` free cells in a row, from the cell `i` on. -/
def FreeCells (cells : List PageState) (i n : ℕ) : Prop := ∀ k < n, cells[i + k]? = some .free

/-- The `n` cells from `i` on are marked as one allocation, and the others are as before. -/
structure Marked (cells cells' : List PageState) (i n : ℕ) : Prop where
  length : cells'.length = cells.length
  inside : ∀ k < n, cells'[i + k]? = some (if n = 1 then .used else blockState n k)
  outside : ∀ j, j < i ∨ i + n ≤ j → cells'[j]? = cells[j]?

/-- The result of a search from the cell `start` on: the first run of `n` free cells. -/
structure FirstFit (cells : List PageState) (n start : ℕ) (res : Option ℕ) : Prop where
  found : ∀ i, res = some i → FreeCells cells i n ∧ ∀ j, start ≤ j → j < i → ¬ FreeCells cells j n
  missing : res = none → ∀ j, start ≤ j → ¬ FreeCells cells j n

section Cells

variable {cells : List PageState} {n : ℕ}

theorem FreeCells.bound {i : ℕ} (h : FreeCells cells i n) (hn : 0 < n) : i + n ≤ cells.length := by
  have hlast := (List.getElem?_eq_some_iff.mp (h (n - 1) (by omega))).1
  omega

/-- A search may start behind cells at which no run starts. -/
theorem FirstFit.skip {start next : ℕ} {res : Option ℕ} (h : FirstFit cells n next res)
    (hbetween : ∀ j, start ≤ j → j < next → ¬ FreeCells cells j n) :
    FirstFit cells n start res := by
  refine ⟨fun i hi => ⟨(h.found i hi).1, fun j hj hji => ?_⟩, fun hres j hj => ?_⟩
  · by_cases hlt : j < next
    · exact hbetween j hj hlt
    · exact (h.found i hi).2 j (by omega) hji
  · by_cases hlt : j < next
    · exact hbetween j hj hlt
    · exact h.missing hres j (by omega)

/-- The free cells counted by the inner loop, and why it stops. -/
theorem freeRun_spec (cells : List PageState) (need page : ℕ) (h : page + need ≤ cells.length) :
    ∃ k ≤ need, freeRun cells need page = .ok k ∧ FreeCells cells page k ∧
      (k < need → cells[page + k]? ≠ some .free) := by
  induction need generalizing page with
  | zero => exact ⟨0, le_rfl, rfl, by simp [FreeCells], by simp⟩
  | succ need ih =>
    have hlt : page < cells.length := by omega
    have hread : readCell cells page = .ok cells[page] :=
      readCell_eq_ok.mpr (List.getElem?_eq_getElem hlt)
    by_cases hc : cells[page] = .free
    · obtain ⟨k, hk, hrun, hfree, hstop⟩ := ih (page + 1) (by omega)
      refine ⟨k + 1, by omega, by simp [freeRun, hread, hc, hrun], ?_, ?_⟩
      · intro j hj
        cases j with
        | zero => simp [hlt, hc]
        | succ j => rw [← Nat.add_assoc, Nat.add_right_comm]; exact hfree j (by omega)
      · intro hlt'
        rw [← Nat.add_assoc, Nat.add_right_comm]
        exact hstop (by omega)
    · refine ⟨0, by omega, by simp [freeRun, hread, hc], by simp [FreeCells], ?_⟩
      intro _
      simp [hlt, hc]

/-- **The search of `pfa_alloc_multiple`** never leaves the pagemap and finds the first run of
free cells from `start` on that is long enough. -/
theorem findFreePages_spec (start : ℕ) (hn : 0 < n) (hle : n ≤ cells.length) :
    ∃ res, findFreePages cells n start = .ok res ∧ FirstFit cells n start res := by
  -- the search moves `start` forward in every round
  induction hm : cells.length + 1 - start using Nat.strong_induction_on generalizing start with
  | _ m ih =>
    unfold findFreePages
    by_cases hs : start ≤ cells.length - n
    · have hlt : start < cells.length := by omega
      have hread : readCell cells start = .ok cells[start] :=
        readCell_eq_ok.mpr (List.getElem?_eq_getElem hlt)
      rw [dif_pos hs, hread, Run.ok_bind]
      by_cases hc : cells[start] = .free
      · obtain ⟨k, hk, hrun, hfree, hstop⟩ := freeRun_spec cells n start (by omega)
        rw [if_pos hc, hrun, Run.ok_bind]
        by_cases hkn : k = n
        · refine ⟨some start, by rw [if_pos hkn]; rfl, ?_, by simp⟩
          rintro i ⟨⟩
          exact ⟨hkn ▸ hfree, fun j hj hji => by omega⟩
        · rw [if_neg hkn]
          obtain ⟨res, hres, hfit⟩ := ih _ (by omega) (start + k + 1) rfl
          refine ⟨res, hres, hfit.skip fun j hj hjk hrun' => ?_⟩
          -- a run from `j` on would contain the cell that ended the count
          have hcell := hrun' (start + k - j) (by omega)
          rw [show j + (start + k - j) = start + k by omega] at hcell
          exact hstop (by omega) hcell
      · rw [if_neg hc]
        obtain ⟨res, hres, hfit⟩ := ih _ (by omega) (start + 1) rfl
        refine ⟨res, hres, hfit.skip fun j hj hjk hrun' => hc ?_⟩
        have hcell := hrun' 0 hn
        rw [show j + 0 = start by omega, List.getElem?_eq_getElem hlt] at hcell
        exact Option.some.inj hcell
    · refine ⟨none, by rw [dif_neg hs]; rfl, by simp, fun _ j hj hrun => ?_⟩
      have := hrun.bound hn
      omega

/-- The loop of `pfa_alloc_single` is the search for the first free cell. -/
theorem allocSingleLoop_eq (region : PfaRegion) :
    allocSingleLoop region (List.range region.nbPages) = .ok (pfaAllocSingle region) := by
  -- from any page on, before which there is no free cell
  have hloop : ∀ m start, start + m = region.nbPages →
      (∀ j < start, region.pagemap[j]? ≠ some .free) →
      allocSingleLoop region (List.range' start m) = .ok (pfaAllocSingle region) := by
    intro m
    induction m with
    | zero =>
      intro start hlen hbefore
      have hnone : region.pagemap.findIdx? (fun c => c = .free) = none := by
        rw [List.findIdx?_eq_none_iff]
        intro c hc
        obtain ⟨j, hj, rfl⟩ := List.getElem_of_mem hc
        have hcell := hbefore j (by simp only [PfaRegion.nbPages] at hlen; omega)
        rw [List.getElem?_eq_getElem hj] at hcell
        simpa using hcell
      simp [allocSingleLoop, pfaAllocSingle, hnone]
    | succ m ih =>
      intro start hlen hbefore
      have hlt : start < region.pagemap.length := by
        simp only [PfaRegion.nbPages] at hlen
        omega
      have hread : readCell region.pagemap start = .ok region.pagemap[start] :=
        readCell_eq_ok.mpr (List.getElem?_eq_getElem hlt)
      rw [List.range'_succ, allocSingleLoop, hread, Run.ok_bind]
      by_cases hc : region.pagemap[start] = .free
      · have hfind : region.pagemap.findIdx? (fun c => c = .free) = some start := by
          rw [List.findIdx?_eq_some_iff_getElem]
          refine ⟨hlt, by simpa using hc, fun j hj => ?_⟩
          have hcell := hbefore j hj
          rw [List.getElem?_eq_getElem (by omega)] at hcell
          simpa using hcell
        rw [if_pos hc, writeCell, if_pos hlt]
        simp [pfaAllocSingle, hfind]
      · rw [if_neg hc]
        refine ih (start + 1) (by omega) fun j hj => ?_
        by_cases hjs : j = start
        · subst hjs
          rw [List.getElem?_eq_getElem hlt]
          simpa using hc
        · exact hbefore j (by omega)
  rw [List.range_eq_range']
  exact hloop _ 0 (by simp) (by simp)

/-- The marking loop stays inside the pagemap. -/
theorem markBlockChecked_eq {i : ℕ} (h : i + n ≤ cells.length) :
    markBlockChecked cells i n = .ok (markBlock cells i n) := by
  have hloop : ∀ (is : List ℕ) (cells : List PageState), (∀ k ∈ is, i + k < cells.length) →
      is.foldlM (fun cells k => writeCell cells (i + k) (blockState n k)) cells =
        .ok (is.foldl (fun cells k => cells.set (i + k) (blockState n k)) cells) := by
    intro is
    induction is with
    | nil => exact fun _ _ => rfl
    | cons k is ih =>
      intro cells hlt
      rw [List.foldlM_cons, writeCell, if_pos (hlt k (List.mem_cons_self ..)), Run.ok_bind,
        List.foldl_cons]
      exact ih _ fun j hj => by simpa using hlt j (List.mem_cons_of_mem _ hj)
  exact hloop _ _ fun k hk => by
    have := List.mem_range.mp hk
    omega

/-- What the marking loop leaves in the cells. -/
theorem marked_markBlock {i : ℕ} (hn : n ≠ 1) (h : i + n ≤ cells.length) :
    Marked cells (markBlock cells i n) i n := by
  have hloop : ∀ m ≤ n, ∀ cells' : List PageState,
      cells' = (List.range m).foldl (fun c k => c.set (i + k) (blockState n k)) cells →
      cells'.length = cells.length ∧ (∀ k < m, cells'[i + k]? = some (blockState n k)) ∧
        ∀ j, j < i ∨ i + m ≤ j → cells'[j]? = cells[j]? := by
    intro m
    induction m with
    | zero =>
      rintro - cells' rfl
      exact ⟨rfl, by simp, fun _ _ => rfl⟩
    | succ m ih =>
      rintro hm cells' rfl
      obtain ⟨hlen, hin, hout⟩ := ih (by omega) _ rfl
      rw [List.range_succ, List.foldl_append, List.foldl_cons, List.foldl_nil]
      refine ⟨by rw [List.length_set, hlen], fun k hk => ?_, fun j hj => ?_⟩
      · by_cases hkm : k = m
        · rw [hkm, List.getElem?_set_self (by omega)]
        · rw [List.getElem?_set_ne (by omega)]
          exact hin k (by omega)
      · rw [List.getElem?_set_ne (by omega)]
        exact hout j (by omega)
  obtain ⟨hlen, hin, hout⟩ := hloop n le_rfl _ rfl
  exact ⟨hlen, fun k hk => by rw [if_neg hn]; exact hin k hk, hout⟩

end Cells

/-! ## Regions -/

/-- **Allocation in one region.** Either no run of free cells is long enough, and nothing happens,
or the first one is marked, and the result is its address. -/
theorem pfaAllocRegion_firstFit (region : PfaRegion) {n : ℕ} (hn : 0 < n) :
    ((∀ j, ¬ FreeCells region.pagemap j n) ∧
      pfaAllocRegion region n = .ok (badPage, region)) ∨
    ∃ i cells, FreeCells region.pagemap i n ∧ (∀ j < i, ¬ FreeCells region.pagemap j n) ∧
      Marked region.pagemap cells i n ∧
      pfaAllocRegion region n = .ok (region.pageAddr i, { region with pagemap := cells }) := by
  unfold pfaAllocRegion
  by_cases h1 : n = 1
  · subst h1
    have hone : ∀ j, FreeCells region.pagemap j 1 ↔ region.pagemap[j]? = some .free := by
      intro j
      simp [FreeCells]
    simp only [hone, if_true, pfaAllocSingle]
    cases hfind : region.pagemap.findIdx? (fun c => c = .free) with
    | none =>
      refine .inl ⟨fun j hj => ?_, rfl⟩
      have hmem := List.mem_of_getElem? hj
      simpa using List.findIdx?_eq_none_iff.mp hfind _ hmem
    | some i =>
      obtain ⟨hlt, hc, hfirst⟩ := List.findIdx?_eq_some_iff_getElem.mp hfind
      refine .inr ⟨i, region.pagemap.set i .used, ?_, fun j hj => ?_, ⟨by simp, ?_, ?_⟩, rfl⟩
      · rw [List.getElem?_eq_getElem hlt]
        simpa using hc
      · rw [List.getElem?_eq_getElem (by omega)]
        simpa using hfirst j hj
      · intro k hk
        rw [show i + k = i by omega, List.getElem?_set_self hlt]
        rfl
      · intro j hj
        exact List.getElem?_set_ne (by omega)
  · rw [if_neg h1, pfaAllocMultiple]
    by_cases hbig : n > region.nbPages
    · rw [if_pos hbig]
      refine .inl ⟨fun j hj => ?_, rfl⟩
      have := hj.bound hn
      simp only [PfaRegion.nbPages] at hbig
      omega
    · rw [if_neg hbig]
      obtain ⟨res, hres, hfit⟩ := findFreePages_spec 0 hn (Nat.le_of_not_lt hbig)
      rw [hres, Run.ok_bind]
      cases res with
      | none => exact .inl ⟨fun j => hfit.missing rfl j (by omega), rfl⟩
      | some i =>
        obtain ⟨hfree, hfirst⟩ := hfit.found i rfl
        exact .inr ⟨i, markBlock region.pagemap i n, hfree, fun j hj => hfirst j (by omega) hj,
          marked_markBlock h1 (hfree.bound hn), rfl⟩

/-- The checked accesses of one region succeed. -/
theorem pfaAllocRegionChecked_eq (region : PfaRegion) {n : ℕ} (hn : 0 < n) :
    pfaAllocRegionChecked region n = pfaAllocRegion region n := by
  unfold pfaAllocRegionChecked pfaAllocRegion
  split
  · exact allocSingleLoop_eq region
  · unfold pfaAllocMultipleChecked pfaAllocMultiple
    split
    · rfl
    · next hbig =>
      obtain ⟨res, hres, hfit⟩ := findFreePages_spec 0 hn (Nat.le_of_not_lt hbig)
      rw [hres, Run.ok_bind, Run.ok_bind]
      cases res with
      | none => rfl
      | some i =>
        have hbound := (hfit.found i rfl).1.bound hn
        simp only [markBlockChecked_eq hbound, Run.ok_bind]

/-- **No access of `pfa_alloc` leaves a pagemap.** -/
theorem pfaAllocChecked_eq (pfa : PfaMeta) (n : ℕ) : pfaAllocChecked pfa n = pfaAlloc pfa n := by
  unfold pfaAllocChecked pfaAlloc
  split
  · rfl
  · next hn =>
    induction pfa with
    | nil => rfl
    | cons region rest ih =>
      simp only [pfaAllocRegionsChecked, pfaAllocRegions,
        pfaAllocRegionChecked_eq region (Nat.pos_of_ne_zero hn), ih]

/-- Every region with a page lies between 1 MB and 4 GB. -/
def InHighMemory (pfa : PfaMeta) : Prop :=
  ∀ r ∈ pfa, 0 < r.nbPages → 0x100000 ≤ r.firstPage ∧ r.firstPage + 4096 * r.nbPages ≤ 2 ^ 32

/-- The address of a page of such a region is not `BAD_PAGE`. -/
theorem InHighMemory.pageAddr {pfa : PfaMeta} (h : InHighMemory pfa) {region : PfaRegion}
    (hr : region ∈ pfa) {i : ℕ} (hi : i < region.nbPages) :
    region.pageAddr i = region.firstPage + 4096 * i ∧ region.pageAddr i ≠ badPage := by
  obtain ⟨hlo, hhi⟩ := h region hr (by omega)
  have haddr : region.pageAddr i = region.firstPage + 4096 * i := by
    rw [PfaRegion.pageAddr, Word32.add_mul_wrap, Word32.wrap_of_lt (by omega)]
  refine ⟨haddr, ?_⟩
  rw [haddr, badPage]
  omega

/-- What `pfa_alloc` does: nothing, because no region has enough free cells in a row, or the first
run of the first region that has one is marked. -/
theorem pfaAlloc_firstFit {pfa : PfaMeta} (hhigh : InHighMemory pfa) {n : ℕ} (hn : 0 < n) :
    ((∀ region ∈ pfa, ∀ j, ¬ FreeCells region.pagemap j n) ∧
      pfaAlloc pfa n = .ok (badPage, pfa)) ∨
    ∃ l region r i cells, pfa = l ++ region :: r ∧
      (∀ q ∈ l, ∀ j, ¬ FreeCells q.pagemap j n) ∧ FreeCells region.pagemap i n ∧
      (∀ j < i, ¬ FreeCells region.pagemap j n) ∧ Marked region.pagemap cells i n ∧
      pfaAlloc pfa n = .ok (region.firstPage + 4096 * i,
        l ++ { region with pagemap := cells } :: r) := by
  rw [pfaAlloc, if_neg (by omega)]
  induction pfa with
  | nil => exact .inl ⟨by simp, rfl⟩
  | cons region rest ih =>
    rcases pfaAllocRegion_firstFit region hn with ⟨hnone, halloc⟩ |
        ⟨i, cells, hfree, hfirst, hmarked, halloc⟩
    · -- the region is passed over
      have hnext : pfaAllocRegions n (region :: rest) = (do
          let (pageFrame, rest) ← pfaAllocRegions n rest
          return (pageFrame, region :: rest)) := by
        rw [pfaAllocRegions, halloc, Run.ok_bind]
        exact if_neg (not_not_intro rfl)
      rcases ih fun r hr => hhigh r (List.mem_cons_of_mem _ hr) with ⟨hrest, hall⟩ |
          ⟨l, q, r, i, cells, rfl, hl, hfree, hfirst, hmarked, hall⟩
      · refine .inl ⟨by simpa using ⟨hnone, hrest⟩, ?_⟩
        rw [hnext, hall, Run.ok_bind]
        rfl
      · refine .inr ⟨region :: l, q, r, i, cells, rfl, by simpa using ⟨hnone, hl⟩, hfree, hfirst,
          hmarked, ?_⟩
        rw [hnext, hall, Run.ok_bind]
        rfl
    · have hbound := hfree.bound hn
      obtain ⟨haddr, hne⟩ := hhigh.pageAddr (List.mem_cons_self ..) (i := i)
        (by simp only [PfaRegion.nbPages]; omega)
      refine .inr ⟨[], region, rest, i, cells, rfl, by simp, hfree, hfirst, hmarked, ?_⟩
      rw [haddr] at hne halloc
      rw [pfaAllocRegions, halloc, Run.ok_bind]
      exact if_pos hne

/-- **`pfa_alloc` is a complete first fit**, whatever the pagemaps contain. If some region has `n`
free cells in a row, the result is the address of the first such run of the first such region, and
exactly its cells are marked; otherwise the result is `BAD_PAGE` and nothing changes. No access
leaves a pagemap. -/
theorem pfa_alloc_first_fit {pfa : PfaMeta} (hhigh : InHighMemory pfa) {n : ℕ} (hn : 1 ≤ n) :
    ((∃ region ∈ pfa, ∃ j, FreeCells region.pagemap j n) →
      ∃ l region r i cells, pfa = l ++ region :: r ∧
        (∀ q ∈ l, ∀ j, ¬ FreeCells q.pagemap j n) ∧ FreeCells region.pagemap i n ∧
        (∀ j < i, ¬ FreeCells region.pagemap j n) ∧ Marked region.pagemap cells i n ∧
        pfaAllocChecked pfa n = .ok (region.firstPage + 4096 * i,
          l ++ { region with pagemap := cells } :: r)) ∧
    ((¬ ∃ region ∈ pfa, ∃ j, FreeCells region.pagemap j n) →
      pfaAllocChecked pfa n = .ok (badPage, pfa)) := by
  rw [pfaAllocChecked_eq]
  rcases pfaAlloc_firstFit hhigh hn with ⟨hnone, halloc⟩ |
      ⟨l, region, r, i, cells, hpfa, hl, hfree, hfirst, hmarked, halloc⟩
  · refine ⟨fun hsome => ?_, fun _ => halloc⟩
    obtain ⟨region, hr, j, hj⟩ := hsome
    exact absurd hj (hnone region hr j)
  · refine ⟨fun _ => ⟨l, region, r, i, cells, hpfa, hl, hfree, hfirst, hmarked, halloc⟩,
      fun hnone => absurd ⟨region, by simp [hpfa], i, hfree⟩ hnone⟩

/-- Two pages behind a used one and a lone free one, in the second of two regions: the run is
found, and no third page is. -/
theorem pfa_alloc_first_fit_second_region :
    pfaAllocChecked [⟨0x100000, [.free]⟩, ⟨0xfffff000, []⟩,
        ⟨0xffffb000, [.free, .used, .free, .free, .other 7]⟩] 2 =
      .ok (0xffffd000, [⟨0x100000, [.free]⟩, ⟨0xfffff000, []⟩,
        ⟨0xffffb000, [.free, .used, .usedHead, .usedTail, .other 7]⟩]) ∧
    pfaAllocChecked [⟨0x100000, [.free]⟩] 2 = .ok (badPage, [⟨0x100000, [.free]⟩]) := by
  refine ⟨by decide +kernel, (pfa_alloc_first_fit (by simp [InHighMemory, PfaRegion.nbPages])
    (by omega)).2 ?_⟩
  rintro ⟨region, hr, j, hj⟩
  obtain rfl := List.mem_singleton.mp hr
  have := hj.bound (by omega)
  simp at this

end Ahos
