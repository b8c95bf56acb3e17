import Ahos.Mem.Pfa.Defs
import Ahos.Mem.Pmm.Defs

/-!
# Initialisation of the page frame allocator

`pfa_init`: the size of the metadata is computed, the first valid region that can
host it is searched, and every valid region of the physical memory map becomes a
region of the allocator. The hosting region loses the pages of the metadata.
-/

namespace Ahos

/-- `is_valid_region`. -/
def isValidRegion (pmme : PhysMmapEntry) : Bool :=
  if pmme.type ≠ .available then false
  else if pmme.addr < 0x100000 then false
  else if pageOffset pmme.addr ≠ 0 then
    let addr := pageAlign pmme.addr
    if addr < pmme.addr then false
    else if addr ≥ pmme.endAddr then false
    else Word32.sub pmme.len (Word32.sub addr pmme.addr) / 4096 > 0
  else pmme.len / 4096 > 0

/-- The length of an entry from its first page boundary on: the computation that
`pfa_meta_size`, `find_hosting_region` and `init_pfa_region` share. -/
def alignedLen (pmme : PhysMmapEntry) : ℕ :=
  if pageOffset pmme.addr ≠ 0 then
    Word32.sub pmme.len (Word32.sub (pageAlign pmme.addr) pmme.addr)
  else pmme.len

/-- `pfa_meta_size`. -/
def pfaMetaSize (pmm : PhysMmap) : ℕ :=
  pageAlign <| pmm.foldl
    (fun size pmme =>
      if isValidRegion pmme then
        Word32.add (Word32.add (Word32.add size 4) 8) (alignedLen pmme / 4096)
      else size)
    4

/-- `find_hosting_region`: the index of the region; `none` is `-1`. -/
def findHostingRegion (pmm : PhysMmap) (pfaSize : ℕ) : Option ℕ :=
  pmm.findIdx? fun pmme => isValidRegion pmme ∧ alignedLen pmme ≥ pfaSize

/-- `init_pfa_region`. -/
def initPfaRegion (pmme : PhysMmapEntry) : PfaRegion :=
  ⟨pageAlign pmme.addr, List.replicate (alignedLen pmme / 4096) .free⟩

/-- The hosting region without the pages of the metadata. -/
def hostRegion (pfaSize : ℕ) (region : PfaRegion) : PfaRegion :=
  ⟨Word32.add region.firstPage pfaSize,
    List.replicate (Word32.sub region.nbPages (pfaSize / 4096)) .free⟩

/-- The loop of `reserve_regions` from the entry with the index `region` on: the regions
of the allocator, and the map in which their entries are reserved. -/
def reserveRegionsFrom (pfaSize pfaRegion : ℕ) : ℕ → PhysMmap → PfaMeta × PhysMmap
  | _, [] => ([], [])
  | region, pmme :: rest =>
    let r := reserveRegionsFrom pfaSize pfaRegion (region + 1) rest
    if isValidRegion pmme then
      let newRegion := initPfaRegion pmme
      (if region = pfaRegion then hostRegion pfaSize newRegion :: r.1 else newRegion :: r.1,
        { pmme with type := .reserved } :: r.2)
    else
      (r.1, pmme :: r.2)

/-- `reserve_regions`. -/
def reserveRegions (pmm : PhysMmap) (pfaSize pfaRegion : ℕ) : Outcome (PfaMeta × PhysMmap) :=
  if pageOffset pfaSize ≠ 0 ∨ pfaRegion ≥ pmm.length then panic "invalid argument"
  else .ok (reserveRegionsFrom pfaSize pfaRegion 0 pmm)

/-- The globals that `pfa_init` sets: the address of the metadata, its number of pages,
and its contents; and the physical memory map, in which all regions are reserved. -/
structure PfaInitState where
  pfaMeta : ℕ
  pfaMetaReservedPages : ℕ
  pfa : PfaMeta
  physMemMap : PhysMmap
deriving DecidableEq, Repr

/-- `pfa_init`: `none` is the result `false`. -/
def pfaInit (pmm : PhysMmap) : Outcome (Option PfaInitState) :=
  let pfaSize := pfaMetaSize pmm
  match findHostingRegion pmm pfaSize with
  | none => .ok none
  | some pfaRegion => do
    let pmme ← readCell pmm pfaRegion
    let (pfa, pmm) ← reserveRegions pmm pfaSize pfaRegion
    return some ⟨pageAlign pmme.addr, pfaSize / 4096, pfa, pmm⟩

/-! ## The regions -/

theorem pfaMetaSize_mod (pmm : PhysMmap) : pfaMetaSize pmm % 4096 = 0 := pageAlign_mod _

/-- The hosting region is a valid entry that is long enough. -/
theorem findHostingRegion_eq_some {pmm : PhysMmap} {pfaSize pfaRegion : ℕ}
    (h : findHostingRegion pmm pfaSize = some pfaRegion) :
    ∃ l host r, pmm = l ++ host :: r ∧ pfaRegion = l.length ∧ isValidRegion host = true ∧
      pfaSize ≤ alignedLen host := by
  unfold findHostingRegion at h
  obtain ⟨hlt, hhost, -⟩ := List.findIdx?_eq_some_iff_getElem.mp h
  rw [decide_eq_true_eq] at hhost
  refine ⟨pmm.take pfaRegion, pmm[pfaRegion], pmm.drop (pfaRegion + 1), ?_, ?_, hhost.1, hhost.2⟩
  · rw [← List.drop_eq_getElem_cons hlt, List.take_append_drop]
  · rw [List.length_take]
    omega

/-- What `pfa_init` does when it succeeds. -/
theorem pfaInit_eq_some {pmm : PhysMmap} {st : PfaInitState} (h : pfaInit pmm = .ok (some st)) :
    ∃ l host r, pmm = l ++ host :: r ∧ isValidRegion host = true ∧
      pfaMetaSize pmm ≤ alignedLen host ∧ st.pfaMeta = pageAlign host.addr ∧
      st.pfaMetaReservedPages = pfaMetaSize pmm / 4096 ∧
      reserveRegionsFrom (pfaMetaSize pmm) l.length 0 pmm = (st.pfa, st.physMemMap) := by
  unfold pfaInit at h
  cases hfind : findHostingRegion pmm (pfaMetaSize pmm) with
  | none => simp [hfind] at h
  | some i =>
    simp only [hfind, Run.bind_eq_ok] at h
    obtain ⟨host, hread, ⟨pfa, pmm'⟩, hres, h⟩ := h
    obtain rfl := Option.some.inj (Except.ok.inj h)
    obtain ⟨l, host', r, hpmm, rfl, hvalid, hlen⟩ := findHostingRegion_eq_some hfind
    have hhost : pmm[l.length]? = some host' := by simp [hpmm]
    obtain rfl := Option.some.inj ((readCell_eq_ok.mp hread).symm.trans hhost)
    refine ⟨l, host, r, hpmm, hvalid, hlen, rfl, rfl, ?_⟩
    unfold reserveRegions at hres
    split at hres
    · cases hres
    · exact Except.ok.inj hres

/-- The regions of the allocator, without the special role of the host. -/
theorem reserveRegionsFrom_off (pfaSize pfaRegion region : ℕ) (pmm : PhysMmap)
    (h : ∀ i < pmm.length, region + i ≠ pfaRegion) :
    (reserveRegionsFrom pfaSize pfaRegion region pmm).1 =
      (pmm.filter isValidRegion).map initPfaRegion := by
  induction pmm generalizing region with
  | nil => rfl
  | cons pmme rest ih =>
    have hhead := h 0 (by simp)
    have hrest := ih (region + 1) fun i hi => by
      have := h (i + 1) (by simpa using hi)
      omega
    rw [Nat.add_zero] at hhead
    by_cases hv : isValidRegion pmme = true
    · simp only [reserveRegionsFrom, if_pos hv, if_neg hhead, List.filter_cons_of_pos hv,
        List.map_cons, hrest]
    · simp only [reserveRegionsFrom, if_neg hv, List.filter_cons_of_neg hv, hrest]

/-- The valid entries become regions in order; the host loses the pages of the metadata. -/
theorem reserveRegionsFrom_host (pfaSize region : ℕ) (l r : PhysMmap) {host : PhysMmapEntry}
    (hv : isValidRegion host = true) :
    (reserveRegionsFrom pfaSize (region + l.length) region (l ++ host :: r)).1 =
      (l.filter isValidRegion).map initPfaRegion ++ hostRegion pfaSize (initPfaRegion host) ::
        (r.filter isValidRegion).map initPfaRegion := by
  induction l generalizing region with
  | nil =>
    have hrest := reserveRegionsFrom_off pfaSize region (region + 1) r fun i _ => by omega
    simp only [List.nil_append, List.length_nil, Nat.add_zero, reserveRegionsFrom, if_pos hv,
      if_true, hrest, List.filter_nil, List.map_nil]
  | cons pmme l ih =>
    have hih := ih (region + 1)
    rw [List.length_cons, show region + (l.length + 1) = region + 1 + l.length by omega,
      List.cons_append]
    have hne : region ≠ region + 1 + l.length := by omega
    by_cases hp : isValidRegion pmme = true
    · simp only [reserveRegionsFrom, if_pos hp, if_neg hne, List.filter_cons_of_pos hp,
        List.map_cons, List.cons_append, hih]
    · simp only [reserveRegionsFrom, if_neg hp, List.filter_cons_of_neg hp, hih]

/-- The regions that `pfa_init` sets up. -/
theorem pfaInit_regions {pmm : PhysMmap} {st : PfaInitState} (h : pfaInit pmm = .ok (some st)) :
    ∃ l host r, pmm = l ++ host :: r ∧ isValidRegion host = true ∧
      pfaMetaSize pmm ≤ alignedLen host ∧ st.pfaMeta = pageAlign host.addr ∧
      st.pfaMetaReservedPages = pfaMetaSize pmm / 4096 ∧
      st.pfa = (l.filter isValidRegion).map initPfaRegion ++
        hostRegion (pfaMetaSize pmm) (initPfaRegion host) ::
          (r.filter isValidRegion).map initPfaRegion := by
  obtain ⟨l, host, r, hpmm, hv, hlen, hmeta, hpages, hres⟩ := pfaInit_eq_some h
  refine ⟨l, host, r, hpmm, hv, hlen, hmeta, hpages, ?_⟩
  have := reserveRegionsFrom_host (pfaMetaSize pmm) 0 l r hv
  rw [Nat.zero_add, ← hpmm, hres] at this
  exact this

/-- Every page is free after `pfa_init`. -/
theorem pfaInit_free {pmm : PhysMmap} {st : PfaInitState} (h : pfaInit pmm = .ok (some st)) :
    ∀ r ∈ st.pfa, ∀ c ∈ r.pagemap, c = .free := by
  obtain ⟨l, host, r, -, -, -, -, -, hpfa⟩ := pfaInit_regions h
  intro region hr c hc
  rw [hpfa, List.mem_append, List.mem_cons, List.mem_map, List.mem_map] at hr
  rcases hr with ⟨e, -, rfl⟩ | rfl | ⟨e, -, rfl⟩ <;> exact List.eq_of_mem_replicate hc

/-- The regions that count: available, in high memory, and with at least one page behind
the aligned start, which does not wrap around. -/
theorem isValidRegion_iff {pmme : PhysMmapEntry} :
    isValidRegion pmme = true ↔
      pmme.type = .available ∧ 0x100000 ≤ pmme.addr ∧
        (pmme.addr % 4096 ≠ 0 →
          pmme.addr ≤ pageAlign pmme.addr ∧ pageAlign pmme.addr < pmme.endAddr) ∧
        4096 ≤ alignedLen pmme := by
  unfold isValidRegion alignedLen
  by_cases ht : pmme.type = .available
  · by_cases ha : pmme.addr < 0x100000
    · simp [ht, ha]
    · by_cases ho : pmme.addr % 4096 = 0
      · simp [ht, ha, ho]
        omega
      · simp [ht, ha, ho, and_assoc]
        omega
  · simp [ht]

theorem le_pageAlign_of_valid {pmme : PhysMmapEntry} (h : isValidRegion pmme = true) :
    pmme.addr ≤ pageAlign pmme.addr := by
  obtain ⟨-, -, hlt, -⟩ := isValidRegion_iff.mp h
  by_cases ho : pmme.addr % 4096 = 0
  · simp [pageAlign, ho]
  · exact (hlt ho).1

/-! ## Sizes -/

theorem pageAlign_lt {x : ℕ} (h : x < 4294967296) : pageAlign x < 4294967296 := by
  unfold pageAlign
  split_ifs
  · exact lt_of_le_of_lt Nat.and_le_right (by omega)
  · exact h

theorem alignedLen_lt {e : PhysMmapEntry} (h : e.len < 4294967296) :
    alignedLen e < 4294967296 := by
  unfold alignedLen
  split_ifs
  · exact Word32.wrap_lt _
  · exact h

theorem nbPages_initPfaRegion (e : PhysMmapEntry) :
    (initPfaRegion e).nbPages = alignedLen e / 4096 := by
  simp [initPfaRegion, PfaRegion.nbPages]

/-- The hosting region has the pages that the metadata leaves. -/
theorem nbPages_hostRegion {e : PhysMmapEntry} {size : ℕ} (hlen : e.len < 4294967296)
    (hsize : size ≤ alignedLen e) :
    (hostRegion size (initPfaRegion e)).nbPages = (initPfaRegion e).nbPages - size / 4096 := by
  have hlt := alignedLen_lt hlen
  have hnb := nbPages_initPfaRegion e
  have hle : size / 4096 ≤ alignedLen e / 4096 := Nat.div_le_div_right hsize
  simp only [hostRegion, PfaRegion.nbPages, List.length_replicate] at hnb ⊢
  exact Word32.sub_of_le (by omega) (by omega)

end Ahos
