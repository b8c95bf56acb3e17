import Ahos.Mem.Memory

/-!
# The page frame allocator

The run-time half of `page_frame_allocator.c`: allocation and release of page
frames. The metadata is the list of regions in the order of `region_ptrs`; a
region's `pagemap` holds one cell per page, so `nb_pages` is its length.
-/

namespace Ahos

/-- `page_state_t`; any other byte of a pagemap is `other`. -/
inductive PageState where
  | free
  | used
  | usedHead
  | usedTail
  | usedPart
  | other (code : ℕ)
deriving DecidableEq, Repr

/-- `struct pfa_region`. -/
structure PfaRegion where
  firstPage : ℕ
  pagemap : List PageState
deriving DecidableEq, Repr

/-- The number of cells of `pagemap`. -/
def PfaRegion.nbPages (region : PfaRegion) : ℕ := region.pagemap.length

/-- `struct pfa_meta`: the regions in the order of `region_ptrs`. -/
abbrev PfaMeta := List PfaRegion

/-- The test of `find_region`, with the end of the region as a 32-bit sum. -/
def PfaRegion.holds (region : PfaRegion) (pgf : ℕ) : Bool :=
  region.firstPage ≤ pgf ∧
    pgf < Word32.add region.firstPage (Word32.mul region.nbPages 4096)

/-- `find_region`: the index of the first region that holds `pgf`. -/
def findRegion (pfa : PfaMeta) (pgf : ℕ) : Option ℕ :=
  pfa.findIdx? fun region => region.holds pgf

/-- The address `first_page + page * PAGE_SIZE`, in 32 bits. -/
def PfaRegion.pageAddr (region : PfaRegion) (page : ℕ) : ℕ :=
  Word32.add region.firstPage (Word32.mul page 4096)

/-- `pfa_alloc_single`. -/
def pfaAllocSingle (region : PfaRegion) : ℕ × PfaRegion :=
  match region.pagemap.findIdx? (fun c => c = .free) with
  | some page =>
    (region.pageAddr page, { region with pagemap := region.pagemap.set page .used })
  | none => (badPage, region)

/-- The inner loop of `pfa_alloc_multiple`: the number of free cells from `page`
on, counted up to `need`. -/
def freeRun (pagemap : List PageState) : ℕ → ℕ → Outcome ℕ
  | 0, _ => .ok 0
  | need + 1, page => do
    let c ← readCell pagemap page
    if c = .free then
      let rest ← freeRun pagemap need (page + 1)
      return rest + 1
    else
      return 0

/-- The outer loop of `pfa_alloc_multiple`: the first fit from `startPage` on. A
run of free cells that is too short is skipped together with the cell that ends it. -/
def findFreePages (pagemap : List PageState) (nbPages startPage : ℕ) : Outcome (Option ℕ) :=
  if _h : startPage ≤ pagemap.length - nbPages then do
    let c ← readCell pagemap startPage
    if c = .free then
      let blockSize ← freeRun pagemap nbPages startPage
      if blockSize = nbPages then
        return some startPage
      else
        findFreePages pagemap nbPages (startPage + blockSize + 1)
    else
      findFreePages pagemap nbPages (startPage + 1)
  else
    return none
termination_by pagemap.length + 1 - startPage

/-- The marking loop of `pfa_alloc_multiple`. -/
def markBlock (pagemap : List PageState) (startPage nbPages : ℕ) : List PageState :=
  (List.range nbPages).foldl
    (fun cells i =>
      cells.set (startPage + i)
        (if i = 0 then .usedHead
         else if i = nbPages - 1 then .usedTail
         else .usedPart))
    pagemap

/-- `pfa_alloc_multiple`. -/
def pfaAllocMultiple (region : PfaRegion) (nbPages : ℕ) : Outcome (ℕ × PfaRegion) :=
  if nbPages > region.nbPages then
    return (badPage, region)
  else do
    match ← findFreePages region.pagemap nbPages 0 with
    | some startPage =>
      return (region.pageAddr startPage,
        { region with pagemap := markBlock region.pagemap startPage nbPages })
    | none => return (badPage, region)

/-- The attempt of `pfa_alloc` in one region. -/
def pfaAllocRegion (region : PfaRegion) (nbPages : ℕ) : Outcome (ℕ × PfaRegion) :=
  if nbPages = 1 then .ok (pfaAllocSingle region) else pfaAllocMultiple region nbPages

/-- The loop of `pfa_alloc` over the regions. -/
def pfaAllocRegions (nbPages : ℕ) : PfaMeta → Outcome (ℕ × PfaMeta)
  | [] => .ok (badPage, [])
  | region :: rest => do
    let (pageFrame, region) ← pfaAllocRegion region nbPages
    if pageFrame ≠ badPage then
      return (pageFrame, region :: rest)
    else
      let (pageFrame, rest) ← pfaAllocRegions nbPages rest
      return (pageFrame, region :: rest)

/-- `pfa_alloc`. -/
def pfaAlloc (pfa : PfaMeta) (nbPages : ℕ) : Outcome (ℕ × PfaMeta) :=
  if nbPages = 0 then return (badPage, pfa) else pfaAllocRegions nbPages pfa

/-- The release loop of `pfa_free` on a block. The condition of the loop reads the
cell before the loop body checks the index. -/
def freeBlock (pagemap : List PageState) (index : ℕ) : Outcome (List PageState) :=
  match _h : pagemap[index]? with
  | none => .error .outOfBounds
  | some c =>
    if c ≠ .usedTail then
      if index ≥ pagemap.length then
        panic "index out-of-bound"
      else if c ≠ .usedHead ∧ c ≠ .usedPart then
        panic "unexpected page state"
      else
        freeBlock (pagemap.set index .free) (index + 1)
    else
      .ok (pagemap.set index .free)
termination_by pagemap.length - index
decreasing_by
  have := (List.getElem?_eq_some_iff.mp _h).1
  simp only [List.length_set]
  omega

/-- The body of `pfa_free` once the region is known. -/
def pfaFreeRegion (region : PfaRegion) (pgf : ℕ) : Outcome PfaRegion :=
  if pageOffset pgf ≠ 0 then
    panic "pgf is not aligned on a page boundary"
  else do
    let index := Word32.sub pgf region.firstPage / 4096
    let c ← readCell region.pagemap index
    if c = .free then
      panic "double-free detected!"
    else if c = .used then
      return { region with pagemap := region.pagemap.set index .free }
    else if c ≠ .usedHead then
      panic "freeing a non head page frame block"
    else
      let pagemap ← freeBlock region.pagemap index
      return { region with pagemap := pagemap }

/-- `pfa_free`. -/
def pfaFree (pfa : PfaMeta) (pgf : ℕ) : Outcome PfaMeta :=
  match findRegion pfa pgf with
  | none => panic "page frame does not belong to any region"
  | some i => do
    let region ← readCell pfa i
    let region ← pfaFreeRegion region pgf
    return pfa.set i region

end Ahos
