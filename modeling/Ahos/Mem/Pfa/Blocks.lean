import Ahos.Lib.Tiling
import Ahos.Mem.Pfa.FirstFit

/-!
# Block structure of a pagemap

The abstract view of a region: its pagemap is a row of blocks, where a block is
a free page, a used page, or a head, any number of parts and a tail. The lemmas
say what allocation and release do to the row.
-/

namespace Ahos

open Tiling

/-- A block of a pagemap: a free page, an allocated page, or an allocation of
`parts + 2` pages. -/
inductive PageBlock where
  | free
  | used
  | block (parts : ℕ)
deriving DecidableEq, Repr

/-- The cells of a block. -/
def PageBlock.cells : PageBlock → List PageState
  | .free => [.free]
  | .used => [.used]
  | .block parts => .usedHead :: (List.replicate parts .usedPart ++ [.usedTail])

/-- The number of pages of a block. -/
def PageBlock.pages (b : PageBlock) : ℕ := b.cells.length

/-- The block that an allocation of `n` pages leaves. -/
def PageBlock.allocated (n : ℕ) : PageBlock := if n = 1 then .used else .block (n - 2)

theorem PageBlock.allocated_ne_free (n : ℕ) : PageBlock.allocated n ≠ .free := by
  unfold allocated
  split <;> simp

theorem PageBlock.pages_allocated {n : ℕ} (hn : 0 < n) : (PageBlock.allocated n).pages = n := by
  unfold allocated
  split
  · simp [pages, cells, *]
  · simp only [pages, cells, List.length_cons, List.length_append, List.length_replicate,
      List.length_nil]
    omega

theorem PageBlock.pages_pos (b : PageBlock) : 0 < b.pages := by
  cases b <;> simp [pages, cells]

/-- A region as a row of blocks. -/
structure TiledRegion where
  firstPage : ℕ
  blocks : List PageBlock
deriving DecidableEq, Repr

namespace TiledRegion

/-- The region that the allocator stores. -/
def region (r : TiledRegion) : PfaRegion := ⟨r.firstPage, layout PageBlock.cells r.blocks⟩

/-- The allocations among the blocks that follow `off` pages, where `addr` is the
address of a page: address of the first page and number of pages. -/
def allocationsFrom (addr : ℕ → ℕ) (off : ℕ) (blocks : List PageBlock) : List (ℕ × ℕ) :=
  (placed PageBlock.cells off blocks).filterMap fun a =>
    if a.2 = .free then none else some (addr a.1, a.2.pages)

/-- The allocations of a region. -/
def allocations (r : TiledRegion) : List (ℕ × ℕ) :=
  allocationsFrom (fun i => r.firstPage + 4096 * i) 0 r.blocks

/-- The allocations of a region with the addresses that the allocator returns, which
are 32-bit sums. -/
def handedOut (r : TiledRegion) : List (ℕ × ℕ) := allocationsFrom r.region.pageAddr 0 r.blocks

end TiledRegion


/-! ## Reading the row -/

/-- A cell that makes up a block by itself, and is in no other block, is this block. -/
theorem split_of_cell {bs : List PageBlock} {b : PageBlock} {c : PageState} {i : ℕ}
    (hcells : b.cells = [c]) (honly : ∀ b' : PageBlock, c ∈ b'.cells → b' = b)
    (h : (layout PageBlock.cells bs)[i]? = some c) :
    ∃ l r, bs = l ++ b :: r ∧ i = (layout PageBlock.cells l).length := by
  obtain ⟨l, b', r, j, rfl, hi, hc⟩ := exists_split_of_getElem? _ h
  obtain rfl := honly b' (List.mem_of_getElem? hc)
  obtain ⟨hj, -⟩ := List.getElem?_eq_some_iff.mp hc
  rw [hcells, List.length_singleton] at hj
  exact ⟨l, r, rfl, by omega⟩

/-- A free cell is a free block. -/
theorem split_of_free {bs : List PageBlock} {i : ℕ}
    (h : (layout PageBlock.cells bs)[i]? = some .free) :
    ∃ l r, bs = l ++ .free :: r ∧ i = (layout PageBlock.cells l).length := by
  refine split_of_cell rfl (fun b hb => ?_) h
  cases b with
  | free => rfl
  | used => simp [PageBlock.cells] at hb
  | block parts => simp [PageBlock.cells] at hb

/-- A used cell is a used block. -/
theorem split_of_used {bs : List PageBlock} {i : ℕ}
    (h : (layout PageBlock.cells bs)[i]? = some .used) :
    ∃ l r, bs = l ++ .used :: r ∧ i = (layout PageBlock.cells l).length := by
  refine split_of_cell rfl (fun b hb => ?_) h
  cases b with
  | free => simp [PageBlock.cells] at hb
  | used => rfl
  | block parts => simp [PageBlock.cells] at hb

/-- A head cell starts a block. -/
theorem split_of_usedHead {bs : List PageBlock} {i : ℕ}
    (h : (layout PageBlock.cells bs)[i]? = some .usedHead) :
    ∃ l parts r, bs = l ++ .block parts :: r ∧ i = (layout PageBlock.cells l).length := by
  obtain ⟨l, b, r, j, rfl, hi, hc⟩ := exists_split_of_getElem? _ h
  cases b with
  | free => cases j <;> simp [PageBlock.cells] at hc
  | used => cases j <;> simp [PageBlock.cells] at hc
  | block parts =>
    cases j with
    | zero => exact ⟨l, parts, r, rfl, by omega⟩
    | succ j =>
      have hm := List.mem_of_getElem? (l := List.replicate parts PageState.usedPart ++ [.usedTail])
        (i := j) (by simpa [PageBlock.cells] using hc)
      simp at hm

/-- A row that starts with `n` free cells starts with `n` free blocks. -/
theorem eq_replicate_free_append {n : ℕ} {bs : List PageBlock}
    (h : ∀ j < n, (layout PageBlock.cells bs)[j]? = some .free) :
    ∃ r, bs = List.replicate n PageBlock.free ++ r := by
  induction n generalizing bs with
  | zero => exact ⟨bs, rfl⟩
  | succ n ih =>
    obtain ⟨l, r, rfl, hi⟩ := split_of_free (h 0 (by omega))
    have hl : l = [] := by
      cases l with
      | nil => rfl
      | cons b l =>
        have := b.pages_pos
        simp only [layout_cons, List.length_append, PageBlock.pages] at hi this
        omega
    subst hl
    obtain ⟨r', rfl⟩ := ih fun j hj => by
      simpa [PageBlock.cells] using h (j + 1) (by omega)
    exact ⟨r', rfl⟩

/-- `n` free cells in a row are `n` free blocks. -/
theorem split_of_free_run {n i : ℕ} {bs : List PageBlock} (hn : 0 < n)
    (h : ∀ j < n, (layout PageBlock.cells bs)[i + j]? = some .free) :
    ∃ l r, bs = l ++ (List.replicate n PageBlock.free ++ r) ∧
      i = (layout PageBlock.cells l).length := by
  obtain ⟨l, r, rfl, hi⟩ := split_of_free (by simpa using h 0 hn)
  obtain ⟨r', hr⟩ := eq_replicate_free_append (n := n) fun j hj => by
    have := h j hj
    rwa [layout_append, List.getElem?_append_right (by omega), ← hi,
      Nat.add_sub_cancel_left] at this
  exact ⟨l, r', by rw [hr], hi⟩

/-! ## Allocation in a row -/

/-- The cells of an allocation are the marks. -/
theorem PageBlock.getElem?_allocated {n k : ℕ} (hk : k < n) :
    (PageBlock.allocated n).cells[k]? = some (if n = 1 then .used else blockState n k) := by
  unfold allocated blockState
  by_cases h1 : n = 1
  · subst h1
    obtain rfl : k = 0 := by omega
    rfl
  · rw [if_neg h1, if_neg h1, cells]
    cases k with
    | zero => rfl
    | succ k =>
      rw [List.getElem?_cons_succ, if_neg (by omega)]
      by_cases htail : k + 1 = n - 1
      · rw [if_pos htail, List.getElem?_append_right (by simp; omega), List.length_replicate,
          show k - (n - 2) = 0 by omega]
        rfl
      · rw [if_neg htail, List.getElem?_append_left (by simp; omega), List.getElem?_replicate,
          if_pos (by omega)]

/-- Marking `n` cells of a row puts one allocation in their place. -/
theorem Marked.eq_append {before old after cells : List PageState} {n : ℕ} (hn : 0 < n)
    (hlen : old.length = n) (h : Marked (before ++ (old ++ after)) cells before.length n) :
    cells = before ++ ((PageBlock.allocated n).cells ++ after) := by
  have hpages : (PageBlock.allocated n).cells.length = n := PageBlock.pages_allocated hn
  apply List.ext_getElem?
  intro j
  by_cases hlt : j < before.length
  · rw [h.outside j (.inl hlt), List.getElem?_append_left hlt, List.getElem?_append_left hlt]
  · obtain ⟨k, rfl⟩ : ∃ k, j = before.length + k := ⟨j - before.length, by omega⟩
    rw [List.getElem?_append_right (by omega), Nat.add_sub_cancel_left]
    by_cases hk : k < n
    · rw [h.inside k hk, List.getElem?_append_left (by omega), PageBlock.getElem?_allocated hk]
    · rw [h.outside _ (.inr (by omega)), List.getElem?_append_right (by omega),
        Nat.add_sub_cancel_left, List.getElem?_append_right (by omega),
        List.getElem?_append_right (by omega), hlen, hpages]

/-- The first search of `pfa_alloc_single`. -/
private theorem allocSingle_spec (r : TiledRegion) :
    (pfaAllocSingle r.region = (badPage, r.region) ∧ .free ∉ r.blocks) ∨
    ∃ l rest, r.blocks = l ++ (List.replicate 1 PageBlock.free ++ rest) ∧
      pfaAllocSingle r.region = (r.region.pageAddr (layout PageBlock.cells l).length,
        (TiledRegion.mk r.firstPage (l ++ PageBlock.allocated 1 :: rest)).region) := by
  unfold pfaAllocSingle
  cases hfind : r.region.pagemap.findIdx? (fun c => c = .free) with
  | none =>
    refine .inl ⟨rfl, fun hmem => ?_⟩
    have hcell : PageState.free ∈ r.region.pagemap :=
      List.mem_flatMap.mpr ⟨.free, hmem, by simp [PageBlock.cells]⟩
    simpa using List.findIdx?_eq_none_iff.mp hfind _ hcell
  | some page =>
    right
    obtain ⟨hlt, hc, -⟩ := List.findIdx?_eq_some_iff_getElem.mp hfind
    have hc : r.region.pagemap[page] = .free := by simpa using hc
    obtain ⟨l, rest, hbs, hpage⟩ := split_of_free (i := page)
      (List.getElem?_eq_some_iff.mpr ⟨hlt, hc⟩)
    refine ⟨l, rest, by simpa using hbs, ?_⟩
    have hset : (layout PageBlock.cells r.blocks).set page .used =
        layout PageBlock.cells (l ++ PageBlock.allocated 1 :: rest) := by
      rw [hbs, hpage]
      simp [PageBlock.cells, PageBlock.allocated, List.set_append_right]
    simp only [TiledRegion.region]
    rw [hset, hpage]

/-- **Allocation in one region**: either nothing happens and the result is
`BAD_PAGE`, or `n` free blocks in a row become one allocated block and the result
is the address of the first of them. A single page is found whenever there is one. -/
theorem pfaAllocRegion_spec (r : TiledRegion) {n : ℕ} (hn : 0 < n) :
    (pfaAllocRegion r.region n = .ok (badPage, r.region) ∧ (n = 1 → .free ∉ r.blocks)) ∨
    ∃ l rest, r.blocks = l ++ (List.replicate n PageBlock.free ++ rest) ∧
      pfaAllocRegion r.region n = .ok (r.region.pageAddr (layout PageBlock.cells l).length,
        (TiledRegion.mk r.firstPage (l ++ PageBlock.allocated n :: rest)).region) := by
  unfold pfaAllocRegion
  by_cases h1 : n = 1
  · subst h1
    rw [if_pos rfl]
    rcases allocSingle_spec r with ⟨h, hnone⟩ | ⟨l, rest, hbs, h⟩
    · exact .inl ⟨by rw [h], fun _ => hnone⟩
    · exact .inr ⟨l, rest, hbs, by rw [h]⟩
  · rw [if_neg h1]
    unfold pfaAllocMultiple
    by_cases hbig : n > r.region.nbPages
    · exact .inl ⟨by rw [if_pos hbig]; rfl, fun h => absurd h h1⟩
    · rw [if_neg hbig]
      obtain ⟨res, hres, hfit⟩ := findFreePages_spec 0 hn (Nat.le_of_not_lt hbig)
      rw [hres, Run.ok_bind]
      cases res with
      | none => exact .inl ⟨rfl, fun h => absurd h h1⟩
      | some i =>
        obtain ⟨l, rest, hbs, hi⟩ := split_of_free_run hn (hfit.found i rfl).1
        refine .inr ⟨l, rest, hbs, ?_⟩
        have hmark : markBlock (layout PageBlock.cells r.blocks) i n =
            layout PageBlock.cells (l ++ PageBlock.allocated n :: rest) := by
          have hbound := (hfit.found i rfl).1.bound hn
          rw [TiledRegion.region] at hbound
          have hmarked := marked_markBlock h1 hbound
          rw [hbs, hi, layout_append, layout_append,
            layout_replicate PageBlock.cells (t := .free) rfl] at hmarked ⊢
          rw [hmarked.eq_append hn (by simp), layout_append, layout_cons]
        simp only [TiledRegion.region] at hmark ⊢
        rw [hmark, hi]
        rfl

/-! ## Release in a row -/

/-- A round of the release loop on a cell in front of the tail. -/
private theorem freeBlock_step (before after : List PageState) {c : PageState}
    (hc : c = .usedHead ∨ c = .usedPart) :
    freeBlock (before ++ c :: after) before.length =
      freeBlock (before ++ [.free] ++ after) (before ++ [PageState.free]).length := by
  have htail : c ≠ .usedTail := by rcases hc with rfl | rfl <;> simp
  rw [freeBlock.eq_def (before ++ c :: after)]
  split
  · next h => simp at h
  · next c' h =>
    obtain rfl : c = c' := by simpa using h
    rw [if_pos htail, if_neg (by simp), if_neg fun hne => hc.elim hne.1 hne.2,
      List.set_append_right _ _ le_rfl, Nat.sub_self, List.set_cons_zero]
    simp

/-- The release loop from a part of a block on. -/
private theorem freeBlock_parts (before after : List PageState) (parts : ℕ) :
    freeBlock (before ++ (List.replicate parts PageState.usedPart ++ .usedTail :: after))
        before.length =
      .ok (before ++ (List.replicate (parts + 1) PageState.free ++ after)) := by
  induction parts generalizing before with
  | zero =>
    unfold freeBlock
    split
    · next h => simp at h
    · next c h =>
      obtain rfl : PageState.usedTail = c := by simpa using h
      simp
  | succ parts ih =>
    rw [List.replicate_succ, List.cons_append, freeBlock_step _ _ (.inr rfl), ih]
    simp [List.replicate_succ]

/-- The release loop frees exactly the cells of the block it starts on. -/
theorem freeBlock_block (before after : List PageState) (parts : ℕ) :
    freeBlock (before ++ ((PageBlock.block parts).cells ++ after)) before.length =
      .ok (before ++ (List.replicate (parts + 2) PageState.free ++ after)) := by
  have hcells : (PageBlock.block parts).cells ++ after =
      .usedHead :: (List.replicate parts .usedPart ++ .usedTail :: after) := by
    simp [PageBlock.cells]
  rw [hcells, freeBlock_step _ _ (.inl rfl), freeBlock_parts]
  simp [List.replicate_succ]

/-- The release of an allocation, whatever stands before and behind it. -/
theorem pfaFreeRegion_cells {firstPage pgf : ℕ} {before after : List PageState} {b : PageBlock}
    (hb : b ≠ .free) (hoff : pgf % 4096 = 0)
    (hidx : Word32.sub pgf firstPage / 4096 = before.length) :
    pfaFreeRegion ⟨firstPage, before ++ (b.cells ++ after)⟩ pgf =
      .ok ⟨firstPage, before ++ (List.replicate b.pages PageState.free ++ after)⟩ := by
  unfold pfaFreeRegion
  rw [pageOffset_eq, if_neg (by simp [hoff])]
  simp only [hidx]
  cases b with
  | free => exact absurd rfl hb
  | used =>
    have hread : readCell (before ++ (PageBlock.used.cells ++ after)) before.length = .ok .used :=
      readCell_eq_ok.mpr (by simp [PageBlock.cells])
    rw [hread]
    simp [PageBlock.cells, PageBlock.pages, List.set_append_right]
  | block parts =>
    have hread : readCell (before ++ ((PageBlock.block parts).cells ++ after)) before.length =
        .ok .usedHead := readCell_eq_ok.mpr (by simp [PageBlock.cells])
    rw [hread, freeBlock_block]
    simp [PageBlock.cells, PageBlock.pages]

/-- **Release in one region**: on the address of an allocated block the block
becomes free pages. -/
theorem pfaFreeRegion_of_block {r : TiledRegion} {l rest : List PageBlock} {b : PageBlock}
    {pgf : ℕ} (hbs : r.blocks = l ++ b :: rest) (hb : b ≠ .free) (hoff : pgf % 4096 = 0)
    (hidx : Word32.sub pgf r.firstPage / 4096 = (layout PageBlock.cells l).length) :
    pfaFreeRegion r.region pgf =
      .ok (TiledRegion.mk r.firstPage
        (l ++ (List.replicate b.pages PageBlock.free ++ rest))).region := by
  simp only [TiledRegion.region, hbs]
  rw [layout_append, layout_cons, layout_append, layout_append,
    layout_replicate PageBlock.cells (t := .free) rfl]
  exact pfaFreeRegion_cells hb hoff hidx

/-- What a release in a region can have done: a page that is used by itself is freed, or a block
from its head on. -/
theorem pfaFreeRegion_cases {r r' : PfaRegion} {pgf : ℕ} (h : pfaFreeRegion r pgf = .ok r') :
    pgf % 4096 = 0 ∧
      ((r.pagemap[Word32.sub pgf r.firstPage / 4096]? = some .used ∧
          r' = ⟨r.firstPage, r.pagemap.set (Word32.sub pgf r.firstPage / 4096) .free⟩) ∨
        (r.pagemap[Word32.sub pgf r.firstPage / 4096]? = some .usedHead ∧
          ∃ cells, freeBlock r.pagemap (Word32.sub pgf r.firstPage / 4096) = .ok cells ∧
            r' = ⟨r.firstPage, cells⟩)) := by
  unfold pfaFreeRegion at h
  rw [pageOffset_eq] at h
  split at h
  · cases h
  · next hoff =>
    obtain ⟨c, hread, h⟩ := Run.bind_eq_ok.mp h
    rw [readCell_eq_ok] at hread
    refine ⟨by omega, ?_⟩
    split_ifs at h with hfree hused hhead
    · cases h
    · subst hused
      exact .inl ⟨hread, (Except.ok.inj h).symm⟩
    · cases h
    · obtain rfl : c = .usedHead := by simpa using hhead
      obtain ⟨cells, hcells, h⟩ := Run.bind_eq_ok.mp h
      exact .inr ⟨hread, cells, hcells, (Except.ok.inj h).symm⟩

/-- A release that returns was given the address of an allocated block. -/
theorem block_of_pfaFreeRegion {r : TiledRegion} {pgf : ℕ} {r' : PfaRegion}
    (h : pfaFreeRegion r.region pgf = .ok r') :
    pgf % 4096 = 0 ∧ ∃ l b rest, r.blocks = l ++ b :: rest ∧ b ≠ .free ∧
      Word32.sub pgf r.firstPage / 4096 = (layout PageBlock.cells l).length := by
  obtain ⟨hoff, ⟨hread, -⟩ | ⟨hread, -⟩⟩ := pfaFreeRegion_cases h
  · obtain ⟨l, rest, hbs, hi⟩ := split_of_used hread
    exact ⟨hoff, l, _, rest, hbs, by simp, hi⟩
  · obtain ⟨l, parts, rest, hbs, hi⟩ := split_of_usedHead hread
    exact ⟨hoff, l, _, rest, hbs, by simp, hi⟩

/-- **A release that returns** changes the region that `find_region` selects. -/
theorem pfaFree_eq_ok {pfa pfa' : PfaMeta} {pgf : ℕ} :
    pfaFree pfa pgf = .ok pfa' ↔ ∃ i r r', findRegion pfa pgf = some i ∧ pfa[i]? = some r ∧
      pfaFreeRegion r pgf = .ok r' ∧ pfa' = pfa.set i r' := by
  rw [pfaFree]
  cases findRegion pfa pgf with
  | none => simp [panic]
  | some i => simp [Run.bind_eq_ok, readCell_eq_ok, eq_comm (a := pfa')]

/-- The selected region holds the address. -/
theorem holds_of_findRegion {pfa : PfaMeta} {pgf i : ℕ} {r : PfaRegion}
    (h : findRegion pfa pgf = some i) (hr : pfa[i]? = some r) : r.holds pgf = true := by
  obtain ⟨hlt, hholds, -⟩ := List.findIdx?_eq_some_iff_getElem.mp h
  rwa [← (List.getElem?_eq_some_iff.mp hr).2]

/-! ## The allocations of a row -/

namespace TiledRegion

theorem allocationsFrom_append (addr : ℕ → ℕ) (off : ℕ) (l r : List PageBlock) :
    allocationsFrom addr off (l ++ r) = allocationsFrom addr off l ++
      allocationsFrom addr (off + (layout PageBlock.cells l).length) r := by
  simp [allocationsFrom, placed_append]

theorem allocationsFrom_cons {addr : ℕ → ℕ} {off : ℕ} {b : PageBlock} (hb : b ≠ .free)
    (r : List PageBlock) :
    allocationsFrom addr off (b :: r) =
      (addr off, b.pages) :: allocationsFrom addr (off + b.pages) r := by
  simp [allocationsFrom, placed_cons, hb, PageBlock.pages]

/-- Free pages contribute no allocation. -/
theorem allocationsFrom_replicate_free (addr : ℕ → ℕ) (off n : ℕ) (r : List PageBlock) :
    allocationsFrom addr off (List.replicate n PageBlock.free ++ r) =
      allocationsFrom addr (off + n) r := by
  induction n generalizing off with
  | zero => rfl
  | succ n ih =>
    rw [List.replicate_succ, List.cons_append, Nat.add_comm n 1, ← Nat.add_assoc, ← ih]
    simp [allocationsFrom, placed_cons, PageBlock.cells]

/-- Replacing `n` free pages by an allocated block of `n` pages adds one allocation. -/
theorem allocationsFrom_perm (addr : ℕ → ℕ) {n : ℕ} {b : PageBlock} (l rest : List PageBlock)
    (hb : b ≠ .free) (hn : b.pages = n) :
    (allocationsFrom addr 0 (l ++ b :: rest)).Perm
      ((addr (layout PageBlock.cells l).length, n) ::
        allocationsFrom addr 0 (l ++ (List.replicate n PageBlock.free ++ rest))) := by
  rw [allocationsFrom_append, allocationsFrom_append, allocationsFrom_cons hb,
    allocationsFrom_replicate_free, Nat.zero_add, hn]
  exact List.perm_middle

/-- The addresses are only computed for pages of the row. -/
theorem allocationsFrom_congr {addr addr' : ℕ → ℕ} {blocks : List PageBlock}
    (h : ∀ i < (layout PageBlock.cells blocks).length, addr i = addr' i) :
    allocationsFrom addr 0 blocks = allocationsFrom addr' 0 blocks := by
  refine List.filterMap_congr ?_
  rintro ⟨i, b⟩ hmem
  have hpos := b.pages_pos
  have hb := (bounds_of_mem_placed _ hmem).2
  simp only [PageBlock.pages] at hpos
  simp only [h i (by omega)]

/-- An allocation of a region is one of its blocks. -/
theorem exists_block_of_mem_allocations {r : TiledRegion} {p n : ℕ}
    (h : (p, n) ∈ r.allocations) :
    ∃ l b rest, r.blocks = l ++ b :: rest ∧ b ≠ .free ∧ b.pages = n ∧
      p = r.firstPage + 4096 * (layout PageBlock.cells l).length := by
  simp only [allocations, allocationsFrom, List.mem_filterMap, Prod.exists] at h
  obtain ⟨i, b, hmem, h⟩ := h
  obtain ⟨l, rest, hbs, hi⟩ := exists_split_of_mem_placed _ hmem
  split_ifs at h with hb
  obtain ⟨rfl, rfl⟩ := Prod.mk.inj (Option.some.inj h)
  exact ⟨l, b, rest, hbs, hb, rfl, by rw [hi, Nat.zero_add]⟩

end TiledRegion

end Ahos
