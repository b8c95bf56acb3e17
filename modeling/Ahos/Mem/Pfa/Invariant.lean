import Ahos.Mem.Pfa.Blocks

/-!
# The invariant of the page frame allocator

`PfaInv pfa out` relates the regions of the allocator to the list `out` of
outstanding allocations: every region is a row of blocks, and the allocated
blocks are the outstanding allocations, each with its address and its number of
pages. Allocation and release keep the relation.
-/

namespace Ahos

open Tiling

/-- The first address behind a region, over the natural numbers. -/
def PfaRegion.endAddr (r : PfaRegion) : ℕ := r.firstPage + 4096 * r.nbPages

/-- The places of the regions: first page and number of pages. -/
def shape (pfa : PfaMeta) : List (ℕ × ℕ) := pfa.map fun r => (r.firstPage, r.nbPages)

/-- Regions that contain pages are page aligned, end strictly below `2 ^ 32` and do
not overlap. -/
structure Geometry (places : List (ℕ × ℕ)) : Prop where
  aligned : ∀ r ∈ places, 0 < r.2 → r.1 % 4096 = 0
  bounded : ∀ r ∈ places, 0 < r.2 → r.1 + 4096 * r.2 < 4294967296
  disjoint : places.Pairwise fun r s =>
    0 < r.2 → 0 < s.2 → r.1 + 4096 * r.2 ≤ s.1 ∨ s.1 + 4096 * s.2 ≤ r.1

/-- Two allocations share no page. -/
def Apart (a b : ℕ × ℕ) : Prop := a.1 + 4096 * a.2 ≤ b.1 ∨ b.1 + 4096 * b.2 ≤ a.1

/-- The page frame at the address `f` belongs to a region and has the state `c`. -/
def FrameIs (pfa : PfaMeta) (f : ℕ) (c : PageState) : Prop :=
  ∃ r ∈ pfa, ∃ k, r.pagemap[k]? = some c ∧ f = r.firstPage + 4096 * k

/-- The allocations of the regions that a caller can hold: `0` is `BAD_PAGE`. -/
def live (rs : List TiledRegion) : List (ℕ × ℕ) :=
  (rs.flatMap TiledRegion.allocations).filter fun a => a.1 ≠ badPage

/-- The allocator state `pfa` with the outstanding allocations `out`. -/
structure PfaInv (pfa : PfaMeta) (out : List (ℕ × ℕ)) : Prop where
  geometry : Geometry (shape pfa)
  tiled : ∃ rs : List TiledRegion, pfa = rs.map TiledRegion.region ∧ (live rs).Perm out

/-! ## Geometry of the allocations -/

/-- The places of the regions decide what holds of every region that contains pages. -/
theorem forall_of_shape {pfa pfa' : PfaMeta} {P : ℕ → ℕ → Prop} (hshape : shape pfa' = shape pfa)
    (h : ∀ r ∈ pfa, P r.firstPage r.nbPages) : ∀ r ∈ pfa', P r.firstPage r.nbPages := by
  intro r hr
  have hmem : (r.firstPage, r.nbPages) ∈ shape pfa := by
    rw [← hshape]
    exact List.mem_map_of_mem (f := fun r : PfaRegion => (r.firstPage, r.nbPages)) hr
  obtain ⟨s, hs, hrs⟩ := List.mem_map.mp hmem
  obtain ⟨h1, h2⟩ := Prod.mk.inj hrs
  rw [← h1, ← h2]
  exact h s hs

theorem TiledRegion.nbPages_region (r : TiledRegion) :
    r.region.nbPages = (layout PageBlock.cells r.blocks).length := rfl

@[simp] theorem TiledRegion.firstPage_region (r : TiledRegion) :
    r.region.firstPage = r.firstPage := rfl

/-- An allocation consists of pages of its region. -/
theorem TiledRegion.bounds_of_mem_allocations {r : TiledRegion} {a : ℕ × ℕ}
    (h : a ∈ r.allocations) :
    0 < a.2 ∧ r.firstPage ≤ a.1 ∧ a.1 + 4096 * a.2 ≤ r.region.endAddr ∧
      a.1 % 4096 = r.firstPage % 4096 := by
  obtain ⟨l, b, rest, hbs, -, hn, hp⟩ := exists_block_of_mem_allocations h
  have hlen : r.region.nbPages = (layout PageBlock.cells l).length +
      (b.pages + (layout PageBlock.cells rest).length) := by
    rw [nbPages_region, hbs, layout_append, layout_cons, List.length_append, List.length_append]
    rfl
  have := b.pages_pos
  simp only [PfaRegion.endAddr, firstPage_region]
  omega

/-- The allocations of one region are apart. -/
theorem TiledRegion.pairwise_allocations (r : TiledRegion) : r.allocations.Pairwise Apart := by
  refine (pairwise_placed PageBlock.cells 0 r.blocks).filterMap _ ?_
  rintro ⟨i, b⟩ ⟨j, c⟩ hij a ha a' ha'
  split_ifs at ha ha'
  obtain rfl := Option.some.inj ha
  obtain rfl := Option.some.inj ha'
  simp only [Apart, PageBlock.pages] at hij ⊢
  omega

theorem nbPages_pos_of_mem_allocations {r : TiledRegion} {a : ℕ × ℕ} (h : a ∈ r.allocations) :
    0 < r.region.nbPages := by
  obtain ⟨hpos, hlo, hhi, -⟩ := r.bounds_of_mem_allocations h
  simp only [PfaRegion.endAddr, TiledRegion.firstPage_region] at hhi
  omega

theorem mem_shape {rs : List TiledRegion} {r : TiledRegion} (h : r ∈ rs) :
    (r.firstPage, r.region.nbPages) ∈ shape (rs.map TiledRegion.region) := by
  simp only [shape, List.map_map]
  exact List.mem_map_of_mem (f := (fun r : PfaRegion => (r.firstPage, r.nbPages)) ∘
    TiledRegion.region) h

/-- All allocations are apart. -/
theorem pairwise_flatMap_allocations {rs : List TiledRegion}
    (hg : Geometry (shape (rs.map TiledRegion.region))) :
    (rs.flatMap TiledRegion.allocations).Pairwise Apart := by
  rw [List.pairwise_flatMap]
  refine ⟨fun r _ => r.pairwise_allocations, ?_⟩
  have hd := hg.disjoint
  simp only [shape, List.pairwise_map, TiledRegion.firstPage_region] at hd
  refine hd.imp ?_
  intro r s hrs a ha b hb
  have h := hrs (nbPages_pos_of_mem_allocations ha) (nbPages_pos_of_mem_allocations hb)
  obtain ⟨-, halo, hahi, -⟩ := r.bounds_of_mem_allocations ha
  obtain ⟨-, hblo, hbhi, -⟩ := s.bounds_of_mem_allocations hb
  simp only [PfaRegion.endAddr, TiledRegion.firstPage_region] at hahi hbhi
  unfold Apart
  omega

theorem pairwise_live {rs : List TiledRegion}
    (hg : Geometry (shape (rs.map TiledRegion.region))) : (live rs).Pairwise Apart :=
  (pairwise_flatMap_allocations hg).filter _

instance : Std.Symm Apart := ⟨fun _ _ h => Or.symm h⟩

/-- In 32 bits, the address of a page of a region is computed without wrap-around. -/
theorem pageAddr_of_lt {r : PfaRegion} {page : ℕ} (hb : r.endAddr < 4294967296)
    (hp : page < r.nbPages) : r.pageAddr page = r.firstPage + 4096 * page := by
  have hlt : r.firstPage + 4096 * page < 4294967296 := by
    unfold PfaRegion.endAddr at hb
    omega
  rw [PfaRegion.pageAddr, Word32.add_mul_wrap, Word32.wrap_of_lt hlt]

/-- In a region that ends below `2 ^ 32` the addresses returned are those of the pages. -/
theorem TiledRegion.handedOut_eq {r : TiledRegion}
    (hb : 0 < r.region.nbPages → r.region.endAddr < 4294967296) :
    r.handedOut = r.allocations :=
  allocationsFrom_congr fun i (hi : i < r.region.nbPages) => pageAddr_of_lt (hb (by omega)) hi

/-! ## Allocation -/

/-- The number of free pages. -/
def freeCount (rs : List TiledRegion) : ℕ := (rs.map fun r => r.blocks.count .free).sum

/-- The allocations that callers hold, with the addresses that were returned to them. -/
def liveHandedOut (rs : List TiledRegion) : List (ℕ × ℕ) :=
  (rs.flatMap TiledRegion.handedOut).filter fun a => a.1 ≠ badPage

/-- An allocation in one region, as a step on rows of blocks. -/
private theorem pfaAllocRegion_tiled {n : ℕ} (hn : 0 < n) (r : TiledRegion) :
    ∃ p r', pfaAllocRegion r.region n = .ok (p, TiledRegion.region r') ∧
      r'.firstPage = r.firstPage ∧ r'.region.nbPages = r.region.nbPages ∧
      (p = badPage ∧ r' = r ∧ (n = 1 → .free ∉ r.blocks) ∨
        r'.handedOut.Perm ((p, n) :: r.handedOut) ∧
        r'.blocks.count .free + n = r.blocks.count .free ∧
        ∀ b ∈ r'.blocks, b ∈ r.blocks ∨ b = .allocated n) := by
  rcases pfaAllocRegion_spec r hn with ⟨hbad, hnone⟩ | ⟨l, rest, hbs, halloc⟩
  · exact ⟨badPage, r, hbad, rfl, rfl, .inl ⟨rfl, rfl, hnone⟩⟩
  · have hpages := PageBlock.pages_allocated hn
    have hne := PageBlock.allocated_ne_free n
    have hlen : (layout PageBlock.cells (l ++ PageBlock.allocated n :: rest)).length =
        (layout PageBlock.cells r.blocks).length := by
      rw [hbs]
      simp only [layout_append, layout_cons, List.length_append,
        layout_replicate PageBlock.cells (t := .free) rfl, List.length_replicate]
      change _ + ((PageBlock.allocated n).pages + _) = _
      omega
    refine ⟨_, _, halloc, rfl, hlen, .inr ⟨?_, ?_, ?_⟩⟩
    · have h := TiledRegion.allocationsFrom_perm r.region.pageAddr l rest hne hpages
      rw [← hbs] at h
      exact h
    · rw [hbs]
      simp only [List.count_append, List.count_cons, List.count_replicate_self, beq_iff_eq,
        if_neg hne]
      omega
    · intro b hb
      rw [hbs]
      simp only [List.mem_append, List.mem_cons] at hb ⊢
      tauto

/-- **The loop of `pfa_alloc`** on rows of blocks: what is handed out, and that a call
for one page takes at least one free page when there is one. -/
theorem pfaAllocRegions_tiled {n : ℕ} (hn : 0 < n) (rs : List TiledRegion) :
    ∃ p rs', pfaAllocRegions n (rs.map TiledRegion.region) =
        .ok (p, List.map TiledRegion.region rs') ∧
      shape (rs'.map TiledRegion.region) = shape (rs.map TiledRegion.region) ∧
      (liveHandedOut rs').Perm
        (if p = badPage then liveHandedOut rs else (p, n) :: liveHandedOut rs) ∧
      (n = 1 → freeCount rs' ≤ freeCount rs - 1) ∧
      ∀ r' ∈ rs', ∀ b ∈ r'.blocks, b = .allocated n ∨ ∃ r ∈ rs, b ∈ r.blocks := by
  induction rs with
  | nil => exact ⟨badPage, [], rfl, rfl, by simp [liveHandedOut], by simp [freeCount], by simp⟩
  | cons r rs ih =>
    obtain ⟨p, rs', hrun, hshape, hperm, hcount, hblocks⟩ := ih
    obtain ⟨q, r', halloc, hfirst, hlen, hcases⟩ := pfaAllocRegion_tiled hn r
    simp only [List.map_cons, pfaAllocRegions, halloc, Run.ok_bind]
    rcases hcases with ⟨rfl, rfl, hnone⟩ | ⟨hhand, hfree, hmem⟩
    · refine ⟨p, r' :: rs', by simp [hrun], by simpa [shape] using hshape, ?_, ?_, ?_⟩
      · simp only [liveHandedOut, List.flatMap_cons, List.filter_append] at hperm ⊢
        split_ifs at hperm ⊢
        · exact hperm.append_left _
        · exact (hperm.append_left _).trans List.perm_middle
      · intro h1
        have hzero := List.count_eq_zero_of_not_mem (hnone h1)
        have hle := hcount h1
        simp only [freeCount, List.map_cons, List.sum_cons] at hle ⊢
        omega
      · rintro s hs b hb
        rcases List.mem_cons.mp hs with rfl | hs
        · exact .inr ⟨s, List.mem_cons_self .., hb⟩
        · obtain h | ⟨t, ht, hbt⟩ := hblocks s hs b hb
          · exact .inl h
          · exact .inr ⟨t, List.mem_cons_of_mem _ ht, hbt⟩
    · have hhead := hhand.filter fun a => a.1 ≠ badPage
      have hhere : ∀ b ∈ r'.blocks, b = .allocated n ∨ ∃ t ∈ r :: rs, b ∈ t.blocks := by
        intro b hb
        exact (hmem b hb).symm.imp_right fun h => ⟨r, List.mem_cons_self .., h⟩
      by_cases hz : q = badPage
      · -- the page at address 0 is marked but not handed out, and the search goes on
        rw [List.filter_cons_of_neg (by simpa using hz)] at hhead
        refine ⟨p, r' :: rs', by simp [hz, hrun], by simpa [shape, hlen, hfirst] using hshape,
          ?_, ?_, ?_⟩
        · simp only [liveHandedOut, List.flatMap_cons, List.filter_append] at hperm ⊢
          split_ifs at hperm ⊢
          · exact hhead.append hperm
          · exact (hhead.append hperm).trans List.perm_middle
        · intro h1
          have hle := hcount h1
          simp only [freeCount, List.map_cons, List.sum_cons] at hle ⊢
          omega
        · rintro s hs b hb
          rcases List.mem_cons.mp hs with rfl | hs
          · exact hhere b hb
          · obtain h | ⟨t, ht, hbt⟩ := hblocks s hs b hb
            · exact .inl h
            · exact .inr ⟨t, List.mem_cons_of_mem _ ht, hbt⟩
      · rw [List.filter_cons_of_pos (by simpa using hz)] at hhead
        refine ⟨q, r' :: rs, by simp [hz], by simp [shape, hlen, hfirst], ?_, ?_, ?_⟩
        · simp only [liveHandedOut, List.flatMap_cons, List.filter_append, if_neg hz]
          exact hhead.append_right _
        · intro h1
          simp only [freeCount, List.map_cons, List.sum_cons]
          omega
        · rintro s hs b hb
          rcases List.mem_cons.mp hs with rfl | hs
          · exact hhere b hb
          · exact .inr ⟨s, List.mem_cons_of_mem _ hs, hb⟩

/-- Below `2 ^ 32` the addresses handed out are those of the allocations. -/
theorem liveHandedOut_eq {rs : List TiledRegion}
    (hg : Geometry (shape (rs.map TiledRegion.region))) : liveHandedOut rs = live rs := by
  unfold liveHandedOut live
  congr 1
  refine List.flatMap_congr fun r hr => TiledRegion.handedOut_eq fun hpos => ?_
  exact hg.bounded _ (mem_shape hr) hpos

/-- **Allocation**: `pfa_alloc` always returns, and a result other than `BAD_PAGE` is
one new outstanding allocation. -/
theorem pfaAlloc_spec {pfa : PfaMeta} {out : List (ℕ × ℕ)} (h : PfaInv pfa out) (n : ℕ) :
    ∃ p pfa', pfaAlloc pfa n = .ok (p, pfa') ∧ shape pfa' = shape pfa ∧
      PfaInv pfa' (if p = badPage then out else (p, n) :: out) := by
  obtain ⟨hg, rs, rfl, hperm⟩ := h
  by_cases hn : n = 0
  · exact ⟨badPage, _, by simp [pfaAlloc, hn], rfl, hg, rs, rfl, by simpa using hperm⟩
  · obtain ⟨p, rs', hrun, hshape, hlive, -, -⟩ := pfaAllocRegions_tiled (n := n) (by omega) rs
    have hg' : Geometry (shape (rs'.map TiledRegion.region)) := hshape ▸ hg
    rw [liveHandedOut_eq hg, liveHandedOut_eq hg'] at hlive
    refine ⟨p, _, by simp [pfaAlloc, hn, hrun], hshape, hg', rs', rfl, hlive.trans ?_⟩
    split_ifs
    · exact hperm
    · exact hperm.cons _

/-- What is known of an allocation that has returned. -/
theorem PfaInv.of_alloc {pfa pfa' : PfaMeta} {out : List (ℕ × ℕ)} {n p : ℕ} (h : PfaInv pfa out)
    (halloc : pfaAlloc pfa n = .ok (p, pfa')) :
    shape pfa' = shape pfa ∧ PfaInv pfa' (if p = badPage then out else (p, n) :: out) := by
  obtain ⟨q, pfa'', hrun, hshape, hinv⟩ := pfaAlloc_spec h n
  rw [halloc] at hrun
  obtain ⟨rfl, rfl⟩ := Prod.mk.inj (Except.ok.inj hrun)
  exact ⟨hshape, hinv⟩

/-! ## Release -/

/-- A region that ends below `2 ^ 32` holds exactly its own addresses. -/
theorem holds_iff {r : PfaRegion} {p : ℕ} (hb : 0 < r.nbPages → r.endAddr < 4294967296) :
    r.holds p = true ↔ r.firstPage ≤ p ∧ p < r.endAddr := by
  unfold PfaRegion.holds
  rw [Word32.add_mul_wrap, decide_eq_true_iff]
  unfold PfaRegion.endAddr at *
  by_cases hn : 0 < r.nbPages
  · rw [Word32.wrap_of_lt (hb hn)]
  · have h0 : r.nbPages = 0 := by omega
    have hle : Word32.wrap r.firstPage ≤ r.firstPage := Nat.mod_le _ _
    rw [h0, Nat.mul_zero, Nat.add_zero]
    omega

/-- `find_region` finds the region that contains a page: no other region holds its address. -/
theorem Geometry.findRegion_eq {before after : PfaMeta} {r : PfaRegion} {p : ℕ}
    (hg : Geometry (shape (before ++ r :: after))) (hlo : r.firstPage ≤ p) (hhi : p < r.endAddr) :
    findRegion (before ++ r :: after) p = some before.length := by
  have hmem : ∀ s ∈ before ++ r :: after,
      (s.firstPage, s.nbPages) ∈ shape (before ++ r :: after) := fun s hs =>
    List.mem_map_of_mem (f := fun r : PfaRegion => (r.firstPage, r.nbPages)) hs
  have hholds : ∀ s ∈ before ++ r :: after,
      (s.holds p = true ↔ s.firstPage ≤ p ∧ p < s.endAddr) := fun s hs =>
    holds_iff fun hpos => hg.bounded _ (hmem s hs) hpos
  unfold findRegion
  rw [List.findIdx?_eq_some_iff_getElem]
  refine ⟨by simp, ?_, fun j hj => ?_⟩
  · have hr := (hholds r (by simp)).mpr ⟨hlo, hhi⟩
    simpa using hr
  · rw [List.getElem_append_left hj]
    have hs : before[j] ∈ before := List.getElem_mem hj
    rw [hholds _ (List.mem_append_left _ hs)]
    rintro ⟨hslo, hshi⟩
    have hd := hg.disjoint
    simp only [shape, List.map_append, List.map_cons, List.pairwise_append] at hd
    have hsr := hd.2.2 _ (List.mem_map_of_mem (f := fun r : PfaRegion => (r.firstPage, r.nbPages)) hs)
      (r.firstPage, r.nbPages) (List.mem_cons_self ..)
    simp only [PfaRegion.endAddr] at *
    omega

/-- What a release does when `find_region` selects `r` and `p` is the address of one
of its blocks. -/
private theorem pfaFree_append {pre post : List TiledRegion} {r : TiledRegion} {p : ℕ}
    {l rest : List PageBlock} {b : PageBlock}
    (hfind : findRegion ((pre ++ r :: post).map TiledRegion.region) p = some pre.length)
    (hbs : r.blocks = l ++ b :: rest) (hb : b ≠ .free) (hoff : p % 4096 = 0)
    (hidx : Word32.sub p r.firstPage / 4096 = (layout PageBlock.cells l).length) :
    pfaFree ((pre ++ r :: post).map TiledRegion.region) p =
      .ok ((pre ++ TiledRegion.mk r.firstPage
        (l ++ (List.replicate b.pages .free ++ rest)) :: post).map TiledRegion.region) := by
  refine pfaFree_eq_ok.mpr
    ⟨_, r.region, _, hfind, by simp, pfaFreeRegion_of_block hbs hb hoff hidx, ?_⟩
  simp [List.set_append_right]

/-- Turning a block of a region into free pages removes one allocation. -/
private theorem flatMap_allocations_free {pre post : List TiledRegion} {r : TiledRegion}
    {l rest : List PageBlock} {b : PageBlock} (hbs : r.blocks = l ++ b :: rest) (hb : b ≠ .free) :
    ((pre ++ r :: post).flatMap TiledRegion.allocations).Perm
      ((r.firstPage + 4096 * (layout PageBlock.cells l).length, b.pages) ::
        (pre ++ TiledRegion.mk r.firstPage
          (l ++ (List.replicate b.pages .free ++ rest)) :: post).flatMap
            TiledRegion.allocations) := by
  have h := TiledRegion.allocationsFrom_perm (fun i => r.firstPage + 4096 * i) l rest hb rfl
  rw [← hbs] at h
  simp only [List.flatMap_append, List.flatMap_cons, TiledRegion.allocations]
  exact ((h.append_right _).append_left _).trans List.perm_middle

private theorem shape_free {pre post : List TiledRegion} {r : TiledRegion}
    {l rest : List PageBlock} {b : PageBlock} (hbs : r.blocks = l ++ b :: rest) :
    shape ((pre ++ TiledRegion.mk r.firstPage
        (l ++ (List.replicate b.pages .free ++ rest)) :: post).map TiledRegion.region) =
      shape ((pre ++ r :: post).map TiledRegion.region) := by
  have hlen : (TiledRegion.mk r.firstPage
      (l ++ (List.replicate b.pages .free ++ rest))).region.nbPages = r.region.nbPages := by
    rw [r.nbPages_region, hbs, TiledRegion.nbPages_region]
    simp [layout_replicate PageBlock.cells (t := .free) rfl, PageBlock.pages]
  simp [shape, hlen]

/-- A block of a region lies between its address and its end. -/
private theorem block_bounds {r : TiledRegion} {l rest : List PageBlock} {b : PageBlock}
    (hbs : r.blocks = l ++ b :: rest) :
    (layout PageBlock.cells l).length + b.pages ≤ r.region.nbPages := by
  rw [r.nbPages_region, hbs, layout_append, layout_cons, List.length_append, List.length_append]
  change _ + b.pages ≤ _ + (b.pages + _)
  omega

/-- The pages of a block that was turned into free pages are free. -/
private theorem frameIs_free {pre post : List TiledRegion} {firstPage i : ℕ}
    {l rest : List PageBlock} {n : ℕ} (hi : i < n) :
    FrameIs ((pre ++ TiledRegion.mk firstPage
        (l ++ (List.replicate n .free ++ rest)) :: post).map TiledRegion.region)
      (firstPage + 4096 * (layout PageBlock.cells l).length + 4096 * i) .free := by
  refine ⟨TiledRegion.region ⟨firstPage, l ++ (List.replicate n .free ++ rest)⟩, by simp,
    (layout PageBlock.cells l).length + i, ?_, by simp only [TiledRegion.firstPage_region]; omega⟩
  simp only [TiledRegion.region, layout_append,
    layout_replicate PageBlock.cells (t := .free) (c := .free) rfl]
  rw [List.getElem?_append_right (by omega), List.getElem?_append_left (by simp; omega)]
  simp [hi]

/-- Where `pfa_free` finds an allocation: a block of the region that `find_region` selects. -/
private theorem exists_block_of_mem {rs : List TiledRegion} {p n : ℕ}
    (hg : Geometry (shape (rs.map TiledRegion.region)))
    (hmem : (p, n) ∈ rs.flatMap TiledRegion.allocations) :
    ∃ pre r post l b rest, rs = pre ++ r :: post ∧ r.blocks = l ++ b :: rest ∧ b ≠ .free ∧
      b.pages = n ∧ p = r.firstPage + 4096 * (layout PageBlock.cells l).length ∧ p % 4096 = 0 ∧
      Word32.sub p r.firstPage / 4096 = (layout PageBlock.cells l).length ∧
      findRegion (rs.map TiledRegion.region) p = some pre.length := by
  obtain ⟨r, hr, hpr⟩ := List.mem_flatMap.mp hmem
  obtain ⟨pre, post, rfl⟩ := List.append_of_mem hr
  obtain ⟨l, b, rest, hbs, hb, rfl, rfl⟩ := TiledRegion.exists_block_of_mem_allocations hpr
  have hpos := nbPages_pos_of_mem_allocations hpr
  have hbound := hg.bounded _ (mem_shape hr) hpos
  have halign := hg.aligned _ (mem_shape hr) hpos
  have hblock := block_bounds hbs
  have hbpos := b.pages_pos
  simp only at hbound halign
  have hend : r.region.endAddr = r.firstPage + 4096 * r.region.nbPages := rfl
  rw [List.map_append, List.map_cons] at hg
  have hfind := hg.findRegion_eq (p := r.firstPage + 4096 * (layout PageBlock.cells l).length)
    (by rw [TiledRegion.firstPage_region]; omega) (by omega)
  rw [List.length_map] at hfind
  have hidx : Word32.sub (r.firstPage + 4096 * (layout PageBlock.cells l).length) r.firstPage /
      4096 = (layout PageBlock.cells l).length := by
    rw [Word32.sub_of_le (by omega) (by omega)]
    omega
  exact ⟨pre, r, post, l, b, rest, rfl, hbs, hb, rfl, rfl, by omega, hidx,
    by rw [List.map_append, List.map_cons, hfind]⟩

/-- **Release of an allocation**: `pfa_free` on the address of an allocation returns,
that allocation is gone, and its pages are free. -/
private theorem pfaFree_tiled_of_mem {rs : List TiledRegion} {p n : ℕ}
    (hg : Geometry (shape (rs.map TiledRegion.region)))
    (hmem : (p, n) ∈ rs.flatMap TiledRegion.allocations) :
    ∃ rs' : List TiledRegion,
      pfaFree (rs.map TiledRegion.region) p = .ok (rs'.map TiledRegion.region) ∧
      shape (rs'.map TiledRegion.region) = shape (rs.map TiledRegion.region) ∧
      (rs.flatMap TiledRegion.allocations).Perm
        ((p, n) :: rs'.flatMap TiledRegion.allocations) ∧
      ∀ i < n, FrameIs (rs'.map TiledRegion.region) (p + 4096 * i) .free := by
  obtain ⟨pre, r, post, l, b, rest, rfl, hbs, hb, rfl, rfl, hoff, hidx, hfind⟩ :=
    exists_block_of_mem hg hmem
  exact ⟨_, pfaFree_append hfind hbs hb hoff hidx,
    shape_free hbs, flatMap_allocations_free hbs hb, fun i hi => frameIs_free hi⟩

/-- **Release, cell by cell**: `pfa_free` on the address of an outstanding allocation of `n` pages
sets `n` cells of one region to `PAGE_FREE`, those of the allocation, and no other cell. -/
theorem pfaFree_cells {pfa : PfaMeta} {out : List (ℕ × ℕ)} (h : PfaInv pfa out) {p n : ℕ}
    (hmem : (p, n) ∈ out) :
    ∃ i r k, pfa[i]? = some r ∧ p = r.firstPage + 4096 * k ∧ k + n ≤ r.nbPages ∧
      pfaFree pfa p = .ok (pfa.set i { r with
        pagemap := r.pagemap.take k ++ (List.replicate n .free ++ r.pagemap.drop (k + n)) }) := by
  obtain ⟨hg, rs, rfl, hperm⟩ := h
  obtain ⟨hrs, -⟩ := List.mem_filter.mp (hperm.mem_iff.mpr hmem)
  obtain ⟨pre, r, post, l, b, rest, rfl, hbs, hb, rfl, rfl, hoff, hidx, hfind⟩ :=
    exists_block_of_mem hg hrs
  have hcells : r.region.pagemap =
      layout PageBlock.cells l ++ (b.cells ++ layout PageBlock.cells rest) := by
    rw [TiledRegion.region, hbs, layout_append, layout_cons]
  have htake : r.region.pagemap.take (layout PageBlock.cells l).length =
      layout PageBlock.cells l := by
    rw [hcells, List.take_left]
  have hdrop : r.region.pagemap.drop ((layout PageBlock.cells l).length + b.pages) =
      layout PageBlock.cells rest := by
    rw [hcells, ← List.drop_drop, List.drop_left, PageBlock.pages, List.drop_left]
  refine ⟨pre.length, r.region, (layout PageBlock.cells l).length, by simp, rfl,
    block_bounds hbs, ?_⟩
  rw [pfaFree_append hfind hbs hb hoff hidx, htake, hdrop]
  simp [TiledRegion.region, List.set_append_right,
    layout_replicate PageBlock.cells (t := .free) (c := .free) rfl]

/-- A release that returns was given the address of an allocation. -/
private theorem mem_of_pfaFree_tiled {rs : List TiledRegion} {p : ℕ} {pfa' : PfaMeta}
    (hg : Geometry (shape (rs.map TiledRegion.region)))
    (h : pfaFree (rs.map TiledRegion.region) p = .ok pfa') :
    ∃ n, (p, n) ∈ rs.flatMap TiledRegion.allocations := by
  obtain ⟨i, region, region', hfind, hread, hfree, -⟩ := pfaFree_eq_ok.mp h
  have hholds := holds_of_findRegion hfind hread
  obtain ⟨r, hr, rfl⟩ := List.mem_map.mp (List.mem_of_getElem? hread)
  obtain ⟨hoff, l, b, rest, hbs, hb, hidx⟩ := block_of_pfaFreeRegion hfree
  have hblock := block_bounds hbs
  have hbpos := b.pages_pos
  have hpos : 0 < r.region.nbPages := by omega
  have hbound := hg.bounded _ (mem_shape hr) hpos
  have halign := hg.aligned _ (mem_shape hr) hpos
  simp only at hbound halign
  rw [holds_iff (r := r.region) fun _ => hbound] at hholds
  have hend : r.region.endAddr = r.firstPage + 4096 * r.region.nbPages := rfl
  rw [hend, TiledRegion.firstPage_region] at hholds
  rw [Word32.sub_of_le hholds.1 (by omega)] at hidx
  have hp : p = r.firstPage + 4096 * (layout PageBlock.cells l).length := by omega
  refine ⟨b.pages, List.mem_flatMap.mpr ⟨r, hr, ?_⟩⟩
  rw [TiledRegion.allocations, hbs, TiledRegion.allocationsFrom_append,
    TiledRegion.allocationsFrom_cons hb, Nat.zero_add, hp]
  exact List.mem_append_right _ (List.mem_cons_self ..)

/-- **Release**: `pfa_free` on the address of an outstanding allocation returns, its
pages are free, and it is not outstanding any more. -/
theorem pfaFree_spec {pfa : PfaMeta} {out : List (ℕ × ℕ)} (h : PfaInv pfa out) {p n : ℕ}
    (hmem : (p, n) ∈ out) :
    ∃ pfa', pfaFree pfa p = .ok pfa' ∧ shape pfa' = shape pfa ∧
      PfaInv pfa' (out.erase (p, n)) ∧ ∀ i < n, FrameIs pfa' (p + 4096 * i) .free := by
  obtain ⟨hg, rs, rfl, hperm⟩ := h
  obtain ⟨hrs, hne⟩ := List.mem_filter.mp (hperm.mem_iff.mpr hmem)
  obtain ⟨rs', hfree, hshape, hrs, hpages⟩ := pfaFree_tiled_of_mem hg hrs
  refine ⟨_, hfree, hshape, ⟨hshape ▸ hg, rs', rfl, ?_⟩, hpages⟩
  have hcons := hrs.filter fun a => a.1 ≠ badPage
  rw [List.filter_cons_of_pos (by simpa using hne)] at hcons
  have herase := (hperm.symm.trans hcons).erase (p, n)
  rw [List.erase_cons_head] at herase
  exact herase.symm

theorem PfaInv.pairwise {pfa : PfaMeta} {out : List (ℕ × ℕ)} (h : PfaInv pfa out) :
    out.Pairwise Apart := by
  obtain ⟨hg, rs, rfl, hperm⟩ := h
  exact hperm.pairwise (pairwise_live hg) fun h => Or.symm h

/-- Every outstanding allocation consists of whole pages of one region. -/
theorem PfaInv.bounds {pfa : PfaMeta} {out : List (ℕ × ℕ)} (h : PfaInv pfa out) {p n : ℕ}
    (hmem : (p, n) ∈ out) :
    0 < n ∧ p ≠ badPage ∧ p % 4096 = 0 ∧
      ∃ r ∈ pfa, r.firstPage ≤ p ∧ p + 4096 * n ≤ r.endAddr ∧ r.endAddr < 4294967296 := by
  obtain ⟨hg, rs, rfl, hperm⟩ := h
  obtain ⟨hrs, hne⟩ := List.mem_filter.mp (hperm.mem_iff.mpr hmem)
  obtain ⟨r, hr, hpr⟩ := List.mem_flatMap.mp hrs
  have hpos := nbPages_pos_of_mem_allocations hpr
  have halign := hg.aligned _ (mem_shape hr) hpos
  obtain ⟨hn, hlo, hhi, hmod⟩ := r.bounds_of_mem_allocations hpr
  simp only at hn hlo hhi hmod halign
  exact ⟨hn, by simpa using hne, by omega, r.region, List.mem_map_of_mem hr, hlo, hhi,
    hg.bounded _ (mem_shape hr) hpos⟩

/-- A release that returns was given the address of an outstanding allocation, or the
page at address `0`. -/
theorem mem_of_pfaFree {pfa pfa' : PfaMeta} {out : List (ℕ × ℕ)} (h : PfaInv pfa out) {p : ℕ}
    (hfree : pfaFree pfa p = .ok pfa') :
    (∃ n, (p, n) ∈ out) ∨ (p = badPage ∧ shape pfa' = shape pfa ∧ PfaInv pfa' out) := by
  obtain ⟨hg, rs, rfl, hperm⟩ := h
  obtain ⟨n, hn⟩ := mem_of_pfaFree_tiled hg hfree
  by_cases hp : p = badPage
  · obtain ⟨rs', hfree', hshape, hrs, -⟩ := pfaFree_tiled_of_mem hg hn
    rw [hfree] at hfree'
    obtain rfl := Except.ok.inj hfree'
    refine .inr ⟨hp, hshape, hshape ▸ hg, rs', rfl, ?_⟩
    have hcons := hrs.filter fun a => a.1 ≠ badPage
    rw [List.filter_cons_of_neg (by simp [hp])] at hcons
    exact hcons.symm.trans hperm
  · exact .inl ⟨n, hperm.mem_iff.mp (List.mem_filter.mpr ⟨hn, by simpa using hp⟩)⟩

end Ahos
