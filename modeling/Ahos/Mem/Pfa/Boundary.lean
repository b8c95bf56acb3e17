import Ahos.Mem.Pfa.Init
import Ahos.Mem.Pfa.Runs
import Mathlib.Data.List.Flatten

/-!
# Release up to the 4 GB boundary

`pfa_alloc` never computes the end of a region, and `pfa_free` computes it as a
32-bit sum. A region whose last page ends at or above `2 ^ 32` therefore hands out
pages that no region takes back. This module says exactly for which regions every
outstanding allocation can be released.
-/

namespace Ahos

open Tiling

/-- Every address that was handed out and is outstanding can be released, and its pages
are free afterwards. -/
def TakesBack (pfa : PfaMeta) : Prop :=
  ∀ ops s, Run.run PfaState.step ⟨pfa, []⟩ ops = .ok s →
    ∀ p n, (p, n) ∈ s.outstanding →
      ∃ pfa', pfaFree s.pfa p = .ok pfa' ∧ ∀ i < n, FrameIs pfa' (p + 4096 * i) .free

/-! ## Releasing twice -/

/-- The loop of `pfa_free` frees the cell it starts at. -/
theorem freeBlock_head {cells cells' : List PageState} {i : ℕ}
    (h : freeBlock cells i = .ok cells') :
    cells'.length = cells.length ∧ cells'[i]? = some .free ∧ ∀ j < i, cells'[j]? = cells[j]? := by
  fun_induction freeBlock cells i with
  | case1 => cases h
  | case2 => cases h
  | case3 => cases h
  | case4 cells i c hc _ hi _ ih =>
    obtain ⟨hlen, -, hbelow⟩ := ih h
    refine ⟨by simpa using hlen, ?_, fun j hj => ?_⟩
    · rw [hbelow i (by omega), List.getElem?_set_self (by omega)]
    · rw [hbelow j (by omega), List.getElem?_set_ne (by omega)]
  | case5 cells i c hc _ =>
    obtain rfl := Except.ok.inj h
    have hi := (List.getElem?_eq_some_iff.mp hc).1
    exact ⟨by simp, List.getElem?_set_self hi, fun j hj => List.getElem?_set_ne (by omega)⟩

/-- A release in a region keeps the place of the region and frees the page. -/
theorem pfaFreeRegion_head {r r' : PfaRegion} {p : ℕ} (h : pfaFreeRegion r p = .ok r') :
    r'.firstPage = r.firstPage ∧ r'.nbPages = r.nbPages ∧
      r'.pagemap[Word32.sub p r.firstPage / 4096]? = some .free := by
  obtain ⟨-, ⟨hc, rfl⟩ | ⟨-, cells, hcells, rfl⟩⟩ := pfaFreeRegion_cases h
  · have hi := (List.getElem?_eq_some_iff.mp hc).1
    exact ⟨rfl, by simp [PfaRegion.nbPages], List.getElem?_set_self hi⟩
  · obtain ⟨hlen, hhead, -⟩ := freeBlock_head hcells
    exact ⟨rfl, hlen, hhead⟩

/-- A release keeps the places of the regions. -/
theorem shape_pfaFree {pfa pfa' : PfaMeta} {p : ℕ} (h : pfaFree pfa p = .ok pfa') :
    shape pfa' = shape pfa := by
  obtain ⟨i, r, r', -, hr, hfree, rfl⟩ := pfaFree_eq_ok.mp h
  obtain ⟨hfirst, hnb, -⟩ := pfaFreeRegion_head hfree
  obtain ⟨hi, rfl⟩ := List.getElem?_eq_some_iff.mp hr
  rw [shape, List.map_set, hfirst, hnb,
    ← List.getElem_map (fun r : PfaRegion => (r.firstPage, r.nbPages)) (h := by simpa),
    List.set_getElem_self]
  rfl

/-- Releasing a page that is already free panics. -/
theorem pfaFreeRegion_free {r r' : PfaRegion} {p : ℕ}
    (h : r.pagemap[Word32.sub p r.firstPage / 4096]? = some .free) :
    pfaFreeRegion r p ≠ .ok r' := by
  intro hok
  obtain ⟨-, ⟨hc, -⟩ | ⟨hc, -⟩⟩ := pfaFreeRegion_cases hok
  · rw [h] at hc
    cases hc
  · rw [h] at hc
    cases hc

/-- **An address cannot be released twice in a row.** -/
theorem pfaFree_twice {pfa pfa' pfa'' : PfaMeta} {p : ℕ} (h : pfaFree pfa p = .ok pfa') :
    pfaFree pfa' p ≠ .ok pfa'' := by
  intro h'
  obtain ⟨i, r, r', hfind, hr, hfree, rfl⟩ := pfaFree_eq_ok.mp h
  obtain ⟨hfirst, hnb, hcell⟩ := pfaFreeRegion_head hfree
  obtain ⟨hi, hget⟩ := List.getElem?_eq_some_iff.mp hr
  -- the region keeps its place, so the search finds it again
  have hfind' : findRegion (pfa.set i r') p = some i := by
    have hholds := holds_of_findRegion hfind hr
    unfold findRegion at hfind ⊢
    rw [List.findIdx?_eq_some_iff_getElem] at hfind ⊢
    obtain ⟨_, -, hbefore⟩ := hfind
    refine ⟨by simpa using hi, ?_, fun j hj => ?_⟩
    · rw [List.getElem_set_self]
      simpa only [PfaRegion.holds, hfirst, hnb] using hholds
    · rw [List.getElem_set_ne (by omega)]
      exact hbefore j hj
  obtain ⟨k, s, s', hk, hs, hfree', -⟩ := pfaFree_eq_ok.mp h'
  obtain rfl := Option.some.inj (hfind'.symm.trans hk)
  rw [List.getElem?_set_self hi] at hs
  obtain rfl := Option.some.inj hs
  exact pfaFreeRegion_free (by rwa [hfirst]) hfree'

/-- An address that is outstanding twice cannot be released twice. -/
theorem not_takesBack_of_twice {pfa : PfaMeta} {ops : List PfaOp} {s : PfaState} {p n : ℕ}
    (hrun : Run.run PfaState.step ⟨pfa, []⟩ ops = .ok s)
    (hmem : (p, n) ∈ s.outstanding)
    (hagain : (p, n) ∈ s.outstanding.eraseP fun a => a.1 = p) : ¬ TakesBack pfa := by
  intro h
  obtain ⟨pfa', hfree, -⟩ := h ops s hrun p n hmem
  have hstep : Run.run PfaState.step ⟨pfa, []⟩ (ops ++ [.free p]) =
      .ok ⟨pfa', s.outstanding.eraseP fun a => a.1 = p⟩ := by
    rw [Run.run_append, hrun, Run.ok_bind, Run.run_cons]
    simp [PfaState.step, hfree]
  obtain ⟨pfa'', hfree', -⟩ := h _ _ hstep p n hagain
  exact pfaFree_twice hfree hfree'

/-! ## Taking every page -/

/-- The row of a region in which every page is free. -/
def freeRow (r : PfaRegion) : TiledRegion := ⟨r.firstPage, List.replicate r.nbPages .free⟩

/-- Calls for one page until no page is left: every page is used, and all of them were
handed out, each at its 32-bit address. -/
theorem exhaust (k : ℕ) (rs : List TiledRegion) (out : List (ℕ × ℕ))
    (hcount : freeCount rs ≤ k) (hout : (liveHandedOut rs).Perm out)
    (hsingle : ∀ r ∈ rs, ∀ b ∈ r.blocks, b = .free ∨ b = .used) :
    ∃ (rs' : List TiledRegion) (out' : List (ℕ × ℕ)),
      Run.run PfaState.step ⟨rs.map TiledRegion.region, out⟩ (List.replicate k (.alloc 1)) =
        .ok ⟨rs'.map TiledRegion.region, out'⟩ ∧
      shape (rs'.map TiledRegion.region) = shape (rs.map TiledRegion.region) ∧
      (liveHandedOut rs').Perm out' ∧ ∀ r ∈ rs', ∀ b ∈ r.blocks, b = .used := by
  induction k generalizing rs out with
  | zero =>
    refine ⟨rs, out, rfl, rfl, hout, fun r hr b hb => ?_⟩
    have hzero : r.blocks.count .free = 0 := by
      have hsum := Nat.le_zero.mp hcount
      unfold freeCount at hsum
      exact List.sum_eq_zero_iff_forall_eq_nat.mp hsum _ (List.mem_map_of_mem hr)
    refine (hsingle r hr b hb).resolve_left ?_
    rintro rfl
    exact List.count_eq_zero.mp hzero hb
  | succ k ih =>
    obtain ⟨p, rs₁, hrun, hshape, hlive, hle, hblocks⟩ := pfaAllocRegions_tiled one_pos rs
    have hsingle₁ : ∀ r ∈ rs₁, ∀ b ∈ r.blocks, b = .free ∨ b = .used := by
      intro r hr b hb
      rcases hblocks r hr b hb with rfl | ⟨t, ht, hbt⟩
      · exact .inr rfl
      · exact hsingle t ht b hbt
    have hout₁ : (liveHandedOut rs₁).Perm (if p = badPage then out else (p, 1) :: out) := by
      refine hlive.trans ?_
      split_ifs
      · exact hout
      · exact hout.cons _
    obtain ⟨rs', out', hrest, hshape', hlive', hused⟩ :=
      ih rs₁ _ (by have := hle rfl; omega) hout₁ hsingle₁
    refine ⟨rs', out', ?_, hshape'.trans hshape, hlive', hused⟩
    have hstep : PfaState.step ⟨rs.map TiledRegion.region, out⟩ (.alloc 1) =
        .ok ⟨rs₁.map TiledRegion.region, if p = badPage then out else (p, 1) :: out⟩ := by
      simp [PfaState.step, pfaAlloc, hrun]
    rw [List.replicate_succ, Run.run_cons, hstep, Run.ok_bind, hrest]

/-- What a region of used pages has handed out. -/
theorem handedOut_used {r : TiledRegion} (h : ∀ b ∈ r.blocks, b = .used) :
    r.region.nbPages = r.blocks.length ∧
      r.handedOut = (List.range r.blocks.length).map fun k => (r.region.pageAddr k, 1) := by
  have hrow : r.blocks = List.replicate r.blocks.length .used := List.eq_replicate_iff.mpr ⟨rfl, h⟩
  have hgen : ∀ (addr : ℕ → ℕ) (n off : ℕ),
      TiledRegion.allocationsFrom addr off (List.replicate n .used) =
        (List.range n).map fun k => (addr (off + k), 1) := by
    intro addr n
    induction n with
    | zero => exact fun _ => rfl
    | succ n ih =>
      intro off
      rw [List.replicate_succ, TiledRegion.allocationsFrom_cons (by simp), List.range_succ_eq_map,
        List.map_cons, List.map_map]
      have := ih (off + PageBlock.used.pages)
      simp only [PageBlock.pages, PageBlock.cells, List.length_singleton] at this ⊢
      rw [this]
      simp [Function.comp, Nat.add_assoc, Nat.add_comm 1]
  constructor
  · rw [TiledRegion.nbPages_region, hrow, layout_replicate PageBlock.cells (t := .used) rfl]
    simp
  · have := hgen r.region.pageAddr r.blocks.length 0
    rw [← hrow] at this
    simpa [TiledRegion.handedOut] using this

theorem mem_handedOut_used {r : TiledRegion} (h : ∀ b ∈ r.blocks, b = .used) {p : ℕ} :
    (p, 1) ∈ r.handedOut ↔ ∃ k < r.region.nbPages, p = r.region.pageAddr k := by
  obtain ⟨hnb, hout⟩ := handedOut_used h
  rw [hout, hnb]
  simp only [List.mem_map, List.mem_range, Prod.mk.injEq, and_true, eq_comm]

/-! ## The places of the regions -/

/-- What is true of the regions of every map that `pfa_init` accepts: they start at
page-aligned 32-bit addresses, have fewer than `2 ^ 20` pages, and at most one of them
starts at address `0`. -/
structure InitPlaces (places : List (ℕ × ℕ)) : Prop where
  aligned : ∀ a ∈ places, a.1 % 4096 = 0
  word : ∀ a ∈ places, a.1 < 4294967296
  small : ∀ a ∈ places, a.2 < 1048576
  nonzero : places.Pairwise fun a b => 0 < a.1 ∨ 0 < b.1

/-- A region that ends at or above `2 ^ 32` does not hold its first page. -/
theorem not_holds_first {r : PfaRegion} (hnb : r.nbPages < 1048576)
    (hend : 4294967296 ≤ r.endAddr) (hword : r.firstPage < 4294967296) :
    r.holds r.firstPage = false := by
  unfold PfaRegion.holds
  rw [Word32.add_mul_wrap, decide_eq_false_iff_not]
  unfold PfaRegion.endAddr at hend
  have : Word32.wrap (r.firstPage + 4096 * r.nbPages) =
      r.firstPage + 4096 * r.nbPages - 4294967296 := by
    unfold Word32.wrap
    omega
  omega

/-- An address that a region holds is one of its pages. -/
theorem pageAddr_of_holds {r : PfaRegion} {p : ℕ} (h : r.holds p = true)
    (halign : r.firstPage % 4096 = 0) (hp : p % 4096 = 0) :
    ∃ k < r.nbPages, p = r.pageAddr k := by
  unfold PfaRegion.holds at h
  rw [Word32.add_mul_wrap, decide_eq_true_iff] at h
  have hle : Word32.wrap (r.firstPage + 4096 * r.nbPages) ≤ r.firstPage + 4096 * r.nbPages :=
    Nat.mod_le _ _
  have hlt := Word32.wrap_lt (r.firstPage + 4096 * r.nbPages)
  refine ⟨(p - r.firstPage) / 4096, by omega, ?_⟩
  have hsum : r.firstPage + 4096 * ((p - r.firstPage) / 4096) = p := by omega
  rw [PfaRegion.pageAddr, Word32.add_mul_wrap, hsum, Word32.wrap_of_lt (by omega)]

/-- A row of free pages stands for a region whose pages are all free. -/
theorem region_freeRow {r : PfaRegion} (h : ∀ c ∈ r.pagemap, c = .free) :
    (freeRow r).region = r := by
  have hmap : r.pagemap = List.replicate r.nbPages .free := List.eq_replicate_iff.mpr ⟨rfl, h⟩
  obtain ⟨p, cells⟩ := r
  simp only [freeRow, TiledRegion.region, layout_replicate PageBlock.cells (t := .free) rfl]
  rw [← hmap]

theorem liveHandedOut_freeRow (pfa : PfaMeta) : liveHandedOut (pfa.map freeRow) = [] := by
  have hnone : ∀ r, (freeRow r).handedOut = [] := by
    intro r
    have h := TiledRegion.allocationsFrom_replicate_free (freeRow r).region.pageAddr 0 r.nbPages []
    rw [List.append_nil] at h
    exact h
  simp [liveHandedOut, List.flatMap_map, hnone]

/-- A state in which every page has been taken by a call for one page. -/
structure Exhausted (pfa : PfaMeta) (ops : List PfaOp) (rs : List TiledRegion)
    (out : List (ℕ × ℕ)) : Prop where
  run : Run.run PfaState.step ⟨pfa, []⟩ ops = .ok ⟨rs.map TiledRegion.region, out⟩
  shape_eq : shape (rs.map TiledRegion.region) = shape pfa
  out_perm : (liveHandedOut rs).Perm out
  used : ∀ r ∈ rs, ∀ b ∈ r.blocks, b = .used

/-- Free regions can be exhausted. -/
theorem exists_exhausted {pfa : PfaMeta} (hfree : ∀ r ∈ pfa, ∀ c ∈ r.pagemap, c = .free) :
    ∃ ops rs out, Exhausted pfa ops rs out := by
  have hrows : (pfa.map freeRow).map TiledRegion.region = pfa := by
    rw [List.map_map]
    exact (List.map_congr_left fun r hr => region_freeRow (hfree r hr)).trans (List.map_id _)
  obtain ⟨rs, out, hrun, hshape, hout, hused⟩ := exhaust (freeCount (pfa.map freeRow))
    (pfa.map freeRow) [] le_rfl (by rw [liveHandedOut_freeRow]) fun r hr b hb => by
      obtain ⟨s, -, rfl⟩ := List.mem_map.mp hr
      exact .inl (List.eq_of_mem_replicate hb)
  rw [hrows] at hrun hshape
  exact ⟨_, rs, out, hrun, hshape, hout, hused⟩

section Exhausted

variable {pfa : PfaMeta} {ops : List PfaOp} {rs : List TiledRegion} {out : List (ℕ × ℕ)}

/-- When every outstanding address can be released, no address is handed out by two
regions. -/
theorem Exhausted.handedOut_once (hex : Exhausted pfa ops rs out) (h : TakesBack pfa) {p : ℕ}
    (hp : p ≠ 0) : rs.Pairwise fun r s => (p, 1) ∈ r.handedOut → (p, 1) ∉ s.handedOut := by
  rw [List.pairwise_iff_forall_sublist]
  intro r s hsub hr hs
  have hcount : 2 ≤ out.count (p, 1) := by
    have hle := ((List.Sublist.flatMap hsub TiledRegion.handedOut).filter
      fun a => a.1 ≠ badPage).count_le (p, 1)
    have hone : ∀ t : TiledRegion, (p, 1) ∈ t.handedOut →
        1 ≤ (t.handedOut.filter fun a => a.1 ≠ badPage).count (p, 1) := by
      intro t ht
      exact List.count_pos_iff.mpr (List.mem_filter.mpr ⟨ht, decide_eq_true hp⟩)
    simp only [List.flatMap_cons, List.flatMap_nil, List.append_nil, List.filter_append,
      List.count_append] at hle
    have := hone r hr
    have := hone s hs
    rw [← hex.out_perm.count_eq]
    unfold liveHandedOut
    omega
  -- every outstanding allocation has one page
  have hpage : ∀ a ∈ out, a.1 = p → a = (p, 1) := by
    rintro ⟨q, n⟩ ha rfl
    obtain ⟨ha, -⟩ := List.mem_filter.mp (hex.out_perm.mem_iff.mpr ha)
    obtain ⟨t, ht, hat⟩ := List.mem_flatMap.mp ha
    rw [(handedOut_used (hex.used t ht)).2, List.mem_map] at hat
    obtain ⟨k, -, hk⟩ := hat
    rw [← (Prod.mk.inj hk).2]
  have hmem : (p, 1) ∈ out := List.count_pos_iff.mp (by omega)
  refine not_takesBack_of_twice (p := p) (n := 1) hex.run hmem ?_ h
  rw [eraseP_eq_erase hpage]
  refine List.count_pos_iff.mp ?_
  rw [List.count_erase_self]
  omega

/-- When every outstanding address can be released, no region ends at or above `2 ^ 32`:
another region would have to hold the address of its first page. -/
theorem Exhausted.bounded (hex : Exhausted pfa ops rs out) (h : TakesBack pfa)
    (hplaces : InitPlaces (shape (rs.map TiledRegion.region))) :
    ∀ r ∈ rs, 0 < r.region.nbPages → r.region.endAddr < 4294967296 := by
  intro r hr hpos
  by_contra hend
  have hsmall := hplaces.small _ (mem_shape hr)
  have hw := hplaces.word _ (mem_shape hr)
  have hne : r.firstPage ≠ 0 := by
    intro h0
    simp only [PfaRegion.endAddr, TiledRegion.firstPage_region, h0] at hend
    omega
  have hfirst : (r.firstPage, 1) ∈ r.handedOut := by
    refine (mem_handedOut_used (hex.used r hr)).mpr ⟨0, hpos, ?_⟩
    rw [PfaRegion.pageAddr, Word32.add_mul_wrap, Nat.mul_zero, Nat.add_zero]
    exact (Word32.wrap_of_lt hw).symm
  have hmem : (r.firstPage, 1) ∈ out := by
    refine hex.out_perm.mem_iff.mp
      (List.mem_filter.mpr ⟨List.mem_flatMap.mpr ⟨r, hr, hfirst⟩, decide_eq_true hne⟩)
  obtain ⟨pfa', hback, -⟩ := h _ _ hex.run _ _ hmem
  obtain ⟨s, hs, hholds⟩ : ∃ s ∈ rs, s.region.holds r.firstPage = true := by
    obtain ⟨i, region, -, hfind, hget, -⟩ := pfaFree_eq_ok.mp hback
    obtain ⟨s, hs, rfl⟩ := List.mem_map.mp (List.mem_of_getElem? hget)
    exact ⟨s, hs, holds_of_findRegion hfind hget⟩
  have hrs : r ≠ s := by
    rintro rfl
    have := not_holds_first (r := r.region) hsmall (by omega) hw
    rw [TiledRegion.firstPage_region, hholds] at this
    cases this
  have hsecond : (r.firstPage, 1) ∈ s.handedOut :=
    (mem_handedOut_used (hex.used s hs)).mpr (pageAddr_of_holds hholds
      (hplaces.aligned _ (mem_shape hs)) (hplaces.aligned _ (mem_shape hr)))
  have hsymm : Std.Symm fun a b : TiledRegion =>
      (r.firstPage, 1) ∈ a.handedOut → (r.firstPage, 1) ∉ b.handedOut :=
    ⟨fun _ _ hab hb ha => hab ha hb⟩
  exact (hex.handedOut_once h hne).forall hr hs hrs hfirst hsecond

/-- When every outstanding address can be released, the regions do not overlap: the
larger of the two starts would be a page of both. -/
theorem Exhausted.disjoint (hex : Exhausted pfa ops rs out) (h : TakesBack pfa)
    (hplaces : InitPlaces (shape (rs.map TiledRegion.region))) :
    rs.Pairwise fun r s => 0 < r.region.nbPages → 0 < s.region.nbPages →
      r.region.endAddr ≤ s.firstPage ∨ s.region.endAddr ≤ r.firstPage := by
  have hbounded := hex.bounded h hplaces
  have hnonzero := hplaces.nonzero
  simp only [shape, List.map_map, List.pairwise_map, Function.comp] at hnonzero
  rw [List.pairwise_iff_forall_sublist] at hnonzero ⊢
  intro r s hsub hr hs
  by_contra hover
  have hrmem : r ∈ rs := hsub.subset (by simp)
  have hsmem : s ∈ rs := hsub.subset (by simp)
  have hra := hplaces.aligned _ (mem_shape hrmem)
  have hsa := hplaces.aligned _ (mem_shape hsmem)
  have hnz := hnonzero hsub
  simp only [PfaRegion.endAddr, TiledRegion.firstPage_region] at hover hnz hra hsa
  have hpage : ∀ t ∈ rs, 0 < t.region.nbPages →
      t.firstPage ≤ max r.firstPage s.firstPage →
      max r.firstPage s.firstPage < t.firstPage + 4096 * t.region.nbPages →
      (max r.firstPage s.firstPage, 1) ∈ t.handedOut := by
    intro t ht hpos hlo hhi
    refine (mem_handedOut_used (hex.used t ht)).mpr
      (pageAddr_of_holds ?_ (hplaces.aligned _ (mem_shape ht)) ?_)
    · exact (holds_iff fun _ => hbounded t ht hpos).mpr ⟨hlo, hhi⟩
    · rcases max_choice r.firstPage s.firstPage with hmax | hmax <;> omega
  have hne : max r.firstPage s.firstPage ≠ 0 := by omega
  exact List.pairwise_iff_forall_sublist.mp (hex.handedOut_once h hne) hsub
    (hpage r hrmem hr (by omega) (by omega)) (hpage s hsmem hs (by omega) (by omega))

end Exhausted

/-- **Exactly when the allocator takes back what it hands out**: when the regions that
contain pages end below `2 ^ 32` and do not overlap. -/
theorem takesBack_iff_geometry {pfa : PfaMeta} (hfree : ∀ r ∈ pfa, ∀ c ∈ r.pagemap, c = .free)
    (hplaces : InitPlaces (shape pfa)) : TakesBack pfa ↔ Geometry (shape pfa) := by
  constructor
  · intro h
    obtain ⟨ops, rs, out, hex⟩ := exists_exhausted hfree
    rw [← hex.shape_eq] at hplaces ⊢
    refine ⟨fun a ha _ => hplaces.aligned a ha, ?_, ?_⟩
    · intro a ha hpos
      simp only [shape, List.map_map, List.mem_map] at ha
      obtain ⟨r, hr, rfl⟩ := ha
      exact hex.bounded h hplaces r hr hpos
    · simp only [shape, List.map_map, List.pairwise_map, Function.comp]
      exact hex.disjoint h hplaces
  · intro hg ops s hrun p n hmem
    obtain ⟨hinv, -⟩ := PfaState.run_inv (pfaInv_of_free hg hfree) hrun
    obtain ⟨pfa', hback, -, -, hpages⟩ := pfaFree_spec hinv hmem
    exact ⟨pfa', hback, hpages⟩

/-! ## The regions of an accepted map -/

/-- The entries that `fill_phys_mmap` writes have 32-bit addresses and lengths. -/
theorem fillPhysMmap_word {mmap : List MultibootMmapEntry} {e : PhysMmapEntry}
    (h : e ∈ fillPhysMmap mmap) : e.addr < 4294967296 ∧ e.len < 4294967296 := by
  obtain ⟨m, -, hm⟩ := List.mem_filterMap.mp h
  split_ifs at hm
  obtain rfl := Option.some.inj hm
  refine ⟨lt_of_le_of_lt Nat.and_le_right (by norm_num), ?_⟩
  simp only [segLen]
  split_ifs
  · exact Word32.add_lt _ _
  · exact lt_of_le_of_lt Nat.and_le_right (by norm_num)

/-- A region that does not host the metadata starts at a page-aligned 32-bit address
other than `0` and has fewer than `2 ^ 20` pages. -/
theorem initPfaRegion_place {e : PhysMmapEntry} (hv : isValidRegion e = true)
    (hword : e.addr < 4294967296 ∧ e.len < 4294967296) :
    (initPfaRegion e).firstPage % 4096 = 0 ∧ (initPfaRegion e).firstPage < 4294967296 ∧
      (initPfaRegion e).nbPages < 1048576 ∧ 0 < (initPfaRegion e).firstPage := by
  have hlen := alignedLen_lt hword.2
  obtain ⟨-, hhigh, -, -⟩ := isValidRegion_iff.mp hv
  have hle := le_pageAlign_of_valid hv
  refine ⟨pageAlign_mod _, pageAlign_lt hword.1, ?_, lt_of_lt_of_le (by omega) hle⟩
  rw [nbPages_initPfaRegion]
  omega

/-- The hosting region is page aligned too, but its start may wrap around to `0`. -/
theorem hostRegion_place {e : PhysMmapEntry} {size : ℕ} (hv : isValidRegion e = true)
    (hword : e.addr < 4294967296 ∧ e.len < 4294967296) (hmod : size % 4096 = 0)
    (hsize : size ≤ alignedLen e) :
    (hostRegion size (initPfaRegion e)).firstPage % 4096 = 0 ∧
      (hostRegion size (initPfaRegion e)).firstPage < 4294967296 ∧
      (hostRegion size (initPfaRegion e)).nbPages < 1048576 := by
  obtain ⟨halign, -, hnb, -⟩ := initPfaRegion_place hv hword
  have hpages := nbPages_hostRegion hword.2 hsize
  refine ⟨?_, Word32.add_lt _ _, by omega⟩
  simp only [hostRegion, Word32.add, Word32.wrap]
  omega

/-- The regions that `pfa_init` makes of a map with 32-bit entries. -/
theorem pfaInit_places {pmm : PhysMmap} {st : PfaInitState} (h : pfaInit pmm = .ok (some st))
    (hword : ∀ e ∈ pmm, e.addr < 4294967296 ∧ e.len < 4294967296) :
    InitPlaces (shape st.pfa) := by
  obtain ⟨l, host, r, hpmm, hvalid, hsize, -, -, hpfa⟩ := pfaInit_regions h
  have hhost := hostRegion_place hvalid (hword host (by rw [hpmm]; simp)) (pfaMetaSize_mod pmm) hsize
  have hplain : ∀ part : PhysMmap, (∀ e ∈ part, e ∈ pmm) →
      ∀ s ∈ (part.filter isValidRegion).map initPfaRegion,
        s.firstPage % 4096 = 0 ∧ s.firstPage < 4294967296 ∧ s.nbPages < 1048576 ∧
          0 < s.firstPage := by
    intro part hpart s hs
    obtain ⟨e, he, rfl⟩ := List.mem_map.mp hs
    obtain ⟨he, hv⟩ := List.mem_filter.mp he
    exact initPfaRegion_place hv (hword e (hpart e he))
  have hl := hplain l fun e he => by rw [hpmm]; simp [he]
  have hr := hplain r fun e he => by rw [hpmm]; simp [he]
  have hall : ∀ s ∈ st.pfa, s.firstPage % 4096 = 0 ∧ s.firstPage < 4294967296 ∧
      s.nbPages < 1048576 := by
    intro s hs
    rw [hpfa, List.mem_append, List.mem_cons] at hs
    rcases hs with hs | rfl | hs
    · exact ⟨(hl s hs).1, (hl s hs).2.1, (hl s hs).2.2.1⟩
    · exact hhost
    · exact ⟨(hr s hs).1, (hr s hs).2.1, (hr s hs).2.2.1⟩
  refine ⟨?_, ?_, ?_, ?_⟩
  · simp only [shape, List.mem_map]
    rintro _ ⟨s, hs, rfl⟩
    exact (hall s hs).1
  · simp only [shape, List.mem_map]
    rintro _ ⟨s, hs, rfl⟩
    exact (hall s hs).2.1
  · simp only [shape, List.mem_map]
    rintro _ ⟨s, hs, rfl⟩
    exact (hall s hs).2.2
  · rw [shape, List.pairwise_map, hpfa, List.pairwise_append]
    refine ⟨List.pairwise_of_forall_mem_list fun s hs _ _ => .inl (hl s hs).2.2.2, ?_,
      fun s hs _ _ => .inl (hl s hs).2.2.2⟩
    exact List.pairwise_cons.mpr ⟨fun s hs => .inr (hr s hs).2.2.2,
      List.pairwise_of_forall_mem_list fun s hs _ _ => .inl (hr s hs).2.2.2⟩

/-- **What the allocator hands out it takes back exactly below the 4 GB boundary.** For
every map that `fill_phys_mmap` produces and `pfa_init` accepts, every address handed out
can be released at every point of every run, if and only if the regions that contain pages
end below `2 ^ 32` and do not overlap. -/
theorem pfa_takes_back_iff {mmap : List MultibootMmapEntry} {st : PfaInitState}
    (h : pfaInit (fillPhysMmap mmap) = .ok (some st)) :
    TakesBack st.pfa ↔
      (∀ r ∈ st.pfa, 0 < r.nbPages → r.endAddr < 4294967296) ∧
        st.pfa.Pairwise fun r s => 0 < r.nbPages → 0 < s.nbPages →
          r.endAddr ≤ s.firstPage ∨ s.endAddr ≤ r.firstPage := by
  have hplaces := pfaInit_places h fun e he => fillPhysMmap_word he
  rw [takesBack_iff_geometry (pfaInit_free h) hplaces]
  constructor
  · rintro ⟨-, hb, hd⟩
    rw [shape, List.pairwise_map] at hd
    exact ⟨fun r hr hpos => hb _ (List.mem_map_of_mem (f := fun r : PfaRegion =>
      (r.firstPage, r.nbPages)) hr) hpos, hd⟩
  · rintro ⟨hb, hd⟩
    refine ⟨fun a ha _ => hplaces.aligned a ha, ?_, by rwa [shape, List.pairwise_map]⟩
    simp only [shape, List.mem_map]
    rintro _ ⟨r, hr, rfl⟩ hpos
    exact hb r hr hpos

/-- The map of a machine whose only region ends at the 4 GB boundary: `fill_phys_mmap` cuts
a length of 4 GB at the address `0xffff0000`. -/
def boundaryMmap : List MultibootMmapEntry := [⟨20, 0xffff0000, 0x100000000, 1⟩]

/-- The regions of that machine: fifteen pages behind the page of the metadata. -/
def boundaryInit : PfaInitState :=
  ⟨0xffff0000, 1, [⟨0xffff1000, List.replicate 15 .free⟩], [⟨0xffff0000, 0x10000, .reserved⟩]⟩

theorem pfaInit_boundary : pfaInit (fillPhysMmap boundaryMmap) = .ok (some boundaryInit) := by
  decide +kernel

/-- A page of that machine is handed out and cannot be released. -/
theorem pfa_not_takes_back_boundary :
    pfaInit (fillPhysMmap boundaryMmap) = .ok (some boundaryInit) ∧
      (∃ s, Run.run PfaState.step ⟨boundaryInit.pfa, []⟩ [.alloc 1] = .ok s ∧
        (0xffff1000, 1) ∈ s.outstanding ∧
        pfaFree s.pfa 0xffff1000 = panic "page frame does not belong to any region") ∧
      ¬ TakesBack boundaryInit.pfa := by
  have hrun : Run.run PfaState.step ⟨boundaryInit.pfa, []⟩ [.alloc 1] =
      .ok ⟨[⟨0xffff1000, .used :: List.replicate 14 .free⟩], [(0xffff1000, 1)]⟩ := by
    decide +kernel
  have hpanic : pfaFree [⟨0xffff1000, .used :: List.replicate 14 .free⟩] 0xffff1000 =
      panic "page frame does not belong to any region" := by decide +kernel
  refine ⟨pfaInit_boundary, ⟨_, hrun, by simp, hpanic⟩, fun h => ?_⟩
  obtain ⟨pfa', hfree, -⟩ := h _ _ hrun 0xffff1000 1 (by simp)
  rw [hpanic] at hfree
  cases hfree

/-- A machine with four pages at 1 MB takes back what it hands out. -/
theorem pfa_takes_back_four_pages :
    TakesBack [⟨0x101000, [.free, .free, .free]⟩] := by
  have hinit : pfaInit (fillPhysMmap [⟨20, 0x100000, 0x4000, 1⟩]) = .ok (some ⟨0x100000, 1,
      [⟨0x101000, [.free, .free, .free]⟩], [⟨0x100000, 0x4000, .reserved⟩]⟩) := by decide +kernel
  exact (pfa_takes_back_iff hinit).mpr ⟨by simp [PfaRegion.nbPages, PfaRegion.endAddr], by simp⟩

end Ahos
