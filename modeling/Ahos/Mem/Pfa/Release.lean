import Ahos.Mem.Pfa.Runs
import Ahos.Mem.Pfa.Frames

/-!
# Exact release

`pfa_free` with the pagemaps at the moment it ends, also when it ends in a panic. In a state that
calls of the allocator can reach, it returns exactly for the address of an outstanding allocation
and then changes the cells of this allocation only; for every other address it panics before it
changes a cell. The release loop, which reads a cell before it checks the index, stays inside the
pagemap.
-/

namespace Ahos

open Tiling

/-- The release loop of `pfa_free`, with the pagemap at its end. -/
def freeBlockEnding (pagemap : List PageState) (index : ℕ) : Ending (List PageState) :=
  match _h : pagemap[index]? with
  | none => .halts .outOfBounds pagemap
  | some c =>
    if c ≠ .usedTail then
      if index ≥ pagemap.length then
        .halts (.panic "index out-of-bound") pagemap
      else if c ≠ .usedHead ∧ c ≠ .usedPart then
        .halts (.panic "unexpected page state") pagemap
      else
        freeBlockEnding (pagemap.set index .free) (index + 1)
    else
      .returns (pagemap.set index .free)
termination_by pagemap.length - index
decreasing_by
  have := (List.getElem?_eq_some_iff.mp _h).1
  simp only [List.length_set]
  omega

/-- The body of `pfa_free` once the region is known, with the region at its end. -/
def pfaFreeRegionEnding (region : PfaRegion) (pgf : ℕ) : Ending PfaRegion :=
  if pageOffset pgf ≠ 0 then
    .halts (.panic "pgf is not aligned on a page boundary") region
  else
    let index := Word32.sub pgf region.firstPage / 4096
    match region.pagemap[index]? with
    | none => .halts .outOfBounds region
    | some c =>
      if c = .free then
        .halts (.panic "double-free detected!") region
      else if c = .used then
        .returns { region with pagemap := region.pagemap.set index .free }
      else if c ≠ .usedHead then
        .halts (.panic "freeing a non head page frame block") region
      else
        match freeBlockEnding region.pagemap index with
        | .returns pagemap => .returns { region with pagemap := pagemap }
        | .halts why pagemap => .halts why { region with pagemap := pagemap }

/-- `pfa_free`, with the regions at its end. -/
def pfaFreeEnding (pfa : PfaMeta) (pgf : ℕ) : Ending PfaMeta :=
  match findRegion pfa pgf with
  | none => .halts (.panic "page frame does not belong to any region") pfa
  | some i =>
    match pfa[i]? with
    | none => .halts .outOfBounds pfa
    | some region =>
      match pfaFreeRegionEnding region pgf with
      | .returns region => .returns (pfa.set i region)
      | .halts why region => .halts why (pfa.set i region)

/-! ## The outcomes are those of `pfaFree` -/

theorem outcome_freeBlockEnding (pagemap : List PageState) (index : ℕ) :
    (freeBlockEnding pagemap index).outcome = freeBlock pagemap index := by
  fun_induction freeBlockEnding pagemap index with
  | case1 pagemap index hget =>
    rw [freeBlock]
    split
    · rfl
    · next c hc => simp [hget] at hc
  | case2 pagemap index c hget htail hlen =>
    rw [freeBlock]
    split
    · next hnone => simp [hget] at hnone
    · next c' hc =>
      obtain rfl := Option.some.inj (hget.symm.trans hc)
      rw [if_pos htail, if_pos hlen]
      rfl
  | case3 pagemap index c hget htail hlen hbad =>
    rw [freeBlock]
    split
    · next hnone => simp [hget] at hnone
    · next c' hc =>
      obtain rfl := Option.some.inj (hget.symm.trans hc)
      rw [if_pos htail, if_neg hlen, if_pos hbad]
      rfl
  | case4 pagemap index c hget htail hlen hbad ih =>
    rw [ih]
    conv_rhs => rw [freeBlock]
    split
    · next hnone => simp [hget] at hnone
    · next c' hc =>
      obtain rfl := Option.some.inj (hget.symm.trans hc)
      rw [if_pos htail, if_neg hlen, if_neg hbad]
  | case5 pagemap index c hget htail =>
    rw [freeBlock]
    split
    · next hnone => simp [hget] at hnone
    · next c' hc =>
      obtain rfl := Option.some.inj (hget.symm.trans hc)
      rw [if_neg htail]
      rfl

theorem outcome_pfaFreeRegionEnding (region : PfaRegion) (pgf : ℕ) :
    (pfaFreeRegionEnding region pgf).outcome = pfaFreeRegion region pgf := by
  simp only [pfaFreeRegionEnding, pfaFreeRegion, readCell]
  by_cases hoff : pageOffset pgf ≠ 0
  · rw [if_pos hoff, if_pos hoff]
    rfl
  rw [if_neg hoff, if_neg hoff]
  cases hget : region.pagemap[Word32.sub pgf region.firstPage / 4096]? with
  | none => rfl
  | some c =>
    simp only [Run.ok_bind]
    split_ifs
    · rfl
    · rfl
    · rfl
    · rw [← outcome_freeBlockEnding]
      cases freeBlockEnding region.pagemap (Word32.sub pgf region.firstPage / 4096) with
      | returns pagemap => rfl
      | halts why pagemap => rfl

/-- The release with the state at its end has the outcome of the release. -/
theorem outcome_pfaFreeEnding (pfa : PfaMeta) (pgf : ℕ) :
    (pfaFreeEnding pfa pgf).outcome = pfaFree pfa pgf := by
  simp only [pfaFreeEnding, pfaFree, readCell]
  cases findRegion pfa pgf with
  | none => rfl
  | some i =>
    cases hget : pfa[i]? with
    | none => simp [hget, Ending.outcome]
    | some region =>
      simp only [hget, Run.ok_bind]
      rw [← outcome_pfaFreeRegionEnding]
      cases pfaFreeRegionEnding region pgf with
      | returns region => rfl
      | halts why region => rfl

/-! ## Exactness -/

/-- In a region that is a row of blocks, a release on one of its pages returns or panics before it
changes a cell. -/
theorem pfaFreeRegionEnding_cases {r : TiledRegion} {pgf : ℕ}
    (hidx : Word32.sub pgf r.firstPage / 4096 < r.region.nbPages) :
    (∃ r', pfaFreeRegionEnding r.region pgf = .returns r') ∨
      ∃ msg, pfaFreeRegionEnding r.region pgf = .halts (.panic msg) r.region := by
  simp only [pfaFreeRegionEnding]
  split
  · exact .inr ⟨_, rfl⟩
  · have hget := List.getElem?_eq_getElem hidx
    cases hc : r.region.pagemap[Word32.sub pgf r.firstPage / 4096]? with
    | none =>
      rw [hc] at hget
      cases hget
    | some c =>
      simp only [TiledRegion.firstPage_region, hc]
      split_ifs with hfree hused hhead
      · exact .inr ⟨_, rfl⟩
      · exact .inl ⟨_, rfl⟩
      · exact .inr ⟨_, rfl⟩
      · -- the head of a block: the loop runs to the tail of the block
        obtain rfl : c = .usedHead := not_not.mp hhead
        obtain ⟨l, parts, rest, hbs, hi⟩ := split_of_usedHead hc
        have hblock := freeBlock_block (layout PageBlock.cells l) (layout PageBlock.cells rest) parts
        rw [← layout_cons, ← layout_append, ← hbs, ← hi, ← outcome_freeBlockEnding,
          Ending.outcome_eq_ok] at hblock
        exact .inl ⟨_, by
          rw [show r.region.pagemap = layout PageBlock.cells r.blocks from rfl, hblock]⟩

/-- **A release returns or panics before it changes a cell.** -/
theorem pfaFreeEnding_cases {pfa : PfaMeta} {out : List (ℕ × ℕ)} (h : PfaInv pfa out) (p : ℕ) :
    (∃ pfa', pfaFreeEnding pfa p = .returns pfa') ∨
      ∃ msg, pfaFreeEnding pfa p = .halts (.panic msg) pfa := by
  obtain ⟨hg, rs, rfl, -⟩ := h
  simp only [pfaFreeEnding]
  cases hfind : findRegion (rs.map TiledRegion.region) p with
  | none => exact .inr ⟨_, rfl⟩
  | some i =>
    obtain ⟨hi, hholds, -⟩ := List.findIdx?_eq_some_iff_getElem.mp hfind
    rw [List.length_map] at hi
    rw [List.getElem_map] at hholds
    have hmem : rs[i] ∈ rs := List.getElem_mem hi
    have hget : (rs.map TiledRegion.region)[i]? = some rs[i].region := by simp [hi]
    rw [holds_iff fun hpos => hg.bounded _ (mem_shape hmem) hpos] at hholds
    simp only [PfaRegion.endAddr, TiledRegion.firstPage_region] at hholds
    have hbound := hg.bounded _ (mem_shape hmem) (by simp only; omega)
    simp only at hbound
    have hidx : Word32.sub p rs[i].firstPage / 4096 < rs[i].region.nbPages := by
      rw [Word32.sub_of_le hholds.1 (by omega)]
      omega
    simp only [hget]
    rcases pfaFreeRegionEnding_cases hidx with ⟨r', hr'⟩ | ⟨msg, hmsg⟩
    · exact .inl ⟨_, by rw [hr']⟩
    · refine .inr ⟨msg, ?_⟩
      obtain ⟨hi', hval⟩ := List.getElem?_eq_some_iff.mp hget
      have hset : (rs.map TiledRegion.region).set i rs[i].region = rs.map TiledRegion.region := by
        rw [← hval, List.set_getElem_self]
      simp only [hmsg, hset]

/-- A release that returns was given the address of an outstanding allocation. -/
theorem mem_outstanding_of_pfaFree {pfa pfa' : PfaMeta} {out : List (ℕ × ℕ)} (h : PfaInv pfa out)
    (hnull : NoNullFrame pfa) {p : ℕ} (hfree : pfaFree pfa p = .ok pfa') : ∃ n, (p, n) ∈ out := by
  rcases mem_of_pfaFree h hfree with hmem | ⟨rfl, -, -⟩
  · exact hmem
  · -- no region contains the page at address 0
    obtain ⟨i, r, -, hfind, hr, -⟩ := pfaFree_eq_ok.mp hfree
    have hholds := holds_of_findRegion hfind hr
    have hmem : r ∈ pfa := List.mem_of_getElem? hr
    have hshape : (r.firstPage, r.nbPages) ∈ shape pfa :=
      List.mem_map_of_mem (f := fun r : PfaRegion => (r.firstPage, r.nbPages)) hmem
    rw [holds_iff fun hpos => h.geometry.bounded _ hshape hpos] at hholds
    simp only [PfaRegion.endAddr, badPage] at hholds
    have := hnull _ hmem (by omega)
    omega

/-- **Release is exact**, in every state that calls of the allocator reach. For the address of an
outstanding allocation of `n` pages, `pfa_free` returns and sets `n` cells of one region to
`PAGE_FREE`, those of the allocation, and no other cell. For every other value it panics, with no
cell changed. In particular it never reads a cell outside a pagemap. -/
theorem pfa_free_exact {pfa : PfaMeta} (h : PfaStart pfa) {ops : List PfaOp} {s : PfaState}
    (hrun : Run.run PfaState.step ⟨pfa, []⟩ ops = .ok s) (p : ℕ) :
    (∀ n, (p, n) ∈ s.outstanding →
      ∃ i r k, s.pfa[i]? = some r ∧ p = r.firstPage + 4096 * k ∧ k + n ≤ r.nbPages ∧
        pfaFreeEnding s.pfa p = .returns (s.pfa.set i { r with
          pagemap := r.pagemap.take k ++ (List.replicate n .free ++ r.pagemap.drop (k + n)) })) ∧
    ((∀ n, (p, n) ∉ s.outstanding) →
      ∃ msg, pfaFreeEnding s.pfa p = .halts (.panic msg) s.pfa) := by
  obtain ⟨hinv, hshape⟩ := PfaState.run_inv (pfaInv_of_free h.geometry h.free) hrun
  have hnull : NoNullFrame s.pfa := forall_of_shape (P := fun p n => 0 < n → 0 < p) hshape
    fun r hr hpos => lt_of_lt_of_le (by decide) (h.high r hr hpos)
  constructor
  · intro n hmem
    obtain ⟨i, r, k, hget, hp, hk, hfree⟩ := pfaFree_cells hinv hmem
    rw [← outcome_pfaFreeEnding, Ending.outcome_eq_ok] at hfree
    exact ⟨i, r, k, hget, hp, hk, hfree⟩
  · intro hnot
    rcases pfaFreeEnding_cases hinv p with ⟨pfa', hfree⟩ | hpanic
    · have hok : pfaFree s.pfa p = .ok pfa' := by
        rw [← outcome_pfaFreeEnding, hfree]
        rfl
      obtain ⟨n, hn⟩ := mem_outstanding_of_pfaFree hinv hnull hok
      exact absurd hn (hnot n)
    · exact hpanic

/-- Three pages, of which the first two are a block: its address is released, the address of its
second page is not. -/
theorem pfa_free_exact_three_pages :
    pfaFreeEnding [⟨0x100000, [.usedHead, .usedTail, .free]⟩] 0x100000 =
        .returns [⟨0x100000, [.free, .free, .free]⟩] ∧
      ∃ msg, pfaFreeEnding [⟨0x100000, [.usedHead, .usedTail, .free]⟩] 0x101000 =
        .halts (.panic msg) [⟨0x100000, [.usedHead, .usedTail, .free]⟩] := by
  have hstart : PfaStart [⟨0x100000, [.free, .free, .free]⟩] :=
    ⟨by simp, by simp, by simp [shape], by simp [shape, PfaRegion.nbPages], by simp [shape]⟩
  have hrun : Run.run PfaState.step ⟨[⟨0x100000, [.free, .free, .free]⟩], []⟩ [.alloc 2] =
      .ok ⟨[⟨0x100000, [.usedHead, .usedTail, .free]⟩], [(0x100000, 2)]⟩ := by decide +kernel
  constructor
  · obtain ⟨i, r, k, hget, hp, -, hfree⟩ := (pfa_free_exact hstart hrun 0x100000).1 2 (by simp)
    obtain ⟨rfl, rfl⟩ : i = 0 ∧ r = ⟨0x100000, [.usedHead, .usedTail, .free]⟩ := by
      cases i with
      | zero => exact ⟨rfl, (Option.some.inj hget).symm⟩
      | succ i => simp at hget
    obtain rfl : k = 0 := by simp only at hp; omega
    exact hfree
  · exact (pfa_free_exact hstart hrun 0x101000).2 (by simp)

end Ahos
